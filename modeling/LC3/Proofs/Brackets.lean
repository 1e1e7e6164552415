import LC3.Proofs.RawMode
import Mathlib.Data.List.Chain

/-!
# Brackets around raw mode

A terminal may be asked to enter raw mode and to leave it again as often as one likes. As long as it
has left before it enters again, it is found in its own mode whenever it has left, and what it sends
to its input is a sequence of brackets: raw mode, its own mode, and so on in turn. Leaving twice is
leaving once.

An input that cannot be switched back now may be so later. The terminal keeps the mode to go back to
until it has succeeded, so it is enough to ask it again.
-/

namespace LC3

/-! ## Requests -/

/-- Between any two requests to enter there is one to leave. -/
def Spaced (rs : List ModeRequest) : Prop :=
  ∀ before between after, rs = before ++ .enter :: between ++ .enter :: after → .leave ∈ between

theorem spaced_iff_isChain {rs : List ModeRequest} :
    Spaced rs ↔ rs.IsChain fun r q => r = .enter → q = .leave := by
  constructor
  · intro h
    induction rs with
    | nil => exact .nil
    | cons r rs ih =>
      have hrest : Spaced rs := by
        intro before between after hsplit
        exact h (r :: before) between after (congrArg (r :: ·) hsplit)
      cases rs with
      | nil => exact .singleton r
      | cons q rs =>
        refine .cons_cons (fun hr => ?_) (ih hrest)
        cases q with
        | leave => rfl
        | enter =>
          subst hr
          have hnone : ModeRequest.leave ∈ [] := h [] [] rs rfl
          cases hnone
  · rintro h before between after rfl
    rw [List.append_assoc, List.cons_append] at h
    have hbehind := h.right_of_append
    cases between with
    | nil => cases (List.isChain_cons_cons.1 hbehind).1 rfl
    | cons r between =>
      obtain rfl : r = .leave := (List.isChain_cons_cons.1 hbehind).1 rfl
      exact List.mem_cons_self

/-- Whoever begins has left. -/
theorem Spaced.isChain {rs : List ModeRequest} (h : Spaced rs) :
    (.leave :: rs).IsChain fun r q => r = .enter → q = .leave := by
  have hchain := spaced_iff_isChain.1 h
  cases rs with
  | nil => exact .singleton _
  | cons q rs => exact List.isChain_cons_cons.2 ⟨nofun, hchain⟩

/-- Whoever enters has left. -/
theorem Spaced.getLastD_of_enter {before after : List ModeRequest}
    (h : Spaced (before ++ .enter :: after)) : before.getLastD .leave = .leave := by
  obtain ⟨-, -, hmeet⟩ := List.isChain_append.1 (List.cons_append ▸ h.isChain)
  have hlast : (ModeRequest.leave :: before).getLast? = some (before.getLastD .leave) := by
    rw [List.getLast?_cons, List.getLastD_eq_getLast?]
  have hnext := hmeet _ hlast .enter rfl
  cases hr : before.getLastD .leave with
  | leave => rfl
  | enter => cases hnext hr

/-- The first and the second take turns, beginning with the first. -/
def Alternates (first second : Bool) (modes : List Bool) : Prop :=
  ∀ i mode, modes[i]? = some mode → mode = if i % 2 = 0 then first else second

theorem alternates_nil (first second : Bool) : Alternates first second [] := nofun

theorem Alternates.cons {first second : Bool} {modes : List Bool}
    (h : Alternates second first modes) : Alternates first second (first :: modes) := by
  intro i mode hmode
  cases i with
  | zero => exact (Option.some.inj hmode).symm
  | succ i =>
    rw [h i mode hmode]
    split <;> split <;> first | rfl | omega

namespace Tty

/-- Answers a request. -/
def request (r : ModeRequest) (tty : Tty) : Reply Tty Unit :=
  match r with
  | .enter => enter tty
  | .leave => leave tty

/-- The terminal behind requests, in order. -/
def requestAll (tty : Tty) (rs : List ModeRequest) : Tty :=
  rs.foldl (fun tty r => (request r tty).device) tty

/-- The modes to which a terminal switches its input when it is sent requests, in order. -/
def switches : Tty → List ModeRequest → List Bool
  | _, [] => []
  | tty, r :: rs =>
    (request r tty).traffic.flatMap Traffic.switched ++ switches (request r tty).device rs

/-! ## An input that obliges -/

end Tty

/-- An input that can be switched, and whose mode can be seen. -/
structure Stdin.Obliges (input : Stdin) : Prop where
  isTTY : input.isTTY = true
  switchable : input.switchable = true
  tracks : input.tracks = true
  failure : input.failure = none

/-- The mode of an input; one that is not known counts as not raw. -/
def Stdin.mode (input : Stdin) : Bool := input.isRaw.getD false

namespace Tty

/-- The terminal whose input was found in `mode`, behind a request. -/
structure Behind (mode : Bool) (r : ModeRequest) (tty : Tty) : Prop where
  obliges : tty.stdin.Obliges
  entered : r = .enter → tty.saved = some mode
  left : r = .leave → tty.saved = none ∧ tty.stdin.mode = mode

variable {mode : Bool} {r q : ModeRequest} {tty : Tty}

theorem behind_start {input : Stdin} (h : input.Obliges) :
    Behind input.mode .leave { stdin := input } := ⟨h, nofun, fun _ => ⟨rfl, rfl⟩⟩

theorem Behind.enters (h : Behind mode .leave tty) :
    (enter tty).answer = .ok () ∧ (enter tty).traffic = [.rawMode true] ∧
      Behind mode .enter (enter tty).device := by
  obtain ⟨⟨isTTY, isRaw, switchable, tracks, failure⟩, saved⟩ := tty
  obtain ⟨⟨rfl, rfl, rfl, rfl⟩, -, hleft⟩ := h
  obtain ⟨rfl, rfl⟩ := hleft rfl
  exact ⟨rfl, rfl, ⟨rfl, rfl, rfl, rfl⟩, fun _ => rfl, nofun⟩

theorem Behind.leave_entered (h : Behind mode .enter tty) :
    (leave tty).answer = .ok () ∧ (leave tty).traffic = [.rawMode mode] ∧
      Behind mode .leave (leave tty).device := by
  obtain ⟨⟨isTTY, isRaw, switchable, tracks, failure⟩, saved⟩ := tty
  obtain ⟨⟨rfl, rfl, rfl, rfl⟩, hentered, -⟩ := h
  obtain rfl : saved = some mode := hentered rfl
  exact ⟨rfl, rfl, ⟨rfl, rfl, rfl, rfl⟩, nofun, fun _ => ⟨rfl, rfl⟩⟩

theorem Behind.leave_left (h : Behind mode .leave tty) :
    leave tty = { answer := .ok (), device := tty } := leave_of_saved (h.left rfl).1

/-- Leaving goes back to the mode of the input, and is nothing where it has left already. -/
theorem Behind.leaves (h : Behind mode r tty) :
    (leave tty).answer = .ok () ∧ (leave tty).device.stdin.mode = mode ∧
      (r = .enter → (leave tty).traffic = [.rawMode mode]) ∧
      (r = .leave → (leave tty).traffic = []) := by
  cases r with
  | enter =>
    obtain ⟨hanswer, htraffic, hbehind⟩ := h.leave_entered
    exact ⟨hanswer, (hbehind.left rfl).2, fun _ => htraffic, nofun⟩
  | leave =>
    rw [h.leave_left]
    exact ⟨rfl, (h.left rfl).2, nofun, fun _ => rfl⟩

/-- One request, which enters only if the one before it left. -/
theorem Behind.request (h : Behind mode r tty) (hspaced : r = .enter → q = .leave) :
    Behind mode q (request q tty).device := by
  cases q with
  | enter =>
    cases r with
    | enter => cases hspaced rfl
    | leave => exact h.enters.2.2
  | leave =>
    cases r with
    | enter => exact h.leave_entered.2.2
    | leave =>
      show Behind mode .leave (leave tty).device
      rw [h.leave_left]
      exact h

theorem Behind.requestAll {rs : List ModeRequest} (h : Behind mode r tty)
    (hspaced : (r :: rs).IsChain fun r q => r = .enter → q = .leave) :
    Behind mode (rs.getLastD r) (requestAll tty rs) := by
  induction rs generalizing r tty with
  | nil => exact h
  | cons q rs ih =>
    obtain ⟨hfirst, hrest⟩ := List.isChain_cons_cons.1 hspaced
    rw [List.getLastD_cons]
    exact ih (h.request hfirst) hrest

/-- Whatever is requested next, an input that obliges is behind the last request before it. -/
theorem behind_spaced {input : Stdin} {before after : List ModeRequest} (hobliges : input.Obliges)
    (hspaced : Spaced (before ++ after)) :
    Behind input.mode (before.getLastD .leave) (requestAll { stdin := input } before) :=
  (behind_start hobliges).requestAll hspaced.isChain.left_of_append

/-- Raw mode is sent in turn with the mode to go back to. -/
theorem Behind.alternates {rs : List ModeRequest} (h : Behind mode r tty)
    (hspaced : (r :: rs).IsChain fun r q => r = .enter → q = .leave) :
    (r = .leave → Alternates true mode (switches tty rs)) ∧
      (r = .enter → Alternates mode true (switches tty rs)) := by
  induction rs generalizing r tty with
  | nil => exact ⟨fun _ => alternates_nil _ _, fun _ => alternates_nil _ _⟩
  | cons q rs ih =>
    obtain ⟨hfirst, hrest⟩ := List.isChain_cons_cons.1 hspaced
    have hnext := ih (h.request hfirst) hrest
    cases r with
    | leave =>
      refine ⟨fun _ => ?_, nofun⟩
      cases q with
      | enter =>
        have hsent : switches tty (.enter :: rs) =
            true :: switches (enter tty).device rs := by
          show (enter tty).traffic.flatMap _ ++ switches (enter tty).device rs = _
          rw [h.enters.2.1]
          rfl
        rw [hsent]
        exact (hnext.2 rfl).cons
      | leave =>
        have hsent : switches tty (.leave :: rs) = switches tty rs := by
          show (leave tty).traffic.flatMap _ ++ switches (leave tty).device rs = _
          rw [h.leave_left]
          rfl
        rw [hsent]
        exact (ih h hrest).1 rfl
    | enter =>
      obtain rfl : q = .leave := hfirst rfl
      refine ⟨nofun, fun _ => ?_⟩
      have hsent : switches tty (.leave :: rs) = mode :: switches (leave tty).device rs := by
        show (leave tty).traffic.flatMap _ ++ switches (leave tty).device rs = _
        rw [h.leave_entered.2.1]
        rfl
      rw [hsent]
      exact (hnext.1 rfl).cons

/-! ## An input that refuses -/

/-- The terminal with its input as it is now. -/
def on (tty : Tty) (input : Stdin) : Tty := { tty with stdin := input }

/-- The terminal behind requests to leave, with its input as it is at each of them. -/
def leaveAll (tty : Tty) (inputs : List Stdin) : Tty :=
  inputs.foldl (fun tty input => (leave (tty.on input)).device) tty

/-- Only an input that is switched can refuse, and then all stays as it is. -/
theorem leave_eq_error {f : Fault} (h : (leave tty).answer = .error f) :
    ∃ mode, tty.saved = some mode ∧
      leave tty = { answer := .error f, device := tty, traffic := [.rawMode mode] } := by
  obtain ⟨⟨isTTY, isRaw, switchable, tracks, failure⟩, saved⟩ := tty
  cases saved with
  | none => cases h
  | some mode =>
    cases switchable with
    | false => cases h
    | true =>
      cases failure with
      | none => cases h
      | some text =>
        cases h
        exact ⟨mode, rfl, rfl⟩

/-- As long as there is a mode to go back to, the input is switched to it. -/
theorem leave_of_saved_some (hsaved : tty.saved = some mode)
    (hswitchable : tty.stdin.switchable = true) :
    (leave tty).traffic = [.rawMode mode] ∧
      (tty.stdin.failure = none → (leave tty).answer = .ok () ∧ (leave tty).device.saved = none) ∧
      (tty.stdin.failure ≠ none → (leave tty).device.saved = some mode) := by
  obtain ⟨⟨isTTY, isRaw, switchable, tracks, failure⟩, saved⟩ := tty
  obtain rfl : saved = some mode := hsaved
  obtain rfl : switchable = true := hswitchable
  cases failure with
  | none => exact ⟨rfl, fun _ => ⟨rfl, rfl⟩, fun h => absurd rfl h⟩
  | some text => exact ⟨rfl, nofun, fun _ => rfl⟩

theorem saved_leaveAll {inputs : List Stdin} (hsaved : tty.saved = some mode)
    (hrefuse : ∀ i ∈ inputs, i.switchable = true ∧ i.failure ≠ none) :
    (leaveAll tty inputs).saved = some mode := by
  induction inputs generalizing tty with
  | nil => exact hsaved
  | cons input inputs ih =>
    obtain ⟨⟨hswitchable, hfailure⟩, hrest⟩ := List.forall_mem_cons.1 hrefuse
    have hon : (tty.on input).saved = some mode := hsaved
    exact ih ((leave_of_saved_some hon hswitchable).2.2 hfailure) hrest

/-- Sent any requests in which it has left before it enters again, a terminal whose input obliges
switches it to raw mode and to its own mode in turn. Whenever it enters, it does so without a fault
and sends raw mode. Whenever it leaves, it does so without a fault and its input is in its own mode,
which it sends if it has just entered; if it has not entered since it left, it sends nothing. When
it fails to leave it keeps the mode to go back to, however often that happens: each time that it is
asked to leave it sends the same mode again, until it has succeeded. -/
theorem brackets_restore_mode (input : Stdin) :
    (input.Obliges → ∀ rs, Spaced rs →
      Alternates true input.mode (switches { stdin := input } rs) ∧
        (∀ before after, rs = before ++ .enter :: after →
          let tty := requestAll { stdin := input } before
          (enter tty).answer = .ok () ∧ (enter tty).traffic = [.rawMode true]) ∧
        ∀ before after, rs = before ++ .leave :: after →
          let tty := requestAll { stdin := input } before
          (leave tty).answer = .ok () ∧ (leave tty).device.stdin.mode = input.mode ∧
            (before.getLast? = some .enter → (leave tty).traffic = [.rawMode input.mode]) ∧
            (before.getLast? ≠ some .enter → (leave tty).traffic = [])) ∧
      ∀ (tty : Tty) (f : Fault), (leave tty).answer = .error f →
        ∃ mode, tty.saved = some mode ∧ (leave tty).traffic = [.rawMode mode] ∧
          ∀ inputs, (∀ i ∈ inputs, i.switchable = true ∧ i.failure ≠ none) →
            let later := leaveAll (leave tty).device inputs
            later.saved = some mode ∧ ∀ next : Stdin, next.switchable = true →
              (leave (later.on next)).traffic = [.rawMode mode] ∧
                (next.failure = none → (leave (later.on next)).answer = .ok () ∧
                  (leave (later.on next)).device.saved = none) := by
  refine ⟨fun hobliges rs hspaced => ⟨?_, ?_, ?_⟩, fun tty f hfault => ?_⟩
  · exact ((behind_start hobliges).alternates hspaced.isChain).1 rfl
  · rintro before after rfl tty
    have hbehind := behind_spaced hobliges hspaced
    rw [hspaced.getLastD_of_enter] at hbehind
    exact ⟨hbehind.enters.1, hbehind.enters.2.1⟩
  · rintro before after rfl tty
    obtain ⟨hanswer, hmode, hback, hnothing⟩ := (behind_spaced hobliges hspaced).leaves
    rw [List.getLastD_eq_getLast?] at hback hnothing
    refine ⟨hanswer, hmode, fun hlast => hback ?_, fun hlast => hnothing ?_⟩
    · rw [hlast]
      rfl
    · rcases hr : before.getLast? with _ | _ | _
      · rfl
      · exact absurd hr hlast
      · rfl
  · obtain ⟨mode, hsaved, hleave⟩ := leave_eq_error hfault
    refine ⟨mode, hsaved, by rw [hleave], fun inputs hrefuse => ?_⟩
    intro later
    have hkept : later.saved = some mode := by
      show (leaveAll (leave tty).device inputs).saved = some mode
      rw [hleave]
      exact saved_leaveAll hsaved hrefuse
    refine ⟨hkept, fun next hswitchable => ?_⟩
    have hon : (later.on next).saved = some mode := hkept
    obtain ⟨htraffic, hsuccess, -⟩ := leave_of_saved_some hon hswitchable
    exact ⟨htraffic, hsuccess⟩

/-- An input whose mode is not known. -/
def obliging : Stdin := { isTTY := true, tracks := true }

/-- An input that refuses to be switched. -/
def refusing : Stdin := { isTTY := true, failure := some "EIO" }

theorem brackets_restore_mode_again :
    (enter (requestAll { stdin := obliging } [.leave])).traffic = [.rawMode true] ∧
      (leave (requestAll { stdin := obliging } [.leave, .enter])).traffic = [.rawMode false] ∧
      (leave
          (requestAll { stdin := obliging } [.leave, .enter, .leave, .enter])).device.stdin.mode =
        false ∧
      Alternates true false
        (switches { stdin := obliging } [.leave, .enter, .leave, .enter, .leave, .leave]) ∧
      (leave (requestAll { stdin := obliging } [.leave, .enter, .leave, .enter, .leave])).traffic =
        [] ∧
      (leave ((leaveAll { stdin := refusing, saved := some true } [refusing, refusing]).on
        obliging)).traffic = [.rawMode true] := by
  obtain ⟨hbrackets, -⟩ := brackets_restore_mode obliging
  obtain ⟨-, hretries⟩ := brackets_restore_mode refusing
  have hspaced : Spaced [.leave, .enter, .leave, .enter, .leave, .leave] :=
    spaced_iff_isChain.2 (by decide)
  obtain ⟨hturns, henters, hleaves⟩ := hbrackets ⟨rfl, rfl, rfl, rfl⟩ _ hspaced
  obtain ⟨mode, hsaved, -, hagain⟩ :=
    hretries { stdin := refusing, saved := some true } (.foreign "EIO") rfl
  cases hsaved
  have hrefuse : ∀ i ∈ [refusing], i.switchable = true ∧ i.failure ≠ none := by decide
  exact ⟨(henters [.leave] [.leave, .enter, .leave, .leave] rfl).2,
    (hleaves [.leave, .enter] [.enter, .leave, .leave] rfl).2.2.1 rfl,
    (hleaves [.leave, .enter, .leave, .enter] [.leave] rfl).2.1, hturns,
    (hleaves [.leave, .enter, .leave, .enter, .leave] [] rfl).2.2.2 (by decide),
    ((hagain [refusing] hrefuse).2 obliging rfl).1⟩

end Tty

end LC3
