import LC3.Proofs.FaultLaw
import LC3.Proofs.Sessions
import LC3.Proofs.Slices

/-!
# Output in time

On a line console nothing that a program writes is lost, and nothing is shown late: whenever the
host is asked for a key, and when the session settles, the host has been given every byte written so
far.

A poll of the keyboard does not flush, a foreign fault is passed on without a flush, and a slice may
end anywhere. What holds it together is an account: what was shown and what is held back make up
what was written. Only a device that has just shown everything asks its host for a key, and only
asking for a key has faults of the host.
-/

namespace LC3

open MachineM

/-! ## Accounts -/

/-- Whenever a key is asked for, everything written before has been shown. -/
def Punctual (events : List Event) : Prop :=
  ∀ before k after, events = before ++ .host (.key k) :: after →
    before.flatMap Event.shown = before.flatMap Event.written

theorem Punctual.append {events more : List Event} (h : Punctual events)
    (hmore : ∀ before k after, more = before ++ .host (.key k) :: after →
      (events ++ before).flatMap Event.shown = (events ++ before).flatMap Event.written) :
    Punctual (events ++ more) := by
  intro before k after hsplit
  rcases List.append_eq_append_iff.1 hsplit with ⟨between, rfl, hrest⟩ | ⟨between, hrest, hkey⟩
  · exact hmore between k after hrest
  · cases between with
    | nil =>
      rw [List.append_nil] at hrest
      subst hrest
      have hnow := hmore [] k after hkey.symm
      rwa [List.append_nil] at hnow
    | cons e between =>
      cases hkey
      exact h before k between hrest

theorem Punctual.append_of_no_key {events more : List Event} (h : Punctual events)
    (hmore : ∀ k, .host (.key k) ∉ more) : Punctual (events ++ more) := by
  refine h.append fun before k after hsplit => absurd ?_ (hmore k)
  rw [hsplit]
  exact List.mem_append_right _ List.mem_cons_self

/-- When everything is shown, keys may be asked for until something is written. -/
theorem Punctual.append_of_shown {events more : List Event} (h : Punctual events)
    (hshown : events.flatMap Event.shown = events.flatMap Event.written)
    (hmore : ∀ e ∈ more, e.shown = [] ∧ e.written = []) : Punctual (events ++ more) := by
  refine h.append fun before k after hsplit => ?_
  have hbefore : ∀ e ∈ before, e.shown = [] ∧ e.written = [] := by
    intro e he
    apply hmore
    rw [hsplit]
    exact List.mem_append_left _ he
  rw [List.flatMap_append, List.flatMap_append, hshown,
    List.flatMap_eq_nil_iff.2 fun e he => (hbefore e he).1,
    List.flatMap_eq_nil_iff.2 fun e he => (hbefore e he).2]

/-- What was shown and what is held back make up what was written, and keys were asked for in time.
-/
structure Accounted (c : Channel Line) : Prop where
  total : produced c = c.journal.written
  punctual : Punctual c.journal.toList

theorem Accounted.after_of_no_key {α : Type} {c : Channel Line} (h : Accounted c)
    {reply : Reply Line α} {call : Except Fault α → Call}
    (htotal : produced (c.after reply call) =
      produced c ++ Event.written (.call (call reply.answer)))
    (hkeys : reply.traffic.filter Traffic.isKey = []) : Accounted (c.after reply call) := by
  refine ⟨by rw [htotal, written_after, h.total], ?_⟩
  rw [toList_journal_after]
  refine h.punctual.append_of_no_key fun k hk => ?_
  rcases List.mem_append.1 hk with hk | hk
  · obtain ⟨t, ht, hkey⟩ := List.mem_map.1 hk
    cases hkey
    exact absurd rfl (List.filter_eq_nil_iff.1 hkeys _ ht)
  · cases List.mem_singleton.1 hk

/-- A key is asked for behind a flush. -/
theorem Accounted.after_read {α : Type} {c : Channel Line} (h : Accounted c)
    {reply : Reply Line α} {call : Except Fault α → Call} {keys : List Traffic}
    (htotal : produced (c.after reply call) = produced c)
    (htraffic : reply.traffic = (Line.flush c.device).traffic ++ keys)
    (hkeys : ∀ t ∈ keys, t.isKey = true)
    (hcall : Event.written (.call (call reply.answer)) = []) : Accounted (c.after reply call) := by
  refine ⟨?_, ?_⟩
  · rw [htotal, h.total, written_after, hcall, List.append_nil]
  rw [toList_journal_after, htraffic, List.map_append, List.append_assoc, ← List.append_assoc]
  have hflushed : Punctual (c.journal.toList ++ (Line.flush c.device).traffic.map .host) := by
    refine h.punctual.append_of_no_key fun k hk => ?_
    obtain ⟨t, ht, hkey⟩ := List.mem_map.1 hk
    cases hkey
    exact absurd rfl (List.filter_eq_nil_iff.1 (Line.isKey_flush _) _ ht)
  refine hflushed.append_of_shown ?_ fun e he => ?_
  · have hshown : ((Line.flush c.device).traffic.map Event.host).flatMap Event.shown =
        c.device.buffer.toList := (List.flatMap_map ..).trans (Line.shown_flush _)
    have hwritten : ((Line.flush c.device).traffic.map Event.host).flatMap Event.written = [] := by
      rw [List.flatMap_map]
      exact List.flatMap_eq_nil_iff.2 fun _ _ => rfl
    rw [List.flatMap_append, List.flatMap_append, hshown, hwritten, List.append_nil]
    exact h.total
  · rcases List.mem_append.1 he with he | he
    · obtain ⟨t, ht, rfl⟩ := List.mem_map.1 he
      exact ⟨Line.shown_of_isKey (hkeys t ht), rfl⟩
    · rw [List.mem_singleton.1 he]
      exact ⟨rfl, hcall⟩

/-- Whether the host was asked for a key. -/
def Event.isKey : Event → Bool
  | .host t => t.isKey
  | _ => false

/-- An event that neither writes nor shows nor asks for a key. -/
structure Event.Idle (e : Event) : Prop where
  shown : e.shown = []
  written : e.written = []
  noKey : e.isKey = false

theorem Accounted.add {c d : Channel Line} {more : List Event} (h : Accounted c)
    (hdevice : d.device = c.device) (hjournal : d.journal.toList = c.journal.toList ++ more)
    (hmore : ∀ e ∈ more, e.Idle) : Accounted d := by
  refine ⟨?_, ?_⟩
  · have hshown : d.journal.shown = c.journal.shown := by
      unfold Journal.shown
      rw [hjournal, List.flatMap_append, List.flatMap_eq_nil_iff.2 fun e he => (hmore e he).shown,
        List.append_nil]
    have hwritten : d.journal.written = c.journal.written := by
      unfold Journal.written
      rw [hjournal, List.flatMap_append, List.flatMap_eq_nil_iff.2 fun e he => (hmore e he).written,
        List.append_nil]
    rw [hwritten, ← h.total]
    show d.journal.shown ++ d.device.buffer.toList = c.journal.shown ++ c.device.buffer.toList
    rw [hshown, hdevice]
  · rw [hjournal]
    exact h.punctual.append_of_no_key fun k hk => Bool.noConfusion (hmore _ hk).noKey

/-! ## Runs -/

theorem accounted_simulation :
    ChannelSimulation Accounted (fun _ _ => False : Channel Line → Channel Line → Prop) where
  read := ⟨fun c h => h.after_read (FlushBlind.output_read c) rfl (Line.isKey_nextKey _) rfl,
    fun _ _ => False.elim⟩
  poll := ⟨fun c h => h.after_read (FlushBlind.output_poll c) rfl (Line.isKey_nextKey _) rfl,
    fun _ _ => False.elim⟩
  write code := by
    refine ⟨fun c h => h.after_of_no_key ?_ (Line.write_quiet code c.device).2.2,
      fun _ _ => False.elim⟩
    have hanswer : (Console.write code c.device).answer = .ok () :=
      (Line.write_quiet code c.device).1
    have houtput := FlushBlind.output_write code c
    rwa [hanswer] at houtput
  flush := by
    refine ⟨fun c h => h.after_of_no_key ?_ (Line.isKey_flush c.device), fun _ _ => False.elim⟩
    exact (FlushBlind.output_flush c).trans (List.append_nil _).symm
  pauseLost c h := by
    refine h.add rfl Array.toList_push fun e he => ?_
    rw [List.mem_singleton.1 he]
    exact ⟨rfl, rfl, rfl⟩
  pause _ _ h := h.elim

/-- Where the console of a host fails everything has been shown. -/
theorem buffer_of_refused {f : Fault} {c d : Channel Line} {call : Call} (h : Refused c f d call) :
    d.device.buffer = #[] := by
  cases h with
  | read h =>
    obtain ⟨-, rfl⟩ := exchange_eq_error.1 h
    exact Line.buffer_flush _
  | poll h =>
    obtain ⟨-, rfl⟩ := exchange_eq_error.1 h
    exact Line.buffer_flush _
  | @write code h =>
    cases (Line.write_quiet code c.device).1.symm.trans (exchange_eq_error.1 h).1
  | flush h =>
    cases (FlushBlind.answer_flush c.device).symm.trans (exchange_eq_error.1 h).1

theorem buffer_of_step_fault {fuel : Nat} {s t : System Line} {f : Fault}
    (hrun : s.machine.state = .running) (h : step fuel s = .error (.fault f) t)
    (hf : f.isForeign = true) : t.channel.device.buffer = #[] := by
  cases (faultLeaves_of_step hrun h).origin with
  | fetch hpc hpoll => exact buffer_of_refused (.poll hpoll)
  | instruction fetched pc link cause =>
    cases cause with
    | console h =>
      obtain ⟨reached, refused⟩ := h
      exact buffer_of_refused refused
    | own h => cases h <;> cases hf

section Slices

variable {σ : Type} [Console σ] {fuel size n : Nat} {signalWaiting : Bool} {s t : System σ}
  {f : Fault}

theorem steps_fault (h : steps fuel n s = .error (.fault f) t) :
    ∃ u, u.machine.state = .running ∧ step fuel u = .error (.fault f) t := by
  induction n generalizing s with
  | zero => cases h
  | succ n ih =>
    cases hrun : s.machine.isRunning with
    | false =>
      rw [steps_guarded fuel (n + 1) s hrun] at h
      cases h
    | true =>
      have hsteps : (do step fuel; steps fuel n : MachineM σ Unit) s = .error (.fault f) t :=
        (guard_of_running _ hrun).symm.trans h
      rcases bind_eq_error.1 hsteps with hstep | ⟨_, u, -, hrest⟩
      · exact ⟨s, of_decide_eq_true hrun, hstep⟩
      · exact ih hrest

variable [FlushBlind σ]

theorem slice_fault (h : slice fuel size signalWaiting s = .error (.fault f) t) :
    ∃ u, u.machine.state = .running ∧ step fuel u = .error (.fault f) t := by
  rcases bind_eq_error.1 h with hsteps | ⟨_, u, -, hrest⟩
  · exact steps_fault hsteps
  rcases bind_eq_error.1 hrest with hflush | ⟨_, v, -, hpause⟩
  · obtain ⟨hfault, -⟩ := atChannel_eq_error.1 hflush
    cases (FlushBlind.answer_flush _).symm.trans (exchange_eq_error.1 hfault).1
  · cases signalWaiting with
    | true => cases hpause
    | false => cases hpause

theorem slices_fault (h : slicesFor fuel size signalWaiting n s = .error (.fault f) t) :
    ∃ u, u.machine.state = .running ∧ step fuel u = .error (.fault f) t := by
  obtain ⟨u, hslice⟩ := (slicesFor_loops fuel size signalWaiting).fault h
  exact slice_fault hslice

end Slices

/-! ## Sessions -/

namespace Session

variable {τ α β : Type}

/-- A computation has settled if it is complete or has failed: neither a signal nor a lack of fuel
cut it off. -/
inductive Settled : EStateM.Result Stop (Session Line τ) α → Prop where
  | ok (a : α) (s : Session Line τ) : Settled (.ok a s)
  | fault (f : Fault) (s : Session Line τ) : Settled (.error (.fault f) s)

instance (r : EStateM.Result Stop (Session Line τ) α) : Decidable (Settled r) :=
  match r with
  | .ok a s => .isTrue (.ok a s)
  | .error (.fault f) s => .isTrue (.fault f s)
  | .error .signal _ => .isFalse nofun
  | .error .outOfFuel _ => .isFalse nofun

/-- The account is kept and nothing is held back. -/
structure AllShown (s : Session Line τ) : Prop where
  accounted : Accounted s.channel
  empty : s.channel.device.buffer = #[]

/-- The account is kept, and nothing is held back when the computation has settled. -/
structure Prompt (r : EStateM.Result Stop (Session Line τ) α) : Prop where
  accounted : Accounted (leftBy r).channel
  settled : Settled r → (leftBy r).channel.device.buffer = #[]

/-- A computation that begins and ends with everything shown. -/
def Tidy (x : SessionM Line τ α) : Prop := ∀ s, AllShown s → Prompt (x s)

theorem AllShown.prompt {r : EStateM.Result Stop (Session Line τ) α} (h : AllShown (leftBy r)) :
    Prompt r := ⟨h.accounted, fun _ => h.empty⟩

theorem Prompt.allShown {r : EStateM.Result Stop (Session Line τ) α} (h : Prompt r)
    (hr : Settled r) : AllShown (leftBy r) := ⟨h.accounted, h.settled hr⟩

theorem Tidy.pure (a : α) : Tidy (pure a : SessionM Line τ α) := fun _ hs => AllShown.prompt hs

theorem Tidy.throw (f : Fault) : Tidy (throw (.fault f) : SessionM Line τ α) :=
  fun _ hs => AllShown.prompt hs

theorem Tidy.bind {x : SessionM Line τ α} {f : α → SessionM Line τ β} (hx : Tidy x)
    (hf : ∀ a, Tidy (f a)) : Tidy (x >>= f) := by
  intro s hs
  have hprompt := hx s hs
  rcases h : x s with ⟨a, u⟩ | ⟨e, u⟩ <;> rw [h] at hprompt
  · rw [bind_of_ok h]
    exact hf a u (hprompt.allShown (.ok a u))
  · rw [bind_of_error h]
    refine ⟨hprompt.accounted, fun hsettled => ?_⟩
    cases hsettled with
    | fault f => exact hprompt.settled (.fault f u)

theorem Tidy.catchFault {x : SessionM Line τ α} {f : Fault → SessionM Line τ α} (hx : Tidy x)
    (hf : ∀ e, Tidy (f e)) : Tidy (Stop.catchFault x f) := by
  intro s hs
  have hprompt := hx s hs
  rcases h : x s with ⟨a, u⟩ | ⟨e | _ | _, u⟩ <;> rw [h] at hprompt
  · rw [Stop.catchFault_of_ok f h]
    exact hprompt
  · rw [Stop.catchFault_of_fault f h]
    exact hf e u (hprompt.allShown (.fault e u))
  · rw [Stop.catchFault_of_signal f h]
    exact hprompt
  · rw [Stop.catchFault_of_outOfFuel f h]
    exact hprompt

theorem tidy_note (event : Event) (h : event.Idle) :
    Tidy (note event : SessionM Line τ Unit) := by
  intro s hs
  obtain ⟨u, hu, hnoted⟩ := note_eq event s
  rw [hu]
  refine AllShown.prompt ⟨hs.accounted.add hnoted.device hnoted.journal fun e he => ?_, ?_⟩
  · rw [List.mem_singleton.1 he]
    exact h
  · exact (congrArg Line.buffer hnoted.device).trans hs.empty

theorem tidy_gather (files : FileReader) (paths : List String) :
    Tidy (gather files paths : SessionM Line τ (Except Fault (List Image))) := by
  induction paths generalizing files with
  | nil => exact Tidy.pure _
  | cons path paths ih =>
    unfold gather
    refine (tidy_note (.opened path) ⟨rfl, rfl, rfl⟩).bind fun _ => ?_
    split
    · exact Tidy.pure _
    · refine (ih (files.behind [path])).bind fun result => ?_
      split
      · exact Tidy.pure _
      · exact Tidy.pure _

theorem tidy_prepare (job : Job) :
    Tidy (prepare job : SessionM Line τ (Except ExitCode Machine)) := by
  unfold prepare
  split
  · exact (tidy_note (.log usage) ⟨rfl, rfl, rfl⟩).bind fun _ => Tidy.pure _
  · refine (tidy_gather job.files job.paths).bind fun result => ?_
    split
    · split
      · exact Tidy.throw _
      · exact (tidy_note (.error _) ⟨rfl, rfl, rfl⟩).bind fun _ => Tidy.pure _
    · exact Tidy.pure _

/-- A foreign fault is passed on with everything shown, for a host has failed, and any other fault
is reported behind a flush. -/
theorem tidy_execute (job : Job) (machine : Machine) :
    Tidy (execute job machine : SessionM Line τ ExitCode) := by
  intro s hs
  have haccounted : Accounted (leftBy (runOf job ⟨machine, s.channel⟩)).channel :=
    accounted_simulation.simulation.lost_slicesFor job.fuel sliceSize job.signalWaiting job.fuel
      ⟨machine, s.channel⟩ hs.accounted
  rcases hrun : runOf job ⟨machine, s.channel⟩ with ⟨_, t⟩ | ⟨f | _ | _, t⟩ <;>
    rw [hrun] at haccounted
  · rw [execute_of_ok hrun]
    have hheld : FlushBlind.held t.channel.device = [] :=
      slices_held (congrArg Array.toList hs.empty) hrun
    exact AllShown.prompt ⟨haccounted, Array.toList_eq_nil_iff.1 hheld⟩
  · rw [execute_of_fault hrun]
    cases hf : f.isForeign with
    | true =>
      rw [settle_of_foreign hf]
      obtain ⟨u, hu, hstep⟩ := slices_fault hrun
      exact AllShown.prompt ⟨haccounted, buffer_of_step_fault hu hstep hf⟩
    | false =>
      obtain ⟨w, hsettle, hw⟩ := settle_of_vm (s := ⟨t.channel, s.terminal⟩) hf
        (FlushBlind.answer_flush _)
      rw [hsettle]
      have hflushed : Accounted (flushed ⟨t.channel, s.terminal⟩).channel :=
        accounted_simulation.flush.lost _ haccounted
      refine AllShown.prompt ⟨hflushed.add hw.device hw.journal fun e he => ?_, ?_⟩
      · rw [List.mem_singleton.1 he]
        exact ⟨rfl, rfl, rfl⟩
      · exact (congrArg Line.buffer hw.device).trans (Line.buffer_flush _)
  · rw [execute_of_signal hrun]
    exact ⟨haccounted, nofun⟩
  · rw [execute_of_outOfFuel hrun]
    exact ⟨haccounted, nofun⟩

/-! ## Terminals -/

/-- Switching modes is all that a terminal does: it takes no keys and shows nothing. -/
structure Mute (τ : Type) [ModeControl τ] : Prop where
  enter (d : τ) : ∀ t ∈ (ModeControl.enter d).traffic, (Event.host t).Idle
  leave (d : τ) : ∀ t ∈ (ModeControl.leave d).traffic, (Event.host t).Idle

theorem tidy_request {mode : ModeRequest} {operation : τ → Reply τ Unit}
    (h : ∀ d, ∀ t ∈ (operation d).traffic, (Event.host t).Idle) :
    Tidy (request mode operation : SessionM Line τ Unit) := by
  rintro s hs
  have hmore : ∀ e ∈ requestEvents mode (operation s.terminal), e.Idle := by
    intro e he
    rcases List.mem_cons.1 he with rfl | he
    · exact ⟨rfl, rfl, rfl⟩
    · obtain ⟨t, ht, rfl⟩ := List.mem_map.1 he
      exact h s.terminal t ht
  have hleft : (leftBy (request mode operation s)).channel =
      (s.requested mode (operation s.terminal)).channel := by
    unfold request requested
    rcases hanswer : (operation s.terminal).answer with f | _
    · simp only [hanswer]
      rfl
    · simp only [hanswer]
      rfl
  refine AllShown.prompt ⟨?_, ?_⟩
  · rw [hleft]
    exact hs.accounted.add rfl (toList_journal_requested ..) hmore
  · rw [hleft]
    exact hs.empty

variable [ModeControl τ]

theorem tidy_inRawMode (hmute : Mute τ) {compute : SessionM Line τ α} (h : Tidy compute) :
    Tidy (inRawMode compute) := by
  have hleave : Tidy (leaveRaw : SessionM Line τ Unit) := tidy_request hmute.leave
  refine Tidy.bind (tidy_request hmute.enter) fun _ => Tidy.bind ?_ fun _ => ?_
  · exact h.catchFault fun f => hleave.bind fun _ => Tidy.throw f
  · exact hleave.bind fun _ => Tidy.pure _

theorem tidy_launch (hmute : Mute τ) (job : Job) :
    Tidy (launch job : SessionM Line τ ExitCode) := by
  refine (tidy_prepare job).bind fun result => ?_
  split
  · exact Tidy.pure _
  · exact tidy_inRawMode hmute (tidy_execute job _)

theorem mute_tty : Mute Tty := by
  have hset : ∀ (on : Bool) (input : Stdin), ∀ t ∈ (input.setRaw on).traffic,
      (Event.host t).Idle := by
    intro on input t ht
    have htraffic : (input.setRaw on).traffic = [.rawMode on] := by
      unfold Stdin.setRaw
      split <;> rfl
    rw [htraffic] at ht
    rw [List.mem_singleton.1 ht]
    exact ⟨rfl, rfl, rfl⟩
  refine ⟨fun d t ht => ?_, fun d t ht => ?_⟩
  · change t ∈ (Tty.enter d).traffic at ht
    unfold Tty.enter at ht
    split at ht
    · exact hset _ _ t ht
    · cases ht
  · change t ∈ (Tty.leave d).traffic at ht
    unfold Tty.leave at ht
    split at ht
    next mode hsaved =>
      split at ht
      · dsimp only at ht
        split at ht
        · exact hset _ _ t ht
        · exact hset _ _ t ht
      · cases ht
    · cases ht

/-- Whatever the images, the keys and the terminal, a session on a line console asks for a key only
when the host has been given all bytes that were written so far. Once the session has settled, with
an exit code or with a fault, the host has been given all bytes that were ever written, and nothing
is held back. -/
theorem launch_shows_what_is_written (hmute : Mute τ) (job : Job) (keys : List Keystroke)
    (terminal : τ) {r : EStateM.Result Stop (Session Line τ) ExitCode}
    (hr : launch job ⟨{ device := { keys } }, terminal⟩ = r) :
    (∀ before k after, (leftBy r).channel.journal.toList = before ++ .host (.key k) :: after →
      before.flatMap Event.shown = before.flatMap Event.written) ∧
    (Settled r →
      (leftBy r).channel.journal.shown = (leftBy r).channel.journal.written ∧
        (leftBy r).channel.device.buffer = #[]) := by
  have hstart : AllShown (⟨{ device := { keys } }, terminal⟩ : Session Line τ) := by
    refine ⟨⟨rfl, fun before k after h => ?_⟩, rfl⟩
    cases List.append_eq_nil_iff.1 h.symm |>.2
  have hprompt := tidy_launch hmute job _ hstart
  rw [hr] at hprompt
  refine ⟨hprompt.accounted.punctual, fun hsettled => ⟨?_, hprompt.settled hsettled⟩⟩
  have hheld : (leftBy r).channel.device.buffer.toList = [] :=
    congrArg Array.toList (hprompt.settled hsettled)
  have htotal : (leftBy r).channel.journal.shown ++ (leftBy r).channel.device.buffer.toList =
      (leftBy r).channel.journal.written := hprompt.accounted.total
  rwa [hheld, List.append_nil] at htotal

/-- A file with a program that writes a character without ending the line, and then reads one. -/
def unendedLineFile : FileReader := fun _ _ => .ok [0x00, 0x00, 0xf0, 0x21, 0xf0, 0x20]

theorem launch_shows_what_is_written_unendedLine :
    ∃ r : EStateM.Result Stop (Session Line Tty) ExitCode,
      launch { paths := ["line"], files := unendedLineFile, fuel := 3 }
          ⟨{ device := { keys := [.broken (.foreign "gone")] } }, { stdin := { isTTY := true } }⟩ =
        r ∧
      Settled r ∧ (leftBy r).channel.journal.shown = (leftBy r).channel.journal.written ∧
      (leftBy r).channel.journal.written = [0] := by
  refine ⟨_, rfl, ?_⟩
  obtain ⟨-, hsettled⟩ := launch_shows_what_is_written mute_tty
    { paths := ["line"], files := unendedLineFile, fuel := 3 } [.broken (.foreign "gone")]
    { stdin := { isTTY := true } } rfl
  have h : Settled (launch { paths := ["line"], files := unendedLineFile, fuel := 3 }
      (⟨{ device := { keys := [.broken (.foreign "gone")] } }, { stdin := { isTTY := true } }⟩ :
        Session Line Tty)) := by decide +kernel
  exact ⟨h, (hsettled h).1, by decide +kernel⟩

end Session

end LC3
