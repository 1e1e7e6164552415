import LC3.Proofs.FlushBlind
import LC3.Proofs.Strings

/-!
# One console for the other

A program that is tried on a queue does the same on a host's terminal, as long as the keys are ones
that a terminal hands on as they are, and up to the point where a poll finds the queue empty. There
the queue says that no key waits, and a terminal says that input has ended.
-/

namespace LC3

open MachineM

/-! ## The two consoles -/

/-- A byte that neither asks for the run to end nor ends a line. -/
def Plain (key : Char) : Prop := key.toNat ≤ 0xff ∧ key.toNat ≠ 0x03 ∧ key.toNat ≠ 0x0d

instance : DecidablePred Plain := fun _ => inferInstanceAs (Decidable (_ ∧ _ ∧ _))

/-- A machine on a queue that was filled with the keys. -/
def onQueue (m : Machine) (keys : List Char) : System Queue :=
  ⟨m, { device := .ofInput (String.ofList keys) }⟩

/-- A machine on the terminal of a host that hands over the keys, one at a time. -/
def onLine (m : Machine) (keys : List Char) : System Line :=
  ⟨m, { device := { keys := keys.map fun key => .text (String.singleton key) } }⟩

/-- The same keys are left. -/
def SameInput (keys : List Char) (q : Queue) (line : Line) : Prop :=
  ∃ left, left <:+ keys ∧ q.waiting = left.map (fun key => UInt8.ofNat key.toNat) ∧
    line.keys = left.map fun key => .text (String.singleton key)

/-- The same keys are left, and the same bytes were produced. -/
structure SameConsole (keys : List Char) (c : Channel Queue) (d : Channel Line) : Prop where
  input : SameInput keys c.device d.device
  produced : produced c = produced d

/-- Whether an event is a poll that found no key. -/
def Event.isVainPoll : Event → Bool
  | .call (.poll (.ok none)) => true
  | _ => false

/-- The queue was polled when it was empty. -/
def PolledInVain (c : Channel Queue) : Prop := ∃ e ∈ c.journal.toList, e.isVainPoll = true

instance (c : Channel Queue) : Decidable (PolledInVain c) :=
  inferInstanceAs (Decidable (∃ e ∈ c.journal.toList, e.isVainPoll = true))

/-! ## Keys -/

section Keys

variable {keys : List Char} {q : Queue} {line : Line} {key : Char}

theorem codes_of_plain (hkeys : ∀ key ∈ keys, Plain key) :
    Queue.codes (String.ofList keys) = keys.map fun key => UInt8.ofNat key.toNat := by
  unfold Queue.codes Text.units
  rw [String.toList_ofList]
  induction keys with
  | nil => rfl
  | cons key rest ih =>
    have hunits : Text.unitsOfChar key = [key.toNat] := by
      have hbyte := (hkeys key List.mem_cons_self).1
      exact if_pos (by omega)
    rw [List.flatMap_cons, List.map_append, hunits, List.map_cons,
      ih fun k hk => hkeys k (List.mem_cons_of_mem _ hk)]
    rfl

theorem nextKey_plain (h : Plain key) (rest : List Keystroke) :
    Line.nextKey (.text (String.singleton key) :: rest) =
      (.ok key.toNat, rest, [.key (.text (String.singleton key))]) := by
  obtain ⟨hbyte, hinterrupt, hreturn⟩ := h
  have hmeaning : Line.meaning key.toNat = .ok key.toNat :=
    (if_neg hinterrupt).trans (if_neg hreturn)
  unfold Line.nextKey
  simp only [String.toList_singleton]
  rw [if_neg (by omega), hmeaning]

theorem sameInput_read (hkeys : ∀ key ∈ keys, Plain key) (h : SameInput keys q line) :
    (Queue.read q).answer = (Line.read line).answer ∧
      SameInput keys (Queue.read q).device (Line.read line).device := by
  obtain ⟨left, hleft, hwaiting, hline⟩ := h
  obtain ⟨waiting, flushed, pending⟩ := q
  obtain rfl : waiting = _ := hwaiting
  have hanswer : (Line.read line).answer = (Line.nextKey line.keys).1 := rfl
  have hrest : (Line.read line).device.keys = (Line.nextKey line.keys).2.1 := rfl
  cases left with
  | nil =>
    rw [hline] at hanswer hrest
    exact ⟨hanswer.symm, [], hleft, rfl, hrest⟩
  | cons key left =>
    have hplain : Plain key := hkeys key (hleft.subset List.mem_cons_self)
    rw [hline, List.map_cons, nextKey_plain hplain] at hanswer hrest
    refine ⟨?_, left, (List.suffix_cons key left).trans hleft, rfl, hrest⟩
    have hbyte : key.toNat < UInt8.size := Nat.lt_succ_of_le hplain.1
    have hcode : (UInt8.ofNat key.toNat).toNat = key.toNat := UInt8.toNat_ofNat_of_lt hbyte
    rw [hanswer]
    exact congrArg (fun n : Nat => Except.ok (n : Int)) hcode

theorem sameInput_poll (hkeys : ∀ key ∈ keys, Plain key) (h : SameInput keys q line) :
    (Queue.poll q).answer = .ok none ∨
      (Queue.poll q).answer = (Line.poll line).answer ∧
        SameInput keys (Queue.poll q).device (Line.poll line).device := by
  obtain ⟨hanswer, hinput⟩ := sameInput_read hkeys h
  obtain ⟨waiting, flushed, pending⟩ := q
  cases waiting with
  | nil => exact .inl rfl
  | cons code rest => exact .inr ⟨congrArg (Except.map some) hanswer, hinput⟩

end Keys

/-! ## The simulation -/

theorem PolledInVain.after {α : Type} {c : Channel Queue} (h : PolledInVain c)
    (reply : Reply Queue α) (call : Except Fault α → Call) : PolledInVain (c.after reply call) := by
  obtain ⟨e, he, hvain⟩ := h
  exact ⟨e, mem_journal_after he reply call, hvain⟩

theorem polledInVain_of_answer {c : Channel Queue} {reply : Reply Queue (Option Int)}
    (h : reply.answer = .ok none) : PolledInVain (c.after reply .poll) := by
  refine ⟨.call (.poll reply.answer), ?_, by rw [h]; rfl⟩
  rw [toList_journal_after]
  exact List.mem_append_right _ (List.mem_append_right _ (List.mem_singleton_self _))

theorem interchange_simulation {keys : List Char} (hkeys : ∀ key ∈ keys, Plain key) :
    ChannelSimulation PolledInVain (SameConsole keys) where
  read := by
    refine ⟨fun c h => h.after _ _, fun c d h => .inr ?_⟩
    obtain ⟨hanswer, hinput⟩ := sameInput_read hkeys h.input
    refine ⟨hanswer, hinput, ?_⟩
    exact (FlushBlind.output_read c).trans (h.produced.trans (FlushBlind.output_read d).symm)
  poll := by
    refine ⟨fun c h => h.after _ _, fun c d h => ?_⟩
    rcases sameInput_poll hkeys h.input with hvain | ⟨hanswer, hinput⟩
    · exact .inl (polledInVain_of_answer hvain)
    · refine .inr ⟨hanswer, hinput, ?_⟩
      exact (FlushBlind.output_poll c).trans (h.produced.trans (FlushBlind.output_poll d).symm)
  write code := by
    refine ⟨fun c h => h.after _ _, fun c d h => .inr ?_⟩
    obtain ⟨hanswer, hkeysLeft, -⟩ := Line.write_quiet code d.device
    have hline : (Console.write code d.device).answer = .ok () := hanswer
    obtain ⟨left, hleft, hwaiting, hkeysBefore⟩ := h.input
    refine ⟨hanswer.symm, ⟨left, hleft, hwaiting, hkeysLeft.trans hkeysBefore⟩, ?_⟩
    have hqueue := FlushBlind.output_write code c
    have houtput := FlushBlind.output_write code d
    rw [hline] at houtput
    exact hqueue.trans ((congrArg (· ++ _) h.produced).trans houtput.symm)
  flush := by
    refine ⟨fun c h => h.after _ _, fun c d h => .inr ⟨?_, ?_, ?_⟩⟩
    · exact (FlushBlind.answer_flush d.device).symm
    · obtain ⟨left, hleft, hwaiting, hkeysBefore⟩ := h.input
      exact ⟨left, hleft, hwaiting, (Line.keys_flush d.device).trans hkeysBefore⟩
    · exact (produced_flush c).trans (h.produced.trans (produced_flush d).symm)
  pauseLost c h := by
    obtain ⟨e, he, hvain⟩ := h
    exact ⟨e, by rw [Array.toList_push]; exact List.mem_append_left _ he, hvain⟩
  pause c d h :=
    ⟨h.input, (congrArg (· ++ _) (FlushBlind.pushed_pause c.device c.journal)).trans
      (h.produced.trans (congrArg (· ++ _) (FlushBlind.pushed_pause d.device d.journal)).symm)⟩

/-! ## Runs -/

theorem sameConsole_start {keys : List Char} (m : Machine) (hkeys : ∀ key ∈ keys, Plain key) :
    OnSameMachine (SameConsole keys) (onQueue m keys) (onLine m keys) :=
  ⟨rfl, ⟨keys, List.suffix_refl keys, codes_of_plain hkeys, rfl⟩, rfl⟩

theorem queue_steps_lasting {keys : List Char} (m : Machine) (hkeys : ∀ key ∈ keys, Plain key)
    {fuel : Nat} (hfuel : (keys.length + 1) * 65536 ≤ fuel) (n : Nat) :
    ¬OutOfFuel (steps fuel n (onQueue m keys)) := by
  have hlength : (Queue.codes (String.ofList keys)).length = keys.length := by
    rw [codes_of_plain hkeys, List.length_map]
  exact steps_lasting queue_rations (queue_bounded keys.length) hfuel n (Nat.le_of_eq hlength)

/-- Steps that come to the same leave a run with the same need for more of them. -/
theorem runFor_outOfFuel_congr {σ τ : Type} [Console σ] [Console τ]
    {R : Channel σ → Channel τ → Prop} {fuel n : Nat} {s : System σ} {t : System τ}
    (h : Alike (OnSameMachine R) (steps fuel n s) (steps fuel n t)) :
    OutOfFuel (runFor fuel n s) ↔ OutOfFuel (runFor fuel n t) := by
  rw [runFor_outOfFuel_iff, runFor_outOfFuel_iff, h.outOfFuel_iff]
  refine or_congr_right ?_
  generalize steps fuel n s = r at h
  generalize steps fuel n t = r' at h
  cases h with
  | ok a hst =>
    obtain ⟨hmachine, -⟩ := hst
    constructor
    · rintro ⟨_, ⟨⟩, hrun⟩
      exact ⟨_, rfl, by rwa [← hmachine]⟩
    · rintro ⟨_, ⟨⟩, hrun⟩
      exact ⟨_, rfl, by rwa [hmachine]⟩
  | error e hst =>
    constructor
    · rintro ⟨_, ⟨⟩, -⟩
    · rintro ⟨_, ⟨⟩, -⟩

theorem ends_on_queue {keys : List Char} {m : Machine} (hkeys : ∀ key ∈ keys, Plain key)
    (hkept : ∀ n r, EndsIn (steps · n) (onQueue m keys) r → ¬PolledInVain (leftBy r).channel)
    (h : Ends run (onLine m keys)) : Ends run (onQueue m keys) := by
  obtain ⟨_, ⟨n, rfl⟩, hline⟩ := h
  -- The fuel has to last on both sides: for the run on the terminal, which is known to end, and for
  -- as many steps on the queue.
  let fuel := max n ((keys.length + 1) * 65536)
  have hlasting : ¬OutOfFuel (steps fuel n (onQueue m keys)) :=
    queue_steps_lasting m hkeys (Nat.le_max_right ..) n
  have hmore : runFor fuel n (onLine m keys) = run n (onLine m keys) :=
    runFor_of_lasting (Nat.le_max_left ..) (Nat.le_refl n) hline
  have hagree := (interchange_simulation hkeys).simulation.steps (Nat.le_refl fuel) n
  rcases hagree.alike _ _ (sameConsole_start m hkeys) with hvain | hout | halike
  · exact absurd hvain (hkept n _ (endsIn_of_lasting hlasting))
  · exact absurd hout hlasting
  · have hrun : ¬OutOfFuel (runFor fuel n (onQueue m keys)) := by
      rw [runFor_outOfFuel_congr halike, hmore]
      exact hline
    exact ends_of_runFor hrun

/-- On a queue any number of steps come to an end. What they come to, and what a run comes to, is
the same on the terminal of a host that hands over the same keys, as long as no poll found the queue
empty: the same machine, the same stop, the same keys left, and the same bytes produced. A run in
which that never happens ends on both consoles or on neither. -/
theorem line_runs_as_queue (m : Machine) {keys : List Char} (hkeys : ∀ key ∈ keys, Plain key) :
    (∀ n, Ends (steps · n) (onQueue m keys)) ∧
      (∀ n r, EndsIn (steps · n) (onQueue m keys) r → ¬PolledInVain (leftBy r).channel →
        ∃ r', EndsIn (steps · n) (onLine m keys) r' ∧
          Alike (OnSameMachine (SameConsole keys)) r r') ∧
      (∀ r, EndsIn run (onQueue m keys) r → ¬PolledInVain (leftBy r).channel →
        ∃ r', EndsIn run (onLine m keys) r' ∧ Alike (OnSameMachine (SameConsole keys)) r r') ∧
      ((∀ n r, EndsIn (steps · n) (onQueue m keys) r → ¬PolledInVain (leftBy r).channel) →
        (Ends run (onLine m keys) ↔ Ends run (onQueue m keys))) := by
  have hsim := (interchange_simulation hkeys).simulation
  have hstart := sameConsole_start m hkeys
  have hruns : ∀ r, EndsIn run (onQueue m keys) r → ¬PolledInVain (leftBy r).channel →
      ∃ r', EndsIn run (onLine m keys) r' ∧ Alike (OnSameMachine (SameConsole keys)) r r' :=
    fun r hr hnot =>
      hr.agree_of_not_lost (fun fuel => ⟨fuel, hsim.run (Nat.le_refl fuel)⟩) hstart hnot
  refine ⟨fun n => ?_, fun n r hr hnot => ?_, hruns, fun hkept => ⟨ends_on_queue hkeys hkept, ?_⟩⟩
  · exact ⟨_, endsIn_of_lasting (queue_steps_lasting m hkeys (Nat.le_refl _) n)⟩
  · exact hr.agree_of_not_lost (fun fuel => ⟨fuel, hsim.steps (Nat.le_refl fuel) n⟩) hstart hnot
  · rintro ⟨_, ⟨fuel, rfl⟩, hlast⟩
    have hsteps : run fuel (onQueue m keys) = steps fuel fuel (onQueue m keys) :=
      runFor_eq_steps hlast
    have hends : EndsIn (steps · fuel) (onQueue m keys) (run fuel (onQueue m keys)) :=
      ⟨⟨fuel, hsteps.symm⟩, hlast⟩
    obtain ⟨r', hr', -⟩ := hruns _ (endsIn_of_lasting hlast) (hkept fuel _ hends)
    exact ⟨r', hr'⟩

/-- Shows the keys that are read, until there are no more. -/
def echoAll : Machine := (Machine.fresh 0).place 0 [0xf020, 0xf021, 0x0ffd]

theorem line_runs_as_queue_echoAll :
    ∃ r r', EndsIn run (onQueue echoAll ['h', 'i']) r ∧ EndsIn run (onLine echoAll ['h', 'i']) r' ∧
      Alike (OnSameMachine (SameConsole ['h', 'i'])) r r' := by
  have hkeys : ∀ key ∈ ['h', 'i'], Plain key :=
    List.forall_mem_cons.2 ⟨by decide, List.forall_mem_singleton.2 (by decide)⟩
  have hlast : ¬OutOfFuel (run 8 (onQueue echoAll ['h', 'i'])) := by decide +kernel
  have hnot : ¬PolledInVain (leftBy (run 8 (onQueue echoAll ['h', 'i']))).channel := by
    decide +kernel
  obtain ⟨-, -, hruns, -⟩ := line_runs_as_queue echoAll hkeys
  obtain ⟨r', hr', halike⟩ := hruns _ (endsIn_of_lasting hlast) hnot
  exact ⟨_, r', endsIn_of_lasting hlast, hr', halike⟩

end LC3
