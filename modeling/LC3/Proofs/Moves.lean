import LC3.Proofs.Calls
import LC3.Proofs.Slices

/-!
# Moves of a run

The journal does not tell where one instruction ends and the next one begins. What steps execute is
collected here beside them, instruction by instruction with the calls that each makes, and what
slices do is collected as moves: instructions, flushes between slices, and yields. Both collections
account for all that is noted of calls and yields, on any console.
-/

namespace LC3

open MachineM

variable {σ : Type}

/-! ## Calls and yields -/

/-- Whether an event is a call on the console, or gives control back. -/
def Event.isAct : Event → Bool
  | .call _ | .pause => true
  | _ => false

/-- The calls on the console and the yields, in order. -/
def Journal.acts (j : Journal) : List Event := j.toList.filter Event.isAct

theorem acts_after {α : Type} (c : Channel σ) (reply : Reply σ α) (call : Except Fault α → Call) :
    (c.after reply call).journal.acts = c.journal.acts ++ [.call (call reply.answer)] := by
  have htraffic : (reply.traffic.map Event.host).filter Event.isAct = [] :=
    List.filter_eq_nil_iff.2 fun e he => by
      obtain ⟨t, -, rfl⟩ := List.mem_map.1 he
      exact Bool.false_ne_true
  unfold Journal.acts
  rw [toList_journal_after, List.filter_append, List.filter_append, htraffic]
  rfl

theorem acts_pause (j : Journal) : Journal.acts (j.push .pause) = j.acts ++ [.pause] := by
  unfold Journal.acts
  rw [Array.toList_push, List.filter_append]
  rfl

/-- Where no yield is noted, calls are all that is. -/
theorem filter_isAct {events : List Event} (h : ∀ e ∈ events, e ≠ .pause) :
    events.filter Event.isAct = (events.filterMap Event.call?).map .call := by
  induction events with
  | nil => rfl
  | cons e events ih =>
    have hrest := ih fun e' he' => h e' (List.mem_cons_of_mem _ he')
    cases e with
    | call c => exact congrArg (Event.call c :: ·) hrest
    | pause => exact absurd rfl (h .pause List.mem_cons_self)
    | _ => exact hrest

/-! ## What is executed -/

section Executed

variable {α β : Type}

/-- The calls that `x` makes from `s` on. -/
def madeBy (x : MachineM σ α) (s : System σ) : List Call :=
  (leftBy (x s)).channel.journal.calls.drop s.channel.journal.calls.length

theorem Makes.madeBy_eq {x : MachineM σ α} {s : System σ} {made : List Call} (h : Makes x s made) :
    madeBy x s = made := by
  unfold madeBy
  rw [h, List.drop_left]

/-- What comes behind a computation that came to `r`: nothing if it was not complete. -/
def afterwards (r : EStateM.Result Stop (System σ) α) (next : System σ → List β) : List β :=
  match r with
  | .ok _ t => next t
  | .error _ _ => []

theorem afterwards_ok (a : α) (t : System σ) (next : System σ → List β) :
    afterwards (.ok a t) next = next t := rfl

theorem afterwards_error (e : Stop) (t : System σ) (next : System σ → List β) :
    afterwards (.error e t : EStateM.Result Stop (System σ) α) next = [] := rfl

end Executed

variable [Console σ]

/-- The instructions that up to `n` steps execute, each as the calls that it makes. -/
def executed (fuel : Nat) : Nat → System σ → List (List Call)
  | 0, _ => []
  | n + 1, s =>
    if s.machine.isRunning then
      madeBy (step fuel) s :: afterwards (step fuel s) (executed fuel n)
    else []

/-- A step of a run in slices, seen from outside. -/
inductive Move where
  /-- An instruction was executed, and made these calls. -/
  | instruction (calls : List Call)
  /-- The console was flushed between two slices. -/
  | flush
  /-- Control was given back. -/
  | yield

/-- The moves of up to `n` slices. -/
def sliced (fuel size : Nat) : Nat → System σ → List Move
  | 0, _ => []
  | n + 1, s =>
    if s.machine.isRunning then
      (executed fuel size s).map .instruction ++
        afterwards (steps fuel size s) fun t =>
          .flush :: afterwards (atChannel Channel.flush t) fun u =>
            .yield :: afterwards (pause false u) (sliced fuel size n)
    else []

variable {fuel k n : Nat} {s t : System σ}

theorem executed_of_halted (h : s.machine.isRunning = false) (n : Nat) :
    executed fuel n s = [] := by
  cases n with
  | zero => rfl
  | succ n => exact if_neg (Bool.eq_false_iff.1 h)

theorem sliced_of_halted (h : s.machine.isRunning = false) (n : Nat) : sliced fuel k n s = [] := by
  cases n with
  | zero => rfl
  | succ n => exact if_neg (Bool.eq_false_iff.1 h)

theorem executed_of_running (h : s.machine.isRunning = true) (n : Nat) :
    executed fuel (n + 1) s = madeBy (step fuel) s :: afterwards (step fuel s) (executed fuel n) :=
  if_pos h

/-- More steps execute what comes behind the first ones. -/
theorem executed_add (n n' : Nat) (s : System σ) :
    executed fuel (n + n') s =
      executed fuel n s ++ afterwards (steps fuel n s) (executed fuel n') := by
  induction n generalizing s with
  | zero => rw [Nat.zero_add]; rfl
  | succ n ih =>
    rw [Nat.succ_add]
    cases hs : s.machine.isRunning with
    | false =>
      rw [executed_of_halted hs, executed_of_halted hs, steps_guarded fuel (n + 1) s hs]
      exact (executed_of_halted hs n').symm
    | true =>
      rw [executed_of_running hs, executed_of_running hs, steps_of_running hs, List.cons_append]
      congr 1
      rcases hstep : step fuel s with ⟨_, t⟩ | ⟨e, t⟩
      · rw [bind_of_ok hstep]
        exact ih t
      · rw [bind_of_error hstep]
        rfl

theorem length_executed_le (n : Nat) (s : System σ) : (executed fuel n s).length ≤ n := by
  induction n generalizing s with
  | zero => exact Nat.le_refl 0
  | succ n ih =>
    cases hs : s.machine.isRunning with
    | false =>
      rw [executed_of_halted hs]
      exact Nat.zero_le _
    | true =>
      rw [executed_of_running hs]
      rcases hstep : step fuel s with ⟨_, t⟩ | ⟨e, t⟩
      · exact Nat.succ_le_succ (ih t)
      · exact Nat.succ_le_succ (Nat.zero_le n)

theorem executed_ne_nil (hs : s.machine.isRunning = true) (hn : 1 ≤ n) :
    executed fuel n s ≠ [] := by
  obtain ⟨n, rfl⟩ : ∃ j, n = j + 1 := ⟨n - 1, by omega⟩
  rw [executed_of_running hs]
  exact List.cons_ne_nil _ _

/-- As long as the machine runs each step executes an instruction. -/
theorem length_executed (h : steps fuel n s = .ok () t) (ht : t.machine.isRunning = true) :
    (executed fuel n s).length = n := by
  induction n generalizing s with
  | zero => rfl
  | succ n ih =>
    cases hs : s.machine.isRunning with
    | false =>
      rw [steps_guarded fuel (n + 1) s hs] at h
      cases h
      cases hs.symm.trans ht
    | true =>
      rw [steps_of_running hs fuel n] at h
      obtain ⟨_, u, hstep, hrest⟩ := bind_eq_ok.1 h
      rw [executed_of_running hs, hstep]
      exact congrArg Nat.succ (ih hrest)

/-! ## What is noted -/

/-- The events that a move leaves in the journal. -/
def Move.acts : Move → List Event
  | .instruction calls => calls.map .call
  | .flush => [.call .flush]
  | .yield => [.pause]

/-- A step does not give control back. -/
theorem step_notes (fuel : Nat) (s : System σ) :
    Notes s.channel.journal.toList (· ≠ .pause) (leftBy (step fuel s)).channel := by
  have hsim : ConsoleSimulation (Notes s.channel.journal.toList (· ≠ .pause))
      (fun _ _ => False : Channel σ → Channel σ → Prop) :=
    ⟨⟨fun _ h => h.after nofun fun _ _ => nofun, fun _ _ => False.elim⟩,
      ⟨fun _ h => h.after nofun fun _ _ => nofun, fun _ _ => False.elim⟩,
      fun _ => ⟨fun _ h => h.after nofun fun _ _ => nofun, fun _ _ => False.elim⟩,
      ⟨fun _ h => h.after nofun fun _ _ => nofun, fun _ _ => False.elim⟩⟩
  exact (hsim.stepSimulation.step (Nat.le_refl fuel)).lost s ⟨[], (List.append_nil _).symm, nofun⟩

theorem step_acts (fuel : Nat) (s : System σ) :
    (leftBy (step fuel s)).channel.journal.acts =
      s.channel.journal.acts ++ (madeBy (step fuel) s).map .call := by
  obtain ⟨events, hevents, hpause⟩ := step_notes fuel s
  have hmakes : Makes (step fuel) s (events.filterMap Event.call?) := by
    unfold Makes Journal.calls
    rw [hevents, List.filterMap_append]
  rw [hmakes.madeBy_eq, ← filter_isAct hpause]
  unfold Journal.acts
  rw [hevents, List.filter_append]

/-- The instructions account for all that steps do. -/
theorem steps_acts (fuel n : Nat) (s : System σ) :
    (leftBy (steps fuel n s)).channel.journal.acts =
      s.channel.journal.acts ++ (executed fuel n s).flatten.map .call := by
  induction n generalizing s with
  | zero => exact (List.append_nil _).symm
  | succ n ih =>
    cases hs : s.machine.isRunning with
    | false =>
      rw [steps_guarded fuel (n + 1) s hs, executed_of_halted hs]
      exact (List.append_nil _).symm
    | true =>
      have hfirst := step_acts fuel s
      rw [steps_of_running hs, executed_of_running hs, List.flatten_cons, List.map_append,
        ← List.append_assoc, ← hfirst]
      rcases hstep : step fuel s with ⟨_, t⟩ | ⟨e, t⟩
      · rw [bind_of_ok hstep]
        exact ih t
      · rw [bind_of_error hstep]
        exact (List.append_nil _).symm

theorem flush_acts (s : System σ) :
    (leftBy (atChannel Channel.flush s)).channel.journal.acts =
      s.channel.journal.acts ++ Move.flush.acts := by
  unfold Channel.flush
  rw [channel_exchange, acts_after]
  rfl

theorem instructions_acts (calls : List (List Call)) :
    (calls.map Move.instruction).flatMap Move.acts = calls.flatten.map .call := by
  rw [List.flatMap_map, List.map_flatten]
  rfl

theorem break_acts {x : MachineM σ Unit} {moves : System σ → List Move}
    (h : ∀ s, (leftBy (x s)).channel.journal.acts =
      s.channel.journal.acts ++ (moves s).flatMap Move.acts) (s : System σ) :
    (leftBy ((do breakTime; x : MachineM σ Unit) s)).channel.journal.acts =
      s.channel.journal.acts ++ (Move.flush :: afterwards (atChannel Channel.flush s) fun t =>
        .yield :: afterwards (pause false t) moves).flatMap Move.acts := by
  have hflush := flush_acts s
  unfold breakTime
  rw [bind_assoc, List.flatMap_cons, ← List.append_assoc, ← hflush]
  rcases hflushed : atChannel Channel.flush s with ⟨_, t⟩ | ⟨e, t⟩
  · have hpause : (pause false : MachineM σ Unit) t =
        .ok () ⟨t.machine, ⟨t.channel.device, t.channel.journal.push .pause⟩⟩ := rfl
    rw [bind_of_ok hflushed, bind_of_ok hpause, h, acts_pause, afterwards_ok, hpause,
      afterwards_ok, List.flatMap_cons, ← List.append_assoc]
    rfl
  · rw [bind_of_error hflushed, afterwards_error]
    exact (List.append_nil _).symm

/-- The moves account for all that slices do, whatever the console. -/
theorem slices_acts (fuel k n : Nat) (s : System σ) :
    (leftBy (slicesFor fuel k false n s)).channel.journal.acts =
      s.channel.journal.acts ++ (sliced fuel k n s).flatMap Move.acts := by
  induction n generalizing s with
  | zero =>
    rw [(slicesFor_loops fuel k false).zero]
    cases hs : s.machine.isRunning with
    | false =>
      rw [guard_of_halted _ hs]
      exact (List.append_nil _).symm
    | true =>
      rw [guard_of_running _ hs]
      exact (List.append_nil _).symm
  | succ n ih =>
    rw [slicesFor_succ, sliced]
    cases hs : s.machine.isRunning with
    | false =>
      rw [guard_of_halted _ hs, if_neg Bool.false_ne_true]
      exact (List.append_nil _).symm
    | true =>
      have hsteps := steps_acts fuel k s
      rw [guard_of_running _ hs, if_pos rfl, List.flatMap_append, instructions_acts,
        ← List.append_assoc, ← hsteps]
      rcases hfirst : steps fuel k s with ⟨_, t⟩ | ⟨e, t⟩
      · rw [bind_of_ok hfirst, afterwards_ok]
        exact break_acts ih t
      · rw [bind_of_error hfirst, afterwards_error]
        exact (List.append_nil _).symm

end LC3
