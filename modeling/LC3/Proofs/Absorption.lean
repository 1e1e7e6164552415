import LC3.Console.Scripted
import LC3.Proofs.Halting
import Mathlib.Order.Bounds.Basic

/-!
# Halted for good

Somebody may step a machine again and again, and catch the fault when an attempt fails. The machine
keeps running until an attempt fails or is the trap that halts it. From then on it is halted for
good: no attempt, no run and no run in slices does anything to it. A run is nothing else than such
attempts up to the first after which the machine is halted, and ends as that attempt does.
-/

namespace LC3

open MachineM

variable {σ : Type} [Console σ] {s t : System σ} {k n : Nat}
  {r r' : EStateM.Result Stop (System σ) Unit}

/-! ## One step -/

/-- The machine is about to execute `i`. -/
def Executes (s : System σ) (i : Instruction) : Prop := s.machine.state = .running ∧ Fetches s i

/-- A fault has come out of it. -/
def Threw (r : EStateM.Result Stop (System σ) Unit) : Prop := ∃ f t, r = .error (.fault f) t

/-- What a step comes to for which the fuel lasts. -/
inductive StepEnds (s : System σ) : EStateM.Result Stop (System σ) Unit → Prop where
  | idle (hs : s.machine.state = .halted) : StepEnds s (.ok () s)
  | goesOn {t : System σ} (hs : s.machine.state = .running) (ht : t.machine.state = .running)
      (hfetch : ¬Fetches s (.trap 0x25)) : StepEnds s (.ok () t)
  | halts {t : System σ} (hs : s.machine.state = .running) (ht : t.machine.state = .halted)
      (hfetch : Fetches s (.trap 0x25)) : StepEnds s (.ok () t)
  | fails {t : System σ} {f : Fault} (hs : s.machine.state = .running)
      (ht : t.machine.state = .halted) : StepEnds s (.error (.fault f) t)

theorem EndsIn.step (h : EndsIn step s r) : StepEnds s r := by
  obtain ⟨⟨fuel, hstep⟩, hlast⟩ := h
  cases hs : s.machine.state with
  | halted =>
    rw [← hstep, step_of_halted hs]
    exact .idle hs
  | running =>
    rcases r with ⟨_, t⟩ | ⟨f | _ | _, t⟩
    · cases ht : t.machine.state with
      | running =>
        refine .goesOn hs ht fun hfetch => ?_
        cases ht.symm.trans ((step_halted_iff hs hstep).2 hfetch)
      | halted => exact .halts hs ht ((step_halted_iff hs hstep).1 ht)
    · obtain ⟨u, -, rfl⟩ := cycle_of_step_fault hs hstep
      exact .fails hs rfl
    · exact absurd hstep (step_quiet fuel s t)
    · exact absurd ⟨t, rfl⟩ hlast

/-- A step leaves a machine running if it finds it running, no fault comes out of it and it is not
the trap that halts. -/
theorem running_step_iff (h : EndsIn step s r) :
    (leftBy r).machine.state = .running ↔
      s.machine.state = .running ∧ ¬(Threw r ∨ Executes s (.trap 0x25)) := by
  cases h.step with
  | idle hs =>
    show s.machine.state = .running ↔ _
    simp [hs]
  | @goesOn t hs ht hfetch =>
    have hother : ¬Executes s (.trap 0x25) := fun h => hfetch h.2
    have hcomplete : ¬Threw (.ok () t : EStateM.Result Stop (System σ) Unit) := nofun
    exact iff_of_true ht ⟨hs, not_or.2 ⟨hcomplete, hother⟩⟩
  | @halts t hs ht hfetch =>
    have hhalted : ¬t.machine.state = .running := by simp [ht]
    exact iff_of_false hhalted fun h => h.2 (.inr ⟨hs, hfetch⟩)
  | @fails t f hs ht =>
    have hhalted : ¬t.machine.state = .running := by simp [ht]
    exact iff_of_false hhalted fun h => h.2 (.inl ⟨f, t, rfl⟩)

/-! ## Attempts -/

/-- `Attempts s n r`: a machine is stepped `n` times from `s`, and `r` is what the last time comes
to. A fault is caught, and the next attempt finds what it left. -/
inductive Attempts (s : System σ) : Nat → EStateM.Result Stop (System σ) Unit → Prop where
  | none : Attempts s 0 (.ok () s)
  | next {n : Nat} {r r' : EStateM.Result Stop (System σ) Unit} (h : Attempts s n r)
      (hstep : EndsIn step (leftBy r) r') : Attempts s (n + 1) r'

theorem Attempts.unique (h : Attempts s n r) (h' : Attempts s n r') : r = r' := by
  induction h generalizing r' with
  | none =>
    cases h'
    rfl
  | next _ hstep ih =>
    cases h' with
    | next h' hstep' =>
      obtain rfl := ih h'
      exact hstep.unique step_steady hstep'

/-- An attempt may come before the others. -/
theorem Attempts.after_step (hstep : EndsIn MachineM.step s (.ok () t)) (h : Attempts t n r) :
    Attempts s (n + 1) r := by
  induction h with
  | none => exact .next .none hstep
  | next _ hlater ih => exact ih.next hlater

/-- There are as many attempts as one likes, up to one that never ends. -/
theorem exists_attempts (s : System σ) (n : Nat) :
    (∃ r, Attempts s n r) ∨ ∃ k < n, ∃ q, Attempts s k q ∧ ¬Ends step (leftBy q) := by
  induction n with
  | zero => exact .inl ⟨_, .none⟩
  | succ n ih =>
    rcases ih with ⟨r, hr⟩ | ⟨k, hk, hstuck⟩
    · by_cases hends : Ends step (leftBy r)
      · obtain ⟨r', hr'⟩ := hends
        exact .inl ⟨r', hr.next hr'⟩
      · exact .inr ⟨n, Nat.lt_succ_self n, r, hr, hends⟩
    · exact .inr ⟨k, Nat.lt_succ_of_lt hk, hstuck⟩

theorem Attempts.running_iff (h : Attempts s n r) :
    (leftBy r).machine.state = .running ↔
      s.machine.state = .running ∧ ∀ k < n, ∀ q q', Attempts s k q →
        EndsIn MachineM.step (leftBy q) q' →
          ¬(Threw q' ∨ Executes (leftBy q) (.trap 0x25)) := by
  induction h with
  | none => exact ⟨fun hs => ⟨hs, fun k hk => absurd hk (Nat.not_lt_zero k)⟩, fun h => h.1⟩
  | @next n r r' hbefore hstep ih =>
    rw [running_step_iff hstep, ih]
    constructor
    · rintro ⟨⟨hs, hearlier⟩, hlast⟩
      refine ⟨hs, fun k hk q q' hq hq' => ?_⟩
      -- What the last attempt starts from and comes to is determined, so it is this one.
      rcases Nat.lt_succ_iff_lt_or_eq.1 hk with hk | rfl
      · exact hearlier k hk q q' hq hq'
      · obtain rfl := hbefore.unique hq
        obtain rfl := hstep.unique step_steady hq'
        exact hlast
    · rintro ⟨hs, hall⟩
      refine ⟨⟨hs, fun k hk => hall k (Nat.lt_succ_of_lt hk)⟩, ?_⟩
      exact hall n (Nat.lt_succ_self n) r r' hbefore hstep

/-- The last of the attempts was complete if it has left the machine running. -/
theorem Attempts.complete (h : Attempts s n r) (hrun : (leftBy r).machine.state = .running) :
    ∃ t, r = .ok () t := by
  cases h with
  | none => exact ⟨s, rfl⟩
  | next _ hstep =>
    cases hstep.step with
    | idle => exact ⟨_, rfl⟩
    | goesOn => exact ⟨_, rfl⟩
    | halts => exact ⟨_, rfl⟩
    | fails _ ht => cases ht.symm.trans hrun

/-! ## Runs -/

theorem endsIn_steps_succ (h : EndsIn (steps · n) s (.ok () t)) (hstep : EndsIn step t r) :
    EndsIn (steps · (n + 1)) s r := by
  obtain ⟨fuel, hfirst⟩ := h.reached_with_more (steps_steady n)
  obtain ⟨fuel', hlast⟩ := hstep.reached_with_more step_steady
  refine ⟨⟨max fuel fuel', ?_⟩, hstep.lasting⟩
  show steps (max fuel fuel') (n + 1) s = r
  rw [steps_add, bind_of_ok (hfirst _ (Nat.le_max_left ..)), steps_one]
  exact hlast _ (Nat.le_max_right ..)

/-- As long as the machine runs, attempts are steps. -/
theorem Attempts.steps (h : Attempts s n r)
    (hrun : ∀ k < n, ∀ q, Attempts s k q → (leftBy q).machine.state = .running) :
    EndsIn (MachineM.steps · n) s r := by
  induction h with
  | none => exact ⟨⟨0, rfl⟩, nofun⟩
  | @next n r r' hbefore hstep ih =>
    have hrunning := hrun n (Nat.lt_succ_self n) r hbefore
    obtain ⟨t, rfl⟩ := hbefore.complete hrunning
    exact endsIn_steps_succ (ih fun k hk => hrun k (Nat.lt_succ_of_lt hk)) hstep

/-- A run ends as steps do that leave the machine halted. -/
theorem EndsIn.run_of_steps (h : EndsIn (MachineM.steps · n) s r)
    (hhalt : (leftBy r).machine.state = .halted) : EndsIn MachineM.run s r := by
  obtain ⟨fuel, hsteps⟩ := h.reached_with_more (steps_steady n)
  let more := max fuel n
  have hr : MachineM.steps more n s = r := hsteps more (Nat.le_max_left ..)
  have hlast : ¬OutOfFuel (runFor more n s) := by
    rw [runFor_outOfFuel_iff, hr]
    rintro (hout | ⟨t, rfl, hrun⟩)
    · exact h.lasting hout
    · cases (Machine.isRunning_iff.1 hrun).symm.trans hhalt
  refine ⟨⟨more, ?_⟩, h.lasting⟩
  show runFor more more s = r
  rw [runFor_of_lasting (Nat.le_refl more) (Nat.le_max_right fuel n) hlast, runFor_eq_steps hlast,
    hr]

/-- A run that ends is made of attempts. -/
theorem attempts_of_runFor {fuel : Nat} (h : ¬OutOfFuel (runFor fuel n s)) :
    ∃ m, Attempts s m (runFor fuel n s) ∧
      (leftBy (runFor fuel n s)).machine.state = .halted := by
  induction n generalizing s with
  | zero =>
    cases hs : s.machine.isRunning with
    | false =>
      rw [(runFor_loops fuel).guarded 0 s hs]
      exact ⟨0, .none, Machine.isRunning_eq_false_iff.1 hs⟩
    | true => exact absurd ⟨s, guard_of_running _ hs⟩ h
  | succ n ih =>
    cases hs : s.machine.isRunning with
    | false =>
      rw [(runFor_loops fuel).guarded (n + 1) s hs]
      exact ⟨0, .none, Machine.isRunning_eq_false_iff.1 hs⟩
    | true =>
      have hparts : runFor fuel (n + 1) s = (do step fuel; runFor fuel n : MachineM σ Unit) s :=
        guard_of_running _ hs
      rw [hparts] at h ⊢
      rcases hstep : step fuel s with ⟨_, t⟩ | ⟨e, t⟩
      · rw [bind_of_ok hstep] at h ⊢
        obtain ⟨m, hm, hhalt⟩ := ih h
        exact ⟨m + 1, hm.after_step ⟨⟨fuel, hstep⟩, nofun⟩, hhalt⟩
      · rw [bind_of_error hstep] at h ⊢
        have hlast : EndsIn step s (.error e t) := ⟨⟨fuel, hstep⟩, h⟩
        refine ⟨1, .next .none hlast, ?_⟩
        cases hlast.step with
        | fails _ ht => exact ht

/-! ## Orders -/

/-- What a machine can be told to do. -/
inductive Order where
  | step
  | run
  | slices (size : Nat) (signalWaiting : Bool)

/-- Does what it is told. -/
def Order.obey (fuel : Nat) : Order → MachineM σ Unit
  | .step => MachineM.step fuel
  | .run => MachineM.run fuel
  | .slices size signalWaiting => runInterruptibly fuel size signalWaiting

theorem obey_guarded (fuel : Nat) (order : Order) :
    Guarded (order.obey fuel : MachineM σ Unit) := by
  intro s hs
  cases order with
  | step => exact step_of_halted (Machine.isRunning_eq_false_iff.1 hs)
  | run => exact (runFor_loops fuel).guarded fuel s hs
  | slices size signalWaiting => exact (slicesFor_loops fuel size signalWaiting).guarded fuel s hs

theorem obeyAll_of_halted (fuel : Nat) (orders : List Order) (hs : s.machine.state = .halted) :
    (orders.forM (Order.obey fuel) : MachineM σ Unit) s = .ok () s := by
  induction orders with
  | nil => rfl
  | cons order orders ih =>
    have hfirst : order.obey fuel s = .ok () s :=
      obey_guarded fuel order s (Machine.isRunning_eq_false_iff.2 hs)
    exact (bind_of_ok hfirst).trans ih

/-! ## The end of a run -/

/-- The numbers of attempts after which the machine is halted. -/
def haltedAfter (s : System σ) : Set Nat :=
  {m | ∃ r, Attempts s m r ∧ (leftBy r).machine.state = .halted}

theorem running_of_isLeast (h : IsLeast (haltedAfter s) n) :
    ∀ k < n, ∀ q, Attempts s k q → (leftBy q).machine.state = .running := by
  intro k hk q hq
  cases hstate : (leftBy q).machine.state with
  | running => rfl
  | halted => exact absurd (h.2 ⟨q, hq, hstate⟩) (Nat.not_le_of_lt hk)

theorem run_of_isLeast (h : IsLeast (haltedAfter s) n) : ∃ r, Attempts s n r ∧ EndsIn run s r := by
  obtain ⟨r, hr, hhalt⟩ := h.1
  exact ⟨r, hr, (hr.steps (running_of_isLeast h)).run_of_steps hhalt⟩

/-- Steps that leave the machine running are attempts. -/
theorem attempts_of_steps {fuel : Nat} (hsteps : MachineM.steps fuel n s = .ok () t)
    (ht : t.machine.isRunning = true) : Attempts s n (.ok () t) := by
  induction n generalizing s with
  | zero =>
    cases hsteps
    exact .none
  | succ n ih =>
    cases hs : s.machine.isRunning with
    | false =>
      rw [steps_guarded fuel (n + 1) s hs] at hsteps
      cases hsteps
      cases hs.symm.trans ht
    | true =>
      rw [steps_of_running hs] at hsteps
      obtain ⟨_, u, hstep, hrest⟩ := bind_eq_ok.1 hsteps
      exact (ih hrest).after_step ⟨⟨fuel, hstep⟩, nofun⟩

theorem isLeast_of_steps {fuel : Nat} (hsteps : MachineM.steps fuel n s = .ok () t)
    (ht : t.machine.isRunning = true) (hstep : EndsIn MachineM.step t r)
    (hhalt : (leftBy r).machine.state = .halted) :
    IsLeast (haltedAfter s) (n + 1) ∧ Attempts s (n + 1) r := by
  have hfirst : Attempts s n (.ok () t) := attempts_of_steps hsteps ht
  obtain ⟨hs, hrun⟩ := hfirst.running_iff.1 (Machine.isRunning_iff.1 ht)
  refine ⟨⟨⟨r, hfirst.next hstep, hhalt⟩, ?_⟩, hfirst.next hstep⟩
  rintro m ⟨q, hq, hstopped⟩
  by_contra hlt
  have hrunning := hq.running_iff.2 ⟨hs, fun j hj => hrun j (by omega)⟩
  cases hstopped.symm.trans hrunning

theorem haltedAfter_of_ends (h : Ends run s) : (haltedAfter s).Nonempty := by
  obtain ⟨_, ⟨fuel, rfl⟩, hlast⟩ := h
  obtain ⟨m, hm, hhalt⟩ := attempts_of_runFor hlast
  exact ⟨m, _, hm, hhalt⟩

/-- After any number of attempts, each of which ends, a machine runs if it ran at the start and no
attempt threw or executed the trap that halts. Once it is halted, nothing that it is told to do
changes anything, calls the console or fails. A run ends as the first attempt does after which the
machine is halted, with the same fault if there is one, and does not end if there is no such
attempt. -/
theorem halted_for_good (s : System σ) :
    (∀ n, (∃ r, Attempts s n r) ∨ ∃ k < n, ∃ q, Attempts s k q ∧ ¬Ends step (leftBy q)) ∧
      (∀ n r, Attempts s n r →
        ((leftBy r).machine.state = .running ↔
          s.machine.state = .running ∧ ∀ k < n, ∀ q q', Attempts s k q →
            EndsIn step (leftBy q) q' → ¬(Threw q' ∨ Executes (leftBy q) (.trap 0x25))) ∧
        ((leftBy r).machine.state = .halted → ∀ fuel (orders : List Order),
          orders.forM (Order.obey fuel) (leftBy r) = .ok () (leftBy r))) ∧
      (∀ m, IsLeast (haltedAfter s) m → ∃ r, Attempts s m r ∧ EndsIn run s r) ∧
      (haltedAfter s = ∅ → ¬Ends run s) := by
  refine ⟨exists_attempts s, fun n r hr => ⟨hr.running_iff, fun hhalt fuel orders => ?_⟩,
    fun m => run_of_isLeast, fun hnone hends => ?_⟩
  · exact obeyAll_of_halted fuel orders hhalt
  · exact (haltedAfter_of_ends hends).ne_empty hnone

/-- A machine that asks for two characters, on a console that has one. -/
def starving : System Scripted :=
  ⟨(Machine.fresh 0).place 0 [0xf020, 0xf020], { device := { reads := [.ok 0x41] } }⟩

theorem halted_for_good_starving :
    ∃ t, IsLeast (haltedAfter starving) 2 ∧
      EndsIn run starving (.error (.fault .inputClosed) t) ∧
      ∀ fuel (orders : List Order), orders.forM (Order.obey fuel) t = .ok () t := by
  let u := leftBy (step 0 starving)
  let t := leftBy (step 0 u)
  have hu : step 0 starving = .ok () u := eq_ok_of_stopOf (by decide +kernel)
  have ht : step 0 u = .error (.fault .inputClosed) t := eq_error_of_stopOf (by decide +kernel)
  have hrun : u.machine.state = .running := by decide +kernel
  have hfirst : EndsIn step starving (.ok () u) := ⟨⟨0, hu⟩, nofun⟩
  have hsecond : EndsIn step u (.error (.fault .inputClosed) t) := ⟨⟨0, ht⟩, nofun⟩
  have hattempts : Attempts starving 2 (.error (.fault .inputClosed) t) :=
    .next (.next .none hfirst) hsecond
  have hhalt : t.machine.state = .halted := by decide +kernel
  have hleast : IsLeast (haltedAfter starving) 2 := by
    refine ⟨⟨_, hattempts, hhalt⟩, ?_⟩
    rintro m ⟨r, hr, hstopped⟩
    by_contra hlt
    obtain rfl | rfl : m = 0 ∨ m = 1 := by omega
    · cases hr
      cases hstopped
    · cases hr.unique (.next .none hfirst)
      cases hrun.symm.trans hstopped
  obtain ⟨-, hafter, hends, -⟩ := halted_for_good starving
  obtain ⟨r, hr, hrun⟩ := hends 2 hleast
  cases hr.unique hattempts
  exact ⟨t, hleast, hrun, (hafter 2 _ hattempts).2 hhalt⟩

end LC3
