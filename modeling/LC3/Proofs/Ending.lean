import LC3.Proofs.Simulation

/-!
# Runs that end

A run ends if there is fuel that lasts for it. The ending is then the same for all fuel that lasts,
for a machine that is given more fuel does nothing else with the fuel that it had already.
-/

namespace LC3

open MachineM

/-! ## Endings -/

section Endings

variable {ρ α : Type} {x : Nat → EStateM Stop ρ α} {s : ρ} {r r' : EStateM.Result Stop ρ α}

/-- From `s`, and with fuel that lasts, `x` comes to `r`. -/
structure EndsIn (x : Nat → EStateM Stop ρ α) (s : ρ) (r : EStateM.Result Stop ρ α) : Prop where
  reached : ∃ fuel, x fuel s = r
  /-- It is an ending, and not a lack of fuel. -/
  lasting : ¬OutOfFuel r

/-- From `s` some fuel lasts for `x`. -/
def Ends (x : Nat → EStateM Stop ρ α) (s : ρ) : Prop := ∃ r, EndsIn x s r

/-- Once the fuel lasts, more of it changes nothing. -/
def Steady (x : Nat → EStateM Stop ρ α) : Prop :=
  ∀ ⦃fuel fuel' : Nat⦄, fuel ≤ fuel' → ∀ s, ¬OutOfFuel (x fuel s) → x fuel' s = x fuel s

theorem Alike.eq_of_eq (h : Alike Eq r r') : r = r' := by
  cases h with
  | ok a h => rw [h]
  | error e h => rw [h]

theorem Agree.refl {x : EStateM Stop ρ α} (hx : Quiet x) : Agree (fun _ => False) Eq x x := by
  refine ⟨hx, fun _ h => h, ?_⟩
  rintro s _ rfl
  right; right
  cases x s with
  | ok a u => exact .ok a rfl
  | error e u => exact .error e rfl

theorem steady_of_agree
    (h : ∀ fuel fuel', fuel ≤ fuel' → Agree (fun _ => False) Eq (x fuel) (x fuel')) :
    Steady x := by
  intro fuel fuel' hle s hs
  rcases (h fuel fuel' hle).alike s s rfl with hlost | hout | halike
  · exact hlost.elim
  · exact absurd hout hs
  · exact halike.eq_of_eq.symm

theorem EndsIn.reached_with_more (hx : Steady x) (h : EndsIn x s r) :
    ∃ fuel, ∀ more, fuel ≤ more → x more s = r := by
  obtain ⟨⟨fuel, rfl⟩, hlast⟩ := h
  exact ⟨fuel, fun _ hle => hx hle s hlast⟩

/-- There is one ending at most. -/
theorem EndsIn.unique (hx : Steady x) (h : EndsIn x s r) (h' : EndsIn x s r') : r = r' := by
  obtain ⟨⟨fuel, rfl⟩, hlast⟩ := h
  obtain ⟨⟨fuel', rfl⟩, hlast'⟩ := h'
  rcases Nat.le_total fuel fuel' with hle | hle
  · exact (hx hle s hlast).symm
  · exact hx hle s hlast'

theorem endsIn_of_lasting {fuel : Nat} (h : ¬OutOfFuel (x fuel s)) : EndsIn x s (x fuel s) :=
  ⟨⟨fuel, rfl⟩, h⟩

/-- An ending that is not lost is found again by everything that agrees, with some fuel or other. -/
theorem EndsIn.agree_of_not_lost {ρ' : Type} {Lost : ρ → Prop} {R : ρ → ρ' → Prop}
    {y : Nat → EStateM Stop ρ' α} {t : ρ'}
    (h : ∀ fuel, ∃ fuel', Agree Lost R (x fuel) (y fuel')) (hst : R s t) (hr : EndsIn x s r)
    (hnot : ¬Lost (leftBy r)) : ∃ r', EndsIn y t r' ∧ Alike R r r' := by
  obtain ⟨⟨fuel, rfl⟩, hlast⟩ := hr
  obtain ⟨fuel', hagree⟩ := h fuel
  rcases hagree.alike s t hst with hlost | hout | halike
  · exact absurd hlost hnot
  · exact absurd hout hlast
  · exact ⟨_, endsIn_of_lasting fun hout => hlast (halike.outOfFuel_iff.2 hout), halike⟩

theorem EndsIn.agree {ρ' : Type} {R : ρ → ρ' → Prop} {y : Nat → EStateM Stop ρ' α} {t : ρ'}
    (h : ∀ fuel, ∃ fuel', Agree (fun _ => False) R (x fuel) (y fuel')) (hst : R s t)
    (hr : EndsIn x s r) : ∃ r', EndsIn y t r' ∧ Alike R r r' :=
  hr.agree_of_not_lost h hst id

end Endings

/-! ## Fuel -/

section

variable {σ : Type} [Console σ]

theorem readWord_quiet (a : Word) : Quiet (readWord a : MachineM σ Word) := by
  have hpoll : Quiet (pollKeyboard : MachineM σ Unit) := by
    refine Quiet.bind (atChannel_quiet _) fun key => ?_
    cases key with
    | some key => exact fun _ _ => nofun
    | none => exact fun _ _ => nofun
  have hcell : Quiet (cell a : MachineM σ Word) := fun _ _ => nofun
  rw [readWord_eq]
  split
  · exact hpoll.bind fun _ => hcell
  · exact hcell

theorem Simulation.refl : Simulation (fun _ : System σ => False) Eq where
  isRunning := Agree.refl fun _ _ => nofun
  pc := Agree.refl fun _ _ => nofun
  condition := Agree.refl fun _ _ => nofun
  register _ := Agree.refl fun _ _ => nofun
  setRegisters _ := Agree.refl fun _ _ => nofun
  setState _ := Agree.refl fun _ _ => nofun
  readWord a := Agree.refl (readWord_quiet a)
  writeWord _ _ := Agree.refl fun _ _ => nofun
  read := Agree.refl (atChannel_quiet _)
  write _ := Agree.refl (atChannel_quiet _)
  flush := Agree.refl (atChannel_quiet _)
  notePause := Agree.refl (atChannel_quiet _)

theorem step_quiet (fuel : Nat) : Quiet (step fuel : MachineM σ Unit) :=
  (Simulation.refl.step (Nat.le_refl fuel)).quiet

theorem step_steady : Steady (step : Nat → MachineM σ Unit) :=
  steady_of_agree fun _ _ hle => Simulation.refl.step hle

/-- More fuel does not change how a run ends. -/
theorem run_steady : Steady (run : Nat → MachineM σ Unit) :=
  steady_of_agree fun _ _ hle => Simulation.refl.run hle

theorem steps_steady (n : Nat) : Steady (steps · n : Nat → MachineM σ Unit) :=
  steady_of_agree fun _ _ hle => Simulation.refl.steps hle n

theorem runFor_of_lasting {fuel fuel' n n' : Nat} {s : System σ} (hfuel : fuel ≤ fuel')
    (hn : n ≤ n') (h : ¬OutOfFuel (runFor fuel n s)) : runFor fuel' n' s = runFor fuel n s := by
  rcases ((Simulation.refl (σ := σ)).runFor hfuel hn).alike s s rfl with hlost | hout | halike
  · exact hlost.elim
  · exact absurd hout h
  · exact halike.eq_of_eq.symm

theorem ends_of_runFor {fuel n : Nat} {s : System σ} (h : ¬OutOfFuel (runFor fuel n s)) :
    Ends run s := by
  have hmore := runFor_of_lasting (Nat.le_max_left fuel n) (Nat.le_max_right fuel n) h
  have hlast : ¬OutOfFuel (run (max fuel n) s) := fun hout => h (hmore ▸ hout)
  exact ⟨_, endsIn_of_lasting hlast⟩

/-- A run in slices that no signal waits for. -/
def runInSlices (size fuel : Nat) : MachineM σ Unit := runInterruptibly fuel size false

theorem runInSlices_quiet (size fuel : Nat) : Quiet (runInSlices size fuel : MachineM σ Unit) :=
  (Simulation.refl.slicesFor (Nat.le_refl fuel) size (Nat.le_refl fuel)).quiet

theorem runInSlices_steady (size : Nat) : Steady (runInSlices size : Nat → MachineM σ Unit) :=
  steady_of_agree fun _ _ hle => Simulation.refl.slicesFor hle size hle

end

/-! ## Runs in parts -/

variable {σ : Type}

/-- `x` asks first whether the machine runs, and otherwise does nothing. -/
def Guarded (x : MachineM σ Unit) : Prop :=
  ∀ s : System σ, s.machine.isRunning = false → x s = .ok () s

theorem Guarded.eq {x : MachineM σ Unit} (h : Guarded x) :
    (do if ← isRunning then x : MachineM σ Unit) = x := by
  funext s
  cases hs : s.machine.isRunning with
  | true => exact guard_of_running x hs
  | false => rw [guard_of_halted x hs, h s hs]

theorem Loops.guarded {body : MachineM σ Unit} {f : Nat → MachineM σ Unit} (h : Loops body f)
    (n : Nat) : Guarded (f n) := by
  intro s hs
  cases n with
  | zero => rw [h.zero, guard_of_halted _ hs]
  | succ n => rw [h.succ, guard_of_halted _ hs]

theorem Guarded.bind {x y : MachineM σ Unit} (hx : Guarded x) (hy : Guarded y) :
    Guarded (do x; y) := fun s hs => (bind_of_ok (hx s hs)).trans (hy s hs)

variable [Console σ]

theorem steps_guarded (fuel n : Nat) : Guarded (steps fuel n : MachineM σ Unit) := by
  intro s hs
  cases n with
  | zero => rfl
  | succ n => exact guard_of_halted _ hs

theorem steps_of_running {s : System σ} (hs : s.machine.isRunning = true) (fuel n : Nat) :
    steps fuel (n + 1) s = (do step fuel; steps fuel n : MachineM σ Unit) s := guard_of_running _ hs

theorem steps_one (fuel : Nat) : (steps fuel 1 : MachineM σ Unit) = step fuel := by
  funext s
  cases hs : s.machine.isRunning with
  | true => exact (guard_of_running _ hs).trans (congrFun bind_pure_unit s)
  | false =>
    rw [steps_guarded fuel 1 s hs]
    exact (step_of_halted (Machine.isRunning_eq_false_iff.1 hs)).symm

/-- A run may be taken in two parts. -/
theorem runFor_add (fuel k n : Nat) :
    (runFor fuel (k + n) : MachineM σ Unit) = (do steps fuel k; runFor fuel n) := by
  induction k with
  | zero => rw [Nat.zero_add]; rfl
  | succ k ih =>
    rw [Nat.succ_add, (runFor_loops fuel).succ, ih]
    refine .trans ?_ ((steps_guarded fuel (k + 1)).bind ((runFor_loops fuel).guarded n)).eq
    funext s
    cases hs : s.machine.isRunning with
    | false => rw [guard_of_halted _ hs, guard_of_halted _ hs]
    | true =>
      have hstart : (do step fuel; steps fuel k : MachineM σ Unit) s = steps fuel (k + 1) s :=
        (guard_of_running _ hs).symm
      rw [guard_of_running _ hs, guard_of_running _ hs, ← bind_congr_left _ hstart, bind_assoc]

/-- Steps may be taken in two parts. -/
theorem steps_add (fuel k n : Nat) :
    (steps fuel (k + n) : MachineM σ Unit) = (do steps fuel k; steps fuel n) := by
  induction k with
  | zero => rw [Nat.zero_add]; rfl
  | succ k ih =>
    funext s
    rw [Nat.succ_add]
    cases hs : s.machine.isRunning with
    | false =>
      rw [steps_guarded fuel (k + n + 1) s hs]
      exact ((steps_guarded fuel (k + 1)).bind (steps_guarded fuel n) s hs).symm
    | true =>
      rw [steps_of_running hs, bind_congr_left _ (steps_of_running hs fuel k), ih, bind_assoc]

/-- A run looks whether the machine is halted when its steps are over. -/
theorem runFor_eq (fuel n : Nat) (s : System σ) :
    runFor fuel n s = (do steps fuel n; runFor fuel 0 : MachineM σ Unit) s :=
  congrFun (runFor_add fuel n 0) s

variable {fuel k n : Nat} {s t : System σ} {r : EStateM.Result Stop (System σ) Unit}

/-- More steps come to the same if they go on from where the first ones lead. -/
theorem EndsIn.steps_rest (h : EndsIn (steps · (k + n)) s r)
    (hfirst : EndsIn (steps · k) s (.ok () t)) : EndsIn (steps · n) t r := by
  obtain ⟨fuel, hall⟩ := h.reached_with_more (steps_steady (k + n))
  obtain ⟨fuel', ht⟩ := hfirst.reached_with_more (steps_steady k)
  refine ⟨⟨max fuel fuel', ?_⟩, h.lasting⟩
  have hs : steps (max fuel fuel') (k + n) s = r := hall _ (Nat.le_max_left ..)
  rwa [steps_add, bind_of_ok (ht _ (Nat.le_max_right ..))] at hs

/-- A run comes to the same if it goes on from where its first steps lead. -/
theorem EndsIn.run_rest (h : EndsIn run s r) (hfirst : EndsIn (steps · k) s (.ok () t)) :
    EndsIn run t r := by
  obtain ⟨fuel, hall⟩ := h.reached_with_more run_steady
  obtain ⟨fuel', ht⟩ := hfirst.reached_with_more (steps_steady k)
  let more := max fuel fuel'
  have hs : runFor more more s = r := hall more (Nat.le_max_left ..)
  have hlonger : runFor more (k + more) s = runFor more more s := by
    refine runFor_of_lasting (Nat.le_refl more) (Nat.le_add_left more k) ?_
    rw [hs]
    exact h.lasting
  refine ⟨⟨more, ?_⟩, h.lasting⟩
  rwa [runFor_add, bind_of_ok (ht _ (Nat.le_max_right ..)), hs] at hlonger

/-- A run is out of fuel when its steps are, or when they leave a machine that still runs. -/
theorem runFor_outOfFuel_iff :
    OutOfFuel (runFor fuel n s) ↔ OutOfFuel (steps fuel n s) ∨
      ∃ t, steps fuel n s = .ok () t ∧ t.machine.isRunning = true := by
  rw [runFor_eq]
  rcases hsteps : steps fuel n s with ⟨_, t⟩ | ⟨e, t⟩
  · rw [bind_of_ok hsteps, (runFor_loops fuel).zero]
    cases hrun : t.machine.isRunning with
    | true =>
      rw [guard_of_running _ hrun]
      exact ⟨fun _ => .inr ⟨t, rfl, hrun⟩, fun _ => ⟨t, rfl⟩⟩
    | false =>
      rw [guard_of_halted _ hrun]
      refine ⟨fun h => absurd h nofun, ?_⟩
      rintro (⟨_, ⟨⟩⟩ | ⟨_, ⟨⟩, hrunning⟩)
      cases hrun.symm.trans hrunning
  · rw [bind_of_error hsteps]
    refine ⟨.inl, ?_⟩
    rintro (hout | ⟨_, ⟨⟩, -⟩)
    exact hout

/-- A run leaves what its steps left. -/
theorem leftBy_runFor (fuel n : Nat) (s : System σ) :
    leftBy (runFor fuel n s) = leftBy (steps fuel n s) := by
  rw [runFor_eq]
  rcases hsteps : steps fuel n s with ⟨_, t⟩ | ⟨e, t⟩
  · rw [bind_of_ok hsteps, (runFor_loops fuel).zero]
    cases hrun : t.machine.isRunning with
    | true =>
      rw [guard_of_running _ hrun]
      rfl
    | false => rw [guard_of_halted _ hrun]
  · rw [bind_of_error hsteps]

theorem runFor_eq_steps (h : ¬OutOfFuel (runFor fuel n s)) : runFor fuel n s = steps fuel n s := by
  rcases hsteps : steps fuel n s with ⟨_, t⟩ | ⟨e, t⟩
  · cases hrun : t.machine.isRunning with
    | true => exact absurd (runFor_outOfFuel_iff.2 (.inr ⟨t, hsteps, hrun⟩)) h
    | false => rw [runFor_eq, bind_of_ok hsteps, (runFor_loops fuel).guarded 0 t hrun]
  · rw [runFor_eq, bind_of_error hsteps]

end LC3
