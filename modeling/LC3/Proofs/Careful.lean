import LC3.Proofs.Simulation

/-!
# Careful computations

A computation that stops early leaves the system as it is at that point. A condition on the stops of
a computation, which compares the states before and after, is carried from its parts to the whole:
the parts up to the one that stops have to leave the condition as it was. Such a part is `Careful`.

Every instruction falls into two parts. The first asks, of memory and of the console, and may stop;
the second changes the machine and is always complete. So if asking is careful the stops of every
instruction are known.
-/

namespace LC3

open MachineM

/-! ## Careful computations -/

section Careful

variable {ρ α β : Type} {R : ρ → ρ → Prop} {P : ρ → Stop → ρ → Prop}

/-- `P` allows every stop of `x`, between the states before and after. -/
def StopsOnly (P : ρ → Stop → ρ → Prop) (x : EStateM Stop ρ α) : Prop :=
  ∀ s e t, x s = .error e t → P s e t

/-- A condition on faults alone. -/
def OnFault (P : ρ → Fault → ρ → Prop) : ρ → Stop → ρ → Prop
  | s, .fault f, t => P s f t
  | _, _, _ => True

/-- When `x` is complete `R` holds between the states before and after, and `P` allows every stop of
`x`. -/
structure Careful (R : ρ → ρ → Prop) (P : ρ → Stop → ρ → Prop) (x : EStateM Stop ρ α) : Prop where
  kept : ∀ s a t, x s = .ok a t → R s t
  stop : StopsOnly P x

/-- `P` does not care what happened before, as long as it was in the bounds of `R`. -/
structure Absorbs (R : ρ → ρ → Prop) (P : ρ → Stop → ρ → Prop) : Prop where
  refl : ∀ s, R s s
  trans : ∀ {s t u}, R s t → R t u → R s u
  stop : ∀ {s t e u}, R s t → P t e u → P s e u

theorem stopsOnly_of_ok {x : EStateM Stop ρ α} (hx : ∀ s, ∃ a t, x s = .ok a t) :
    StopsOnly P x := by
  intro s e t h
  obtain ⟨a, u, hu⟩ := hx s
  cases hu.symm.trans h

namespace Absorbs

theorem look (h : Absorbs R P) {x : EStateM Stop ρ α} (hx : ∀ s, ∃ a, x s = .ok a s) :
    Careful R P x := by
  refine ⟨fun s a t ht => ?_, stopsOnly_of_ok fun s => ?_⟩
  · obtain ⟨b, hb⟩ := hx s
    cases hb.symm.trans ht
    exact h.refl s
  · obtain ⟨b, hb⟩ := hx s
    exact ⟨b, s, hb⟩

theorem pure (h : Absorbs R P) (a : α) : Careful R P (pure a) := h.look fun _ => ⟨a, rfl⟩

/-- Carefully up to the point where nothing stops any more. -/
theorem bind_stopsOnly (h : Absorbs R P) {x : EStateM Stop ρ α} {f : α → EStateM Stop ρ β}
    (hx : Careful R P x) (hf : ∀ a, StopsOnly P (f a)) : StopsOnly P (x >>= f) := by
  intro s e u hu
  rcases bind_eq_error.1 hu with hstop | ⟨a, t, ht, hstop⟩
  · exact hx.stop s e u hstop
  · exact h.stop (hx.kept s a t ht) (hf a t e u hstop)

theorem bind (h : Absorbs R P) {x : EStateM Stop ρ α} {f : α → EStateM Stop ρ β}
    (hx : Careful R P x) (hf : ∀ a, Careful R P (f a)) : Careful R P (x >>= f) := by
  refine ⟨fun s b u hu => ?_, h.bind_stopsOnly hx fun a => (hf a).stop⟩
  obtain ⟨a, t, ht, hrest⟩ := bind_eq_ok.1 hu
  exact h.trans (hx.kept s a t ht) ((hf a).kept t b u hrest)

end Absorbs

theorem Careful.ite {c : Prop} [Decidable c] {x y : EStateM Stop ρ α} (hx : Careful R P x)
    (hy : Careful R P y) : Careful R P (if c then x else y) := by
  split
  · exact hx
  · exact hy

theorem Careful.outOfFuel (hout : ∀ s, P s .outOfFuel s) :
    Careful R P (throw .outOfFuel : EStateM Stop ρ α) := by
  refine ⟨fun _ _ _ => nofun, fun s e t h => ?_⟩
  cases h
  exact hout s

end Careful

/-! ## Instructions -/

variable {σ : Type} [Console σ]

/-- Whether a service waits for a key. -/
def Service.waits : Service → Bool
  | getCharacter | askCharacter => true
  | _ => false

/-- Whatever asks memory or the console is careful, apart from waiting for a key. -/
structure CarefulConsole (R : System σ → System σ → Prop)
    (P : System σ → Stop → System σ → Prop) : Prop extends Absorbs R P where
  readWord (a : Word) : Careful R P (readWord a)
  write (code : Int) : Careful R P (atChannel (Channel.write code))
  flush : Careful R P (atChannel Channel.flush)

namespace CarefulConsole

variable {R : System σ → System σ → Prop} {P : System σ → Stop → System σ → Prop} {fuel : Nat}

theorem writeAll (h : CarefulConsole R P) (codes : List Nat) :
    Careful R P (atChannel (Channel.writeAll codes)) := by
  induction codes with
  | nil => exact h.look fun _ => ⟨(), rfl⟩
  | cons code codes ih =>
    unfold Channel.writeAll
    rw [atChannel_bind]
    exact h.bind (h.write code) fun _ => ih

theorem readByte (h : CarefulConsole R P) (hread : Careful R P (atChannel Channel.read)) :
    Careful R P (readByte : MachineM σ UInt8) :=
  h.bind h.flush fun _ => h.bind hread fun _ => h.pure _

theorem putWords (h : CarefulConsole R P) (hout : ∀ s, P s .outOfFuel s) (a : Word) :
    Careful R P (putWords fuel a) := by
  induction fuel generalizing a with
  | zero => exact Careful.outOfFuel hout
  | succ fuel ih =>
    refine h.bind (h.readWord a) fun w => Careful.ite (h.pure ()) ?_
    exact h.bind (h.write _) fun _ => ih _

theorem putBytes (h : CarefulConsole R P) (hout : ∀ s, P s .outOfFuel s) (a : Word) :
    Careful R P (putBytes fuel a) := by
  induction fuel generalizing a with
  | zero => exact Careful.outOfFuel hout
  | succ fuel ih =>
    refine h.bind (h.readWord a) fun w => Careful.ite (h.pure ()) ?_
    refine h.bind (h.write _) fun _ => Careful.ite (h.pure ()) ?_
    exact h.bind (h.write _) fun _ => ih _

theorem serve (h : CarefulConsole R P) {service : Service}
    (hread : service.waits = true → Careful R P (atChannel Channel.read))
    (hwords : ∀ a, Careful R P (MachineM.putWords fuel a))
    (hbytes : ∀ a, Careful R P (MachineM.putBytes fuel a)) :
    StopsOnly P (serve fuel service) := by
  have hdone : ∀ b, StopsOnly P (do setResult b; return RunState.running : MachineM σ RunState) :=
    fun _ => stopsOnly_of_ok fun _ => ⟨_, _, rfl⟩
  cases service with
  | getCharacter => exact h.bind_stopsOnly (h.readByte (hread rfl)) hdone
  | putCharacter =>
    refine h.bind_stopsOnly (h.look fun _ => ⟨_, rfl⟩) fun w => ?_
    exact (h.bind (h.write _) fun _ => h.pure _).stop
  | putWords =>
    refine h.bind_stopsOnly (h.look fun _ => ⟨_, rfl⟩) fun a => ?_
    exact (h.bind (hwords a) fun _ => h.pure _).stop
  | askCharacter =>
    refine h.bind_stopsOnly (h.writeAll _) fun _ => ?_
    refine h.bind_stopsOnly (h.readByte (hread rfl)) fun b => ?_
    exact h.bind_stopsOnly (h.write _) fun _ => hdone b
  | putBytes =>
    refine h.bind_stopsOnly (h.look fun _ => ⟨_, rfl⟩) fun a => ?_
    exact (h.bind (hbytes a) fun _ => h.pure _).stop
  | halt => exact (h.bind (h.writeAll _) fun _ => h.bind h.flush fun _ => h.pure _).stop

/-- An instruction with a meaning that is no trap asks first and then changes the machine. -/
theorem perform (h : CarefulConsole R P) (address : Word) {i : Instruction}
    (htrap : ∀ vector, i ≠ .trap vector) (hillegal : ∀ o, i ≠ .illegal o) :
    StopsOnly P (perform fuel address i) := by
  have hpc : ∀ offset, Careful R P (relative offset) := fun _ => h.look fun _ => ⟨_, rfl⟩
  have hbase : ∀ base offset, Careful R P (based base offset) := fun _ _ =>
    h.look fun _ => ⟨_, rfl⟩
  have hoperand : ∀ o, Careful R P (operand o) := by
    intro o
    cases o with
    | register r => exact h.look fun _ => ⟨_, rfl⟩
    | literal w => exact h.pure w
  have hregister : ∀ r, Careful R P (register r) := fun _ => h.look fun _ => ⟨_, rfl⟩
  have haccept : ∀ r w, StopsOnly P (setJudged r w : MachineM σ Unit) := fun _ _ =>
    stopsOnly_of_ok fun _ => ⟨_, _, rfl⟩
  have hwrite : ∀ a w, StopsOnly P (writeWord a w : MachineM σ Unit) := fun _ _ =>
    stopsOnly_of_ok fun _ => ⟨_, _, rfl⟩
  cases i with
  | add target left right =>
    refine h.bind_stopsOnly (hregister left) fun _ => ?_
    exact h.bind_stopsOnly (hoperand right) fun _ => haccept _ _
  | and target left right =>
    refine h.bind_stopsOnly (hregister left) fun _ => ?_
    exact h.bind_stopsOnly (hoperand right) fun _ => haccept _ _
  | not target source => exact h.bind_stopsOnly (hregister source) fun _ => haccept _ _
  | branch mask offset =>
    refine h.bind_stopsOnly (h.look fun _ => ⟨_, rfl⟩) fun c => ?_
    split
    · exact stopsOnly_of_ok fun _ => ⟨_, _, rfl⟩
    · exact stopsOnly_of_ok fun _ => ⟨_, _, rfl⟩
  | jump base => exact stopsOnly_of_ok fun _ => ⟨_, _, rfl⟩
  | call offset => exact stopsOnly_of_ok fun _ => ⟨_, _, rfl⟩
  | callRegister base => exact stopsOnly_of_ok fun _ => ⟨_, _, rfl⟩
  | load target offset =>
    refine h.bind_stopsOnly (hpc offset) fun a => ?_
    exact h.bind_stopsOnly (h.readWord a) fun _ => haccept _ _
  | loadIndirect target offset =>
    refine h.bind_stopsOnly (hpc offset) fun a => h.bind_stopsOnly (h.readWord a) fun p => ?_
    exact h.bind_stopsOnly (h.readWord p) fun _ => haccept _ _
  | loadBase target base offset =>
    refine h.bind_stopsOnly (hbase base offset) fun a => ?_
    exact h.bind_stopsOnly (h.readWord a) fun _ => haccept _ _
  | loadAddress target offset => exact stopsOnly_of_ok fun _ => ⟨_, _, rfl⟩
  | store source offset => exact stopsOnly_of_ok fun _ => ⟨_, _, rfl⟩
  | storeIndirect source offset =>
    refine h.bind_stopsOnly (hpc offset) fun a => h.bind_stopsOnly (h.readWord a) fun p => ?_
    exact h.bind_stopsOnly (hregister source) fun _ => hwrite _ _
  | storeBase source base offset => exact stopsOnly_of_ok fun _ => ⟨_, _, rfl⟩
  | trap vector => exact absurd rfl (htrap vector)
  | illegal o => exact absurd rfl (hillegal o)

end CarefulConsole

end LC3
