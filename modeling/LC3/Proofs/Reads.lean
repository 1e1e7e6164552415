import LC3.Proofs.Simulation

/-!
# The words that are read

Every read of memory goes through `readWord`, and which words a step reads is decided by the
instruction: the instruction itself, then what it loads, the pointer that it loads or stores
through, or the string that it prints. The addresses are collected here beside the run, in the order
in which the words are read. A read that fails is counted, and nothing is read behind it.
-/

namespace LC3

open MachineM

variable {σ α : Type}

/-- What is read behind a computation that came to `r`: nothing if it was not complete. -/
def behind (r : EStateM.Result Stop (System σ) α) (reads : α → System σ → List Word) : List Word :=
  match r with
  | .ok a t => reads a t
  | .error _ _ => []

@[simp]
theorem behind_nil (r : EStateM.Result Stop (System σ) α) : behind r (fun _ _ => []) = [] := by
  cases r <;> rfl

theorem behind_of_error {r : EStateM.Result Stop (System σ) α} {e : Stop} {t : System σ}
    (h : r = .error e t) (reads : α → System σ → List Word) : behind r reads = [] := by
  rw [h]
  rfl

variable [Console σ]

/-! ## Searches -/

/-- Hands the words from an address on to `put`, up to the first that is zero and as long as `put`
asks for more. -/
def search (put : Word → MachineM σ Bool) : Nat → Word → MachineM σ Unit
  | 0, _ => throw .outOfFuel
  | fuel + 1, a => do
    let w ← readWord a
    if w = 0 then
      return
    if ← put w then
      search put fuel (a + 1)

/-- Writes the low byte of a word. -/
def putLow (w : Word) : MachineM σ Bool := do
  writeByte w.low
  return true

/-- Writes the bytes of a word, and asks for more if both are there. -/
def putBoth (w : Word) : MachineM σ Bool := do
  writeByte w.low
  if w.high = 0 then
    return false
  writeByte w.high
  return true

theorem putWords_eq_search (fuel : Nat) (a : Word) :
    (putWords fuel a : MachineM σ Unit) = search putLow fuel a := by
  induction fuel generalizing a with
  | zero => rfl
  | succ fuel ih =>
    simp only [putWords, search, putLow, bind_assoc, pure_bind, if_true, ih]

theorem putBytes_eq_search (fuel : Nat) (a : Word) :
    (putBytes fuel a : MachineM σ Unit) = search putBoth fuel a := by
  induction fuel generalizing a with
  | zero => rfl
  | succ fuel ih =>
    simp only [putBytes, search, putBoth, bind_assoc, ih]
    refine bind_congr fun w => ?_
    by_cases hw : w = 0
    · rw [if_pos hw, if_pos hw]
    · rw [if_neg hw, if_neg hw]
      refine bind_congr fun _ => ?_
      by_cases hhigh : w.high = 0
      · simp only [if_pos hhigh, pure_bind, Bool.false_eq_true, if_false]
      · simp only [if_neg hhigh, bind_assoc, pure_bind, if_true]

/-- The addresses at which a search reads. -/
def searched (put : Word → MachineM σ Bool) : Nat → Word → System σ → List Word
  | 0, _, _ => []
  | fuel + 1, a, s =>
    a :: behind (readWord a s) fun w t =>
      if w = 0 then []
      else behind (put w t) fun more u => if more then searched put fuel (a + 1) u else []

/-! ## Steps -/

/-- The addresses at which a service reads. -/
def Service.reads (fuel : Nat) (s : System σ) : Service → List Word
  | .putWords => searched putLow fuel (s.machine.registers.get 0) s
  | .putBytes => searched putBoth fuel (s.machine.registers.get 0) s
  | _ => []

/-- The addresses at which an instruction reads when it is performed in `s`. -/
def Instruction.reads (fuel : Nat) (s : System σ) : Instruction → List Word
  | .load _ offset => [s.machine.registers.pc + offset]
  | .loadIndirect _ offset =>
    let pointer := s.machine.registers.pc + offset
    pointer :: behind (readWord pointer s) fun a _ => [a]
  | .loadBase _ base offset => [s.machine.registers.get base + offset]
  | .storeIndirect _ offset => [s.machine.registers.pc + offset]
  | .trap vector =>
    match Service.ofVector? vector.toNat with
    | some service => service.reads fuel (linked s)
    | none => []
  | _ => []

/-- The addresses at which a step reads. -/
def stepReads (fuel : Nat) (s : System σ) : List Word :=
  if s.machine.isRunning then
    s.machine.registers.pc :: behind (readWord s.machine.registers.pc s) fun w u =>
      (Instruction.decode w).reads fuel (fetchedFrom s u)
  else []

/-! ## Runs -/

/-- The addresses at which a loop reads that repeats `body` at most `n` times. -/
def repeatedReads (body : MachineM σ Unit) (reads : System σ → List Word) :
    Nat → System σ → List Word
  | 0, _ => []
  | n + 1, s =>
    if s.machine.isRunning then
      reads s ++ behind (body s) fun _ t => repeatedReads body reads n t
    else []

/-- The addresses at which up to `n` steps read. -/
def stepsReads (fuel n : Nat) : System σ → List Word :=
  repeatedReads (step fuel) (stepReads fuel) n

/-- The addresses at which up to `n` slices read. -/
def slicesReads (fuel size : Nat) (signalWaiting : Bool) (n : Nat) : System σ → List Word :=
  repeatedReads (slice fuel size signalWaiting) (stepsReads fuel size) n

end LC3
