import LC3.Condition
import LC3.Precision

/-!
# Registers

Eight general registers, the program counter and the condition register. A general register is
named by the 3-bit field that selects it in an instruction, so every field value names one.

The condition register has no setter of its own: it only changes by judging a general register. It
is kept twice, as the sign class that a branch compares its mask with and as the word that is shown
beside the others. Nothing in the type keeps the two together; that `judge` writes both does, and
registers that came about by the operations below are `Coherent`.
-/

namespace LC3

/-- The number of a general register. -/
abbrev Register := BitVec 3

/-- The register that an integer selects: its low three bits. -/
def Register.ofInt (n : Int) : Register := BitVec.ofInt 3 n

/-- The contents of all registers. -/
structure Registers where
  /-- The general registers, R0 to R7. -/
  general : Vector Word 8
  /-- The address of the next instruction. -/
  pc : Word
  /-- The sign class of the last judged result. -/
  condition : Condition
  /-- The condition register as a word. -/
  conditionWord : Word
  deriving DecidableEq

namespace Registers

/-- All registers zero and the condition accordingly. -/
def initial (pc : Word) : Registers :=
  ⟨Vector.replicate 8 0, pc, .zero, Condition.zero.toWord⟩

/-- The word in a general register. -/
def get (rs : Registers) (r : Register) : Word := rs.general[r.toNat]

/-- Replaces the word in a general register; the condition stays. -/
def set (rs : Registers) (r : Register) (w : Word) : Registers :=
  { rs with general := rs.general.set r.toNat w }

/-- Moves the program counter. -/
def jump (rs : Registers) (target : Word) : Registers := { rs with pc := target }

/-- Moves the program counter by a distance. -/
def advance (rs : Registers) (distance : Int) : Registers :=
  rs.jump (.ofInt (Precision.add rs.pc.toNat distance))

/-- Sets the condition, in both places, to the sign class of a general register. -/
def judge (rs : Registers) (r : Register) : Registers :=
  let condition := Condition.ofWord (rs.get r)
  { rs with condition, conditionWord := condition.toWord }

/-- Stores a result and judges it. -/
def accept (rs : Registers) (r : Register) (w : Word) : Registers := (rs.set r w).judge r

/-- All ten registers as words: R0 to R7, the program counter, the condition. -/
def snapshot (rs : Registers) : List Word := rs.general.toList ++ [rs.pc, rs.conditionWord]

/-- The word that is shown for the condition is the condition's. -/
def Coherent (rs : Registers) : Prop := rs.conditionWord = rs.condition.toWord

theorem get_set (rs : Registers) (r q : Register) (w : Word) :
    (rs.set r w).get q = if r = q then w else rs.get q := by
  simp only [get, set, Vector.getElem_set, BitVec.toNat_inj]

@[simp]
theorem get_set_self (rs : Registers) (r : Register) (w : Word) : (rs.set r w).get r = w := by
  simp [get_set]

@[simp]
theorem pc_set (rs : Registers) (r : Register) (w : Word) : (rs.set r w).pc = rs.pc := rfl

@[simp]
theorem condition_set (rs : Registers) (r : Register) (w : Word) :
    (rs.set r w).condition = rs.condition := rfl

@[simp]
theorem conditionWord_set (rs : Registers) (r : Register) (w : Word) :
    (rs.set r w).conditionWord = rs.conditionWord := rfl

@[simp]
theorem get_jump (rs : Registers) (target : Word) (r : Register) :
    (rs.jump target).get r = rs.get r := rfl

@[simp]
theorem get_judge (rs : Registers) (q r : Register) : (rs.judge q).get r = rs.get r := rfl

theorem condition_accept (rs : Registers) (r : Register) (w : Word) :
    (rs.accept r w).condition = .ofWord w := by
  simp [accept, judge]

theorem coherent_initial (pc : Word) : (initial pc).Coherent := rfl

theorem Coherent.set {rs : Registers} (h : rs.Coherent) (r : Register) (w : Word) :
    (rs.set r w).Coherent := h

theorem Coherent.jump {rs : Registers} (h : rs.Coherent) (target : Word) :
    (rs.jump target).Coherent := h

theorem coherent_judge (rs : Registers) (r : Register) : (rs.judge r).Coherent := rfl

end Registers

end LC3
