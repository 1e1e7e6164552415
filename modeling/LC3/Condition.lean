import LC3.Word

/-!
# Condition codes

The condition register holds one of three values, so it is an enumeration and not three bits. The
bits appear only where a branch compares its mask with the condition, and where the register is
shown as a word.
-/

namespace LC3

/-- The sign class of the last result. -/
inductive Condition where
  | positive
  | zero
  | negative
  deriving DecidableEq, Repr

namespace Condition

/-- The bit that stands for the condition in a branch mask. -/
def bit : Condition → BitVec 3
  | positive => 0b001
  | zero => 0b010
  | negative => 0b100

/-- The condition register as a word. -/
def toWord (c : Condition) : Word := c.bit.setWidth 16

/-- The sign class of a word: zero, or the sign that its top bit shows. -/
def ofWord (w : Word) : Condition :=
  if w = 0 then zero else if w.msb then negative else positive

/-- A branch is taken when its mask has the bit of the current condition. -/
def matchedBy (c : Condition) (mask : BitVec 3) : Bool := mask &&& c.bit != 0

@[simp]
theorem ofWord_eq_zero_iff (w : Word) : ofWord w = zero ↔ w = 0 := by
  unfold ofWord
  split
  · simp_all
  · split <;> simp_all

end Condition

end LC3
