import LC3.Registers

/-!
# Fields of an instruction word

An instruction word is read as a handful of bit fields that overlap from one opcode to the next.
Register numbers, masks and the trap vector are taken as they stand; immediates and offsets are
widened to words on the way out, so whoever adds them adds words.

Every instruction is taken apart before it is executed, so a field is cut out by one division and
one remainder with fixed divisors. `bits3_eq` and its companions say which bits that are, and
`toInt_widened` says which number a widened field stands for.
-/

namespace LC3.Field

/-! ## Cutting -/

/-- The three bits above `2 ^ start`, which is given as the divisor. -/
def bits3 (divisor : Nat) (w : Word) : BitVec 3 :=
  .ofNatLT (w.toNat / divisor % 8) (Nat.mod_lt _ (by decide))

/-- The code of the opcode, bits 15 to 12. -/
def code (w : Word) : BitVec 4 := .ofNatLT (w.toNat / 0x1000 % 16) (Nat.mod_lt _ (by decide))

/-- The register that receives the result, or whose word is stored, bits 11 to 9. -/
def target (w : Word) : Register := bits3 0x200 w

/-- The register of the first operand, bits 8 to 6. -/
def left (w : Word) : Register := bits3 0x40 w

/-- The register that an address starts from, bits 8 to 6. -/
def base (w : Word) : Register := bits3 0x40 w

/-- The register of the second operand, bits 2 to 0. -/
def right (w : Word) : Register := bits3 1 w

/-- The conditions on which a branch is taken, bits 11 to 9. -/
def mask (w : Word) : BitVec 3 := bits3 0x200 w

/-- Whether the second operand is an immediate, bit 5. -/
def hasImmediate (w : Word) : Bool := w.getLsbD 5

/-- Whether a subroutine is given by an offset, bit 11. -/
def hasLongOffset (w : Word) : Bool := w.getLsbD 11

/-- The number of a trap service, bits 7 to 0. -/
def vector (w : Word) : BitVec 8 := .ofNatLT (w.toNat % 256) (Nat.mod_lt _ (by decide))

theorem bits3_eq (start : Nat) (w : Word) : bits3 (1 <<< start) w = w.extractLsb' start 3 := by
  apply BitVec.eq_of_toNat_eq
  simp [bits3, Nat.shiftRight_eq_div_pow, Nat.one_shiftLeft]

theorem code_eq (w : Word) : code w = w.extractLsb' 12 4 := by
  apply BitVec.eq_of_toNat_eq
  simp [code, Nat.shiftRight_eq_div_pow]

theorem vector_eq (w : Word) : vector w = w.extractLsb' 0 8 := by
  apply BitVec.eq_of_toNat_eq
  simp [vector]

/-! ## Widening -/

/-- The low bits of a word up to the one that weighs `weight`, as a two's complement number: the top
bit stands for all higher bits as well. -/
def widened (weight : Nat) (small : 0 < weight ∧ weight ≤ 0x8000) (w : Word) : Word :=
  let low := w.toNat % (2 * weight)
  have bound : low < 2 * weight := Nat.mod_lt _ (by omega)
  if low < weight then
    .ofNatLT low (by omega)
  else
    .ofNatLT (low + (0x10000 - 2 * weight)) (by omega)

/-- The immediate operand, bits 4 to 0. -/
def immediate (w : Word) : Word := widened 0x10 (by decide) w

/-- The offset from a base register, bits 5 to 0. -/
def baseOffset (w : Word) : Word := widened 0x20 (by decide) w

/-- The offset from the program counter, bits 8 to 0. -/
def pcOffset (w : Word) : Word := widened 0x100 (by decide) w

/-- The offset of a subroutine from the program counter, bits 10 to 0. -/
def longOffset (w : Word) : Word := widened 0x400 (by decide) w

/-- A widened field is a number between `-weight` and `weight`, and it is the field modulo twice the
weight. -/
theorem toInt_widened {weight : Nat} (small : 0 < weight ∧ weight ≤ 0x8000) (w : Word) :
    (widened weight small w).toInt = Int.bmod w.toNat (2 * weight) := by
  have bound : w.toNat % (2 * weight) < 2 * weight := Nat.mod_lt _ (by omega)
  unfold widened
  dsimp only
  rw [Int.bmod_def, ← Int.natCast_emod]
  split
  case isTrue h =>
    rw [BitVec.toInt_eq_toNat_cond, BitVec.toNat_ofNatLT]
    split <;> split <;> omega
  case isFalse h =>
    rw [BitVec.toInt_eq_toNat_cond, BitVec.toNat_ofNatLT]
    split <;> split <;> omega

end LC3.Field
