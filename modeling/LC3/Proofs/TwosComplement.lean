import LC3.Instruction.Field
import LC3.Registers
import Mathlib.Data.Int.ModEq

/-!
# Two's complement

A number can be read as signed in two places: a word as a whole, and a field of a few bits on its
way to a word. Both come to the balanced remainder of the number, which lies as far below zero as
above. So widening is known for every integer and every width, the odd ones included: the width
counts modulo 32, a width beyond 16 bits leaves nothing to widen, and without a width nothing is
left. Only where the predecessor of a width is rounded is another bit taken for the top one.

An address is then a sum of integers. Where a field is negative the sum goes backward, and a word
that is added to a program counter cannot be told from the number that it stands for.
-/

namespace LC3

/-! ## Flipping a bit -/

theorem xor_two_pow_of_lt {j y : Nat} (h : y < 2 ^ j) : y ^^^ 2 ^ j = 2 ^ j + y := by
  apply Nat.eq_of_testBit_eq
  intro i
  rw [Nat.testBit_xor, Nat.testBit_two_pow]
  rcases Nat.lt_trichotomy i j with hij | rfl | hij
  · have hne : j ≠ i := Nat.ne_of_gt hij
    rw [Nat.testBit_two_pow_add_gt hij, decide_eq_false hne, Bool.xor_false]
  · rw [Nat.testBit_two_pow_add_eq, decide_eq_true rfl, Bool.xor_true]
  · have hne : j ≠ i := Nat.ne_of_lt hij
    have hpow : 2 ^ (j + 1) ≤ 2 ^ i := Nat.pow_le_pow_right (by decide) hij
    have hsum : 2 ^ j + y < 2 ^ i := by omega
    have hsmall : y < 2 ^ i := by omega
    rw [Nat.testBit_lt_two_pow hsum, Nat.testBit_lt_two_pow hsmall, decide_eq_false hne,
      Bool.xor_false]

/-- The balanced remainder modulo a power of two is the one representative between the bounds. -/
theorem eq_bmod_two_pow_iff {x v : Int} {j : Nat} :
    v = Int.bmod x (2 ^ (j + 1)) ↔ -2 ^ j ≤ v ∧ v < 2 ^ j ∧ v ≡ x [ZMOD 2 ^ (j + 1)] := by
  have hpos : 0 < 2 ^ (j + 1) := Nat.two_pow_pos _
  have hmodulus : ((2 ^ (j + 1) : Nat) : Int) = 2 ^ (j + 1) := Int.natCast_pow 2 (j + 1)
  have hdouble : (2 : Int) ^ (j + 1) = 2 * 2 ^ j := pow_succ' 2 j
  have hcongruent : v ≡ x [ZMOD 2 ^ (j + 1)] ↔ (2 : Int) ^ (j + 1) ∣ v - x :=
    Int.modEq_comm.trans Int.modEq_iff_dvd
  rw [eq_comm, Int.bmod_eq_iff hpos, hmodulus, hcongruent]
  constructor
  · rintro ⟨hlow, hhigh, hdvd⟩
    exact ⟨by omega, by omega, hdvd⟩
  · rintro ⟨hlow, hhigh, hdvd⟩
    exact ⟨by omega, by omega, hdvd⟩

/-- Flipping the top bit of a field and subtracting its weight makes the field signed. -/
theorem xor_sub_two_pow {j y : Nat} (h : y < 2 ^ (j + 1)) :
    ((y ^^^ 2 ^ j : Nat) : Int) - (2 ^ j : Nat) = Int.bmod y (2 ^ (j + 1)) := by
  have hdouble : (2 : Nat) ^ (j + 1) = 2 * 2 ^ j := pow_succ' 2 j
  have hweight : ((2 ^ j : Nat) : Int) = 2 ^ j := Int.natCast_pow 2 j
  by_cases hclear : y < 2 ^ j
  · have hvalue : ((y ^^^ 2 ^ j : Nat) : Int) - (2 ^ j : Nat) = y := by
      rw [xor_two_pow_of_lt hclear]
      omega
    rw [hvalue, eq_bmod_two_pow_iff]
    exact ⟨by omega, by omega, rfl⟩
  · obtain ⟨z, rfl⟩ := Nat.exists_eq_add_of_le (Nat.not_lt.1 hclear)
    have hz : z < 2 ^ j := by omega
    have hflip : (2 ^ j + z) ^^^ 2 ^ j = z := by
      rw [← xor_two_pow_of_lt hz, Nat.xor_assoc, Nat.xor_self, Nat.xor_zero]
    rw [hflip, eq_bmod_two_pow_iff, Int.modEq_iff_dvd]
    refine ⟨by omega, by omega, 1, ?_⟩
    have hmodulus : (2 : Int) ^ (j + 1) = 2 * 2 ^ j := pow_succ' 2 j
    omega

namespace Word

/-! ## Words as signed numbers -/

theorem signed_eq_toInt (w : Word) : w.signed = w.toInt := by
  rw [signed, BitVec.toInt_eq_msb_cond]
  rfl

theorem signed_ofInt (n : Int) : (ofInt n).signed = Int.bmod n (2 ^ 16) := by
  rw [signed_eq_toInt]
  exact BitVec.toInt_ofInt n

/-! ## Widening -/

/-- A difference of words may be formed on integers. -/
theorem ofInt_sub_toNat {n : Nat} (a b : BitVec n) :
    BitVec.ofInt n ((a.toNat : Int) - b.toNat) = a - b := by
  rw [Int.sub_eq_add_neg, BitVec.ofInt_add, BitVec.ofInt_neg, BitVec.ofInt_natCast,
    BitVec.ofInt_natCast, BitVec.ofNat_toNat, BitVec.ofNat_toNat, BitVec.setWidth_eq,
    BitVec.setWidth_eq, BitVec.sub_eq_add_neg]

theorem setWidth_ofInt {k n : Nat} (h : k ≤ n) (x : Int) :
    (BitVec.ofInt n x).setWidth k = BitVec.ofInt k x := by
  have hdvd : ((2 ^ k : Nat) : Int) ∣ (2 ^ n : Nat) :=
    Int.natCast_dvd_natCast.2 (Nat.pow_dvd_pow 2 h)
  apply BitVec.eq_of_toInt_eq
  rw [BitVec.toInt_setWidth, BitVec.toInt_ofInt, BitVec.toNat_ofInt, Int.toNat_of_nonneg
    (Int.emod_nonneg x (Int.natCast_ne_zero.2 (Nat.two_pow_pos n).ne')), ← Int.emod_bmod,
    Int.emod_emod_of_dvd x hdvd, Int.emod_bmod]

theorem toNat_one_shiftLeft {j : Nat} (hj : j < 32) : (1#32 <<< j).toNat = 2 ^ j := by
  have hpow : 2 ^ j < 2 ^ 32 := Nat.pow_lt_pow_right (by decide) hj
  rw [BitVec.toNat_shiftLeft, BitVec.toNat_one (by decide), Nat.one_shiftLeft,
    Nat.mod_eq_of_lt hpow]

/-- The mask of `k` bits cuts a number to them. -/
theorem toNat_masked (x : Int) {k : Nat} (hk : k < 32) :
    (BitVec.ofInt 32 x &&& (1#32 <<< k - 1#32)).toNat = (BitVec.ofInt k x).toNat := by
  have hone : 1 ≤ (1#32 <<< k).toNat := by
    rw [toNat_one_shiftLeft hk]
    exact Nat.one_le_two_pow
  have hmask : (1#32 <<< k - 1#32).toNat = 2 ^ k - 1 := by
    rw [BitVec.toNat_sub_of_le hone, toNat_one_shiftLeft hk]
    rfl
  rw [BitVec.toNat_and, hmask, Nat.and_two_pow_sub_one_eq_mod, ← BitVec.toNat_setWidth,
    setWidth_ofInt hk.le]

/-- Widening flips one bit of the low bits of a number, as many as the width says modulo 32, and
subtracts its weight. -/
theorem widen_eq_flip (x : Int) {bits : Int} {k j : Nat} (hbits : (bits % 32).toNat = k)
    (htop : (Precision.add bits (-1) % 32).toNat = j) :
    widen x bits =
      BitVec.ofInt 16 (((BitVec.ofInt k x).toNat ^^^ 2 ^ j : Nat) - (2 ^ j : Nat)) := by
  have hk : k < 32 := by omega
  have hj : j < 32 := by omega
  unfold widen
  dsimp only
  rw [hbits, htop, ← ofInt_sub_toNat, BitVec.toNat_xor, toNat_masked x hk, toNat_one_shiftLeft hj,
    setWidth_ofInt (by decide)]

/-- Where the flipped bit was clear nothing is extended. -/
theorem widen_eq_of_clear {x bits : Int} {k j : Nat} (hbits : (bits % 32).toNat = k)
    (htop : (Precision.add bits (-1) % 32).toNat = j)
    (hclear : (BitVec.ofInt k x).toNat ^^^ 2 ^ j = 2 ^ j + (BitVec.ofInt k x).toNat) :
    widen x bits = BitVec.ofInt 16 (BitVec.ofInt k x).toNat := by
  have hsum : ((2 ^ j + (BitVec.ofInt k x).toNat : Nat) : Int) - (2 ^ j : Nat) =
      (BitVec.ofInt k x).toNat := by omega
  rw [widen_eq_flip x hbits htop, hclear, hsum]

/-- Flipping a bit beyond a word cannot be seen in the word. -/
theorem ofInt_flip {j : Nat} (hj : 16 ≤ j) (y : Nat) :
    BitVec.ofInt 16 ((y ^^^ 2 ^ j : Nat) - (2 ^ j : Nat)) = BitVec.ofInt 16 y := by
  have hweight : BitVec.ofNat 16 (2 ^ j) = 0#16 := by
    apply BitVec.eq_of_toNat_eq
    rw [BitVec.toNat_ofNat, Nat.mod_eq_zero_of_dvd (Nat.pow_dvd_pow 2 hj)]
    rfl
  rw [Int.sub_eq_add_neg, BitVec.ofInt_add, BitVec.ofInt_neg, BitVec.ofInt_natCast,
    BitVec.ofInt_natCast, BitVec.ofInt_natCast, BitVec.ofNat_xor, hweight, BitVec.xor_zero,
    BitVec.neg_zero, BitVec.add_zero]

section Widths

variable {x bits : Int} {k : Nat} (hbits : (bits % 32).toNat = k)

include hbits

theorem widen_of_zero (h : k = 0) : widen x bits = 0 := by
  subst h
  rw [widen_eq_of_clear hbits rfl]
  · exact congrArg (BitVec.ofInt 16) (congrArg Nat.cast (BitVec.toNat_of_zero_length rfl _))
  · rw [BitVec.toNat_of_zero_length rfl, Nat.zero_xor, Nat.add_zero]

/-- As long as the width is small, widening is sign extension of the low bits. -/
theorem widen_eq (hsmall : bits.natAbs ≤ Precision.limit) :
    widen x bits = (BitVec.ofInt k x).signExtend 16 := by
  cases k with
  | zero =>
    rw [widen_of_zero hbits rfl, BitVec.signExtend, BitVec.toInt_zero_length]
    rfl
  | succ j =>
    have hexact : Precision.add bits (-1) = bits + -1 := by
      refine Precision.add_of_natAbs_le ?_
      have hlimit : (Precision.limit : Int) % 32 = 0 := rfl
      omega
    have htop : (Precision.add bits (-1) % 32).toNat = j := by
      rw [hexact]
      omega
    have hfield := (BitVec.ofInt (j + 1) x).isLt
    rw [widen_eq_flip x hbits htop, xor_sub_two_pow hfield, ← BitVec.toInt_eq_toNat_bmod]
    rfl

theorem toInt_widen (hsmall : bits.natAbs ≤ Precision.limit) :
    (widen x bits).toInt = Int.bmod x (2 ^ min 16 k) := by
  have hdvd : 2 ^ min 16 k ∣ 2 ^ k := Nat.pow_dvd_pow 2 (Nat.min_le_right _ _)
  rw [widen_eq hbits hsmall, BitVec.toInt_signExtend, BitVec.toInt_ofInt,
    Int.bmod_bmod_of_dvd hdvd]

variable (hround : Precision.round bits = bits)

include hround

/-- Beyond the limit the bit that is flipped is not the top bit of the field: it is the next one, or
the one below. -/
theorem flipped_of_limit_lt (hlarge : Precision.limit < bits.natAbs) (hk : 1 ≤ k) :
    ∃ j, (Precision.add bits (-1) % 32).toNat = j ∧ 2 ∣ k ∧ (j = k ∨ j + 2 = k ∧ ¬4 ∣ k) := by
  have htwo := Precision.two_dvd_of_limit_lt hlarge hround
  refine ⟨_, rfl, by omega, ?_⟩
  rcases Precision.add_neg_one_of_limit_lt hlarge hround with hsame | ⟨hfour, hbefore⟩
  · rw [hsame]
    exact .inl hbits
  · rw [hbefore]
    exact .inr ⟨by omega, by omega⟩

/-- A width of a word or more leaves the word. -/
theorem widen_of_le (h : 16 ≤ k) : widen x bits = ofInt x := by
  by_cases hsmall : bits.natAbs ≤ Precision.limit
  · apply BitVec.eq_of_toInt_eq
    rw [toInt_widen hbits hsmall, Nat.min_eq_left h]
    exact (BitVec.toInt_ofInt x).symm
  · obtain ⟨j, htop, htwo, hj⟩ := flipped_of_limit_lt hbits hround (Nat.lt_of_not_le hsmall)
      (by omega)
    rw [widen_eq_flip x hbits htop, ofInt_flip (by omega), BitVec.ofInt_natCast,
      BitVec.ofNat_toNat, setWidth_ofInt h]
    rfl

/-- A width from 1 to 16 makes a signed number of so many bits, as long as its predecessor can be
expressed or the number has all bits of a word. -/
theorem eq_signed_widen_iff {v : Int} (h : 1 ≤ k ∧ k ≤ 16)
    (hexact : bits.natAbs ≤ Precision.limit ∨ k = 16) :
    v = (widen x bits).signed ↔ -2 ^ (k - 1) ≤ v ∧ v < 2 ^ (k - 1) ∧ v ≡ x [ZMOD 2 ^ k] := by
  have hsigned : (widen x bits).signed = Int.bmod x (2 ^ k) := by
    rcases hexact with hsmall | rfl
    · rw [signed_eq_toInt, toInt_widen hbits hsmall, Nat.min_eq_right h.2]
    · rw [widen_of_le hbits hround (Nat.le_refl _), signed_ofInt]
  obtain ⟨j, rfl⟩ : ∃ j, k = j + 1 := ⟨k - 1, by omega⟩
  rw [hsigned, Nat.add_sub_cancel, eq_bmod_two_pow_iff]

/-- Where the predecessor of a width cannot be expressed, the least negative field is taken for a
positive one. -/
theorem signed_widen_two_pow (h : 1 ≤ k ∧ k ≤ 15) (hlarge : Precision.limit < bits.natAbs) :
    (widen (2 ^ (k - 1)) bits).signed = 2 ^ (k - 1) := by
  obtain ⟨j, htop, -, hj⟩ := flipped_of_limit_lt hbits hround hlarge h.1
  obtain ⟨i, rfl⟩ : ∃ i, k = i + 1 := ⟨k - 1, by omega⟩
  have hcast : (2 : Int) ^ i = (2 ^ i : Nat) := (Int.natCast_pow 2 i).symm
  have hfield : (BitVec.ofInt (i + 1) (2 ^ i : Nat)).toNat = 2 ^ i := by
    have hlt : 2 ^ i < 2 ^ (i + 1) := Nat.pow_lt_pow_right (by decide) (by omega)
    rw [BitVec.ofInt_natCast, BitVec.toNat_ofNat, Nat.mod_eq_of_lt hlt]
  have hclear : 2 ^ i ^^^ 2 ^ j = 2 ^ j + 2 ^ i := by
    rcases Nat.lt_or_ge i j with hij | hji
    · exact xor_two_pow_of_lt (Nat.pow_lt_pow_right (by decide) hij)
    · have hlt : 2 ^ j < 2 ^ i := Nat.pow_lt_pow_right (by decide) (by omega)
      rw [Nat.xor_comm, xor_two_pow_of_lt hlt, Nat.add_comm]
  have hbound : 2 ^ i < 2 ^ 15 := Nat.pow_lt_pow_right (by decide) (by omega)
  rw [Nat.add_sub_cancel, hcast, widen_eq_of_clear hbits htop (by rw [hfield, hclear]), hfield]
  exact (signed_ofInt _).trans (eq_bmod_two_pow_iff.2 ⟨by omega, by omega, rfl⟩).symm

end Widths

/-- The widened fields of an instruction. -/
theorem widened_eq_widen {weight k : Nat} (small : 0 < weight ∧ weight ≤ 0x8000) (hk : k ≤ 16)
    (hweight : 2 * weight = 2 ^ k) (w : Word) :
    Field.widened weight small w = widen w.toNat k := by
  have hbits : ((k : Int) % 32).toNat = k := by omega
  have hsmall : (k : Int).natAbs ≤ Precision.limit := by
    have hlimit : 16 ≤ Precision.limit := by decide
    omega
  apply BitVec.eq_of_toInt_eq
  rw [Field.toInt_widened, toInt_widen hbits hsmall, Nat.min_eq_right hk, hweight]

/-- A sum of integers with a widened field is exact, whichever sign the field has. -/
theorem ofInt_add_widen {pc : Int} (hpc : pc.natAbs ≤ 2 ^ 52) (x : Int) {b : Nat} (hb : b ≤ 16) :
    ofInt (Precision.add pc (widen x b).toNat) = ofInt (pc + (BitVec.ofInt b x).toInt) := by
  have hlimit : 2 ^ 52 + 65536 ≤ Precision.limit := by decide
  have hbits : ((b : Int) % 32).toNat = b := by omega
  have hsmall : (b : Int).natAbs ≤ Precision.limit := by omega
  have hexact : (pc + (widen x b).toNat).natAbs ≤ Precision.limit := by
    have hword := (widen x b).isLt
    omega
  have hfield : ofInt (widen x b).toNat = ofInt (BitVec.ofInt b x).toInt := by
    rw [ofInt_toNat, widen_eq hbits hsmall]
    rfl
  rw [Precision.add_of_natAbs_le hexact]
  unfold ofInt at hfield ⊢
  rw [BitVec.ofInt_add, BitVec.ofInt_add, hfield]

end Word

/-- Where a branch goes is a distance from the program counter. -/
theorem Registers.jump_add (rs : Registers) (offset : Word) :
    rs.jump (rs.pc + offset) = rs.advance offset.signed := by
  have hexact : ((rs.pc.toNat : Int) + offset.signed).natAbs ≤ Precision.limit := by
    have hlimit : 131072 ≤ Precision.limit := by decide
    have hpc := rs.pc.isLt
    have hoffset := offset.isLt
    unfold Word.signed
    split <;> omega
  unfold advance
  rw [Precision.add_of_natAbs_le hexact, Word.signed_eq_toInt, Word.ofInt, BitVec.ofInt_add,
    BitVec.ofInt_toInt, BitVec.ofInt_natCast, BitVec.ofNat_toNat, BitVec.setWidth_eq]

/-! ## Sign classes -/

theorem Word.signed_neg_iff (w : Word) : w.signed < 0 ↔ w.msb = true := by
  have hw := w.isLt
  unfold signed
  split
  case isTrue hmsb => exact iff_of_true (by omega) hmsb
  case isFalse hmsb => exact iff_of_false (by omega) hmsb

theorem Word.signed_eq_zero_iff (w : Word) : w.signed = 0 ↔ w = 0 := by
  rw [signed_eq_toInt, ← BitVec.toInt_inj]
  rfl

/-- The condition is the sign of the signed number. -/
theorem Condition.ofWord_sign (w : Word) :
    (ofWord w = negative ↔ w.signed < 0) ∧ (ofWord w = zero ↔ w.signed = 0) ∧
      (ofWord w = positive ↔ 0 < w.signed) := by
  have hneg := w.signed_neg_iff
  have hzero := w.signed_eq_zero_iff
  unfold ofWord
  by_cases hw : w = 0
  · have hsigned : w.signed = 0 := hzero.2 hw
    rw [if_pos hw]
    exact ⟨iff_of_false nofun (by omega), iff_of_true rfl hsigned, iff_of_false nofun (by omega)⟩
  · have hsigned : w.signed ≠ 0 := fun h => hw (hzero.1 h)
    rw [if_neg hw]
    by_cases hmsb : w.msb = true
    · have hlt : w.signed < 0 := hneg.2 hmsb
      rw [if_pos hmsb]
      exact ⟨iff_of_true rfl hlt, iff_of_false nofun hsigned, iff_of_false nofun (by omega)⟩
    · have hle : ¬w.signed < 0 := fun h => hmsb (hneg.1 h)
      rw [if_neg hmsb]
      exact ⟨iff_of_false nofun hle, iff_of_false nofun hsigned, iff_of_true rfl (by omega)⟩

namespace Word

/-- Reading as signed and judging are exact on all integers, and so is widening as long as the
predecessor of the width can be expressed. A width counts modulo 32. From 1 to 16 it gives the one
number of so many signed bits that leaves the same remainder; beyond that the word stays as it is,
and a width of nothing gives zero. Widths beyond the limit are no exception, apart from those up to
15, for which the least negative field is taken for a positive one. A word read as signed is the one
number between the bounds that leaves its remainder, and its condition is the sign of that number.
Therefore an address at an offset is exact, forward and backward, and so are the fields of an
instruction, which are widened in this way, and the branches that go by them. -/
theorem signed_arithmetic_exact (x bits n : Int) {k : Nat} (hk : (bits % 32).toNat = k)
    (hround : Precision.round bits = bits) :
    (widen x bits).toNat ≤ 65535 ∧
      (1 ≤ k ∧ k ≤ 16 → bits.natAbs ≤ 2 ^ 53 ∨ k = 16 → ∀ v, v = (widen x bits).signed ↔
        -2 ^ (k - 1) ≤ v ∧ v < 2 ^ (k - 1) ∧ v ≡ x [ZMOD 2 ^ k]) ∧
      (1 ≤ k ∧ k ≤ 15 → 2 ^ 53 < bits.natAbs →
        (widen (2 ^ (k - 1)) bits).signed = 2 ^ (k - 1)) ∧
      (17 ≤ k ∧ k ≤ 31 → widen x bits = ofInt x) ∧
      (k = 0 → widen x bits = 0) ∧
      (∀ v, v = (ofInt n).signed ↔ -32768 ≤ v ∧ v ≤ 32767 ∧ v ≡ n [ZMOD 2 ^ 16]) ∧
      (Condition.ofWord (ofInt n) = .negative ↔ (ofInt n).signed < 0) ∧
      (Condition.ofWord (ofInt n) = .zero ↔ (ofInt n).signed = 0) ∧
      (Condition.ofWord (ofInt n) = .positive ↔ 0 < (ofInt n).signed) ∧
      (∀ (pc : Int) (b : Nat), pc.natAbs ≤ 2 ^ 52 → 1 ≤ b ∧ b ≤ 16 →
        ((ofInt (Precision.add pc (widen x b).toNat)).toNat : Int) =
          (pc + (BitVec.ofInt b x).toInt) % 2 ^ 16) ∧
      (∀ w : Word, Field.immediate w = widen w.toNat 5 ∧ Field.baseOffset w = widen w.toNat 6 ∧
        Field.pcOffset w = widen w.toNat 9 ∧ Field.longOffset w = widen w.toNat 11) ∧
      ∀ (rs : Registers) (offset : Word), rs.jump (rs.pc + offset) = rs.advance offset.signed := by
  have hword := (widen x bits).isLt
  obtain ⟨hnegative, hzero, hpositive⟩ := Condition.ofWord_sign (ofInt n)
  refine ⟨by omega, fun hfield hexact v => eq_signed_widen_iff hk hround hfield hexact,
    fun hfield hlarge => signed_widen_two_pow hk hround hfield hlarge,
    fun hwhole => widen_of_le hk hround (by omega), fun hnothing => widen_of_zero hk hnothing,
    fun v => ?_, hnegative, hzero, hpositive,
    fun pc b hpc hb => ?_, fun w => ⟨?_, ?_, ?_, ?_⟩, Registers.jump_add⟩
  · rw [signed_ofInt, eq_bmod_two_pow_iff]
    constructor
    · rintro ⟨hlow, hhigh, hcongruent⟩
      exact ⟨hlow, by omega, hcongruent⟩
    · rintro ⟨hlow, hhigh, hcongruent⟩
      exact ⟨hlow, by omega, hcongruent⟩
  · rw [ofInt_add_widen hpc x hb.2, toNat_ofInt]
    omega
  · exact widened_eq_widen (by decide) (by decide) rfl w
  · exact widened_eq_widen (by decide) (by decide) rfl w
  · exact widened_eq_widen (by decide) (by decide) rfl w
  · exact widened_eq_widen (by decide) (by decide) rfl w

theorem signed_arithmetic_exact_minusOne :
    (widen 0x1ff (-23)).signed = -1 ∧ (widen (2 ^ 1) (2 ^ 53 + 2)).signed = 2 ^ 1 ∧
      widen 0x1ff (-1) = ofInt 0x1ff ∧ widen 0x1ff 32 = 0 ∧
      ((ofInt (Precision.add 0x3000 (widen 0x1ff (9 : Nat)).toNat)).toNat : Int) = 0x2fff := by
  obtain ⟨-, hfield, -⟩ := signed_arithmetic_exact 0x1ff (-23) 0 rfl (by decide)
  obtain ⟨-, -, hlarge, -⟩ := signed_arithmetic_exact 0 (2 ^ 53 + 2) 0 rfl (by decide +kernel)
  obtain ⟨-, -, -, hwhole, -⟩ := signed_arithmetic_exact 0x1ff (-1) 0 rfl (by decide)
  obtain ⟨-, -, -, -, hnothing, -, -, -, -, haddress, -⟩ :=
    signed_arithmetic_exact 0x1ff 32 0 rfl (by decide)
  have hminus := (hfield (by decide) (.inl (by decide)) (-1)).2 (by decide)
  exact ⟨hminus.symm, hlarge (by decide) (by decide), hwhole (by decide), hnothing (by decide),
    haddress 0x3000 9 (by decide) (by decide)⟩

/-- A width of two bits beyond the limit does not make a signed number of two bits: `0b10` stays 2,
which is no such number. -/
theorem not_signed_widen_beyond_limit :
    Precision.round (2 ^ 53 + 2) = 2 ^ 53 + 2 ∧ ((2 ^ 53 + 2 : Int) % 32).toNat = 2 ∧
      widen 2 (2 ^ 53 + 2) = 2 ∧
      ¬∀ v : Int, v = (widen 2 (2 ^ 53 + 2)).signed ↔
        -2 ^ (2 - 1) ≤ v ∧ v < 2 ^ (2 - 1) ∧ v ≡ 2 [ZMOD 2 ^ 2] := by
  have hwidened : widen 2 (2 ^ 53 + 2) = 2 := by decide +kernel
  refine ⟨by decide +kernel, by decide, hwidened, fun hall => ?_⟩
  have htwo := (hall 2).1 (by rw [hwidened]; decide)
  exact absurd htwo.2.1 (by decide)

end Word

end LC3
