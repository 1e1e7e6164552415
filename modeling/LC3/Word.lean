import LC3.Precision

/-!
# Machine words

Everything the machine stores, moves or computes is a 16-bit word, so `Word` is `BitVec 16` and the
arithmetic is arithmetic modulo `2^16`. Integers of any size enter the machine through
`Word.ofInt`, which keeps the residue, and leave it as an unsigned (`toNat`) or a signed (`signed`)
number.

`Word.widen` turns a short two's complement field into a word. It is defined for every integer and
every field width: the work is done in 32 bits, where a shift count is taken modulo 32, so that a
width that is no field width at all still has one definite answer. The position of the top bit is a
difference of limited precision.
-/

namespace LC3

/-- A 16-bit machine word: an instruction, a datum or an address. -/
abbrev Word := BitVec 16

namespace Word

/-! ## Integers and words -/

/-- The word that an integer stands for: its residue modulo `2^16`. -/
def ofInt (n : Int) : Word := BitVec.ofInt 16 n

/-- The number that a word stands for in two's complement: the top bit weighs `-2^15`. -/
def signed (w : Word) : Int :=
  if w.msb then (w.toNat : Int) - 0x10000 else w.toNat

/-- Copies the top bit of the low `bits` bits of `x` into every higher bit. Flipping the top bit
and subtracting its weight again borrows from the higher bits exactly when the bit was set. -/
def widen (x bits : Int) : Word :=
  let top : BitVec 32 := 1#32 <<< (Precision.add bits (-1) % 32).toNat
  let mask : BitVec 32 := (1#32 <<< (bits % 32).toNat) - 1#32
  (((BitVec.ofInt 32 x &&& mask) ^^^ top) - top).setWidth 16

@[simp]
theorem ofInt_toNat (w : Word) : ofInt w.toNat = w := by
  simp [ofInt]

theorem toNat_ofInt (n : Int) : (ofInt n).toNat = (n % 0x10000).toNat := by
  simp [ofInt]

/-! ## Bytes -/

/-- Bits 7 to 0. -/
def low (w : Word) : UInt8 := .ofNat w.toNat

/-- Bits 15 to 8. -/
def high (w : Word) : UInt8 := .ofNat (w.toNat / 256)

/-- The word with the given upper and lower half. -/
def ofBytes (upper lower : UInt8) : Word := upper.toBitVec ++ lower.toBitVec

theorem toNat_low (w : Word) : w.low.toNat = w.toNat % 256 := by
  simp [low]

theorem toNat_high (w : Word) : w.high.toNat = w.toNat / 256 := by
  have := w.isLt
  rw [high, UInt8.toNat_ofNat_of_lt' (by simp only [UInt8.size]; omega)]

theorem toNat_ofBytes (upper lower : UInt8) :
    (ofBytes upper lower).toNat = upper.toNat * 256 + lower.toNat := by
  have h := Nat.shiftLeft_add_eq_or_of_lt lower.toNat_lt upper.toNat
  rw [ofBytes, BitVec.toNat_append, UInt8.toNat_toBitVec, UInt8.toNat_toBitVec, ← h,
    Nat.shiftLeft_eq]

/-- A word is its two halves. -/
theorem ofBytes_high_low (w : Word) : ofBytes w.high w.low = w := by
  apply BitVec.eq_of_toNat_eq
  rw [toNat_ofBytes, toNat_high, toNat_low]
  omega

@[simp]
theorem low_ofBytes (upper lower : UInt8) : (ofBytes upper lower).low = lower := by
  apply UInt8.toNat_inj.1
  have := lower.toNat_lt
  rw [toNat_low, toNat_ofBytes]
  omega

@[simp]
theorem high_ofBytes (upper lower : UInt8) : (ofBytes upper lower).high = upper := by
  apply UInt8.toNat_inj.1
  have := lower.toNat_lt
  rw [toNat_high, toNat_ofBytes]
  omega

end Word

end LC3
