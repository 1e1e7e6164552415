/-!
# Sums of limited precision

Inside the machine every number is a word. From outside it is addressed with integers, of which 53
significant bits are kept: a sum of two of them is exact up to a magnitude of `2^53`, and beyond it
is rounded to the nearest integer that 53 bits and a power of two can express, a tie going to the
one whose 53 bits are even. Where words are added to words none of this can be seen.
-/

namespace LC3.Precision

/-- The number of significant bits that are kept. -/
def significantBits : Nat := 53

/-- Every integer up to here can be expressed. -/
def limit : Nat := 1 <<< significantBits

/-- The multiple of `unit` nearest to `n`; of two equally near ones the even multiple. -/
def toMultiple (unit n : Nat) : Nat :=
  let lower := n / unit
  let rest := n % unit
  if 2 * rest < unit ∨ 2 * rest = unit ∧ lower % 2 = 0 then
    lower * unit
  else
    (lower + 1) * unit

/-- The distance between neighbours among the numbers as long as `n` that can be expressed. -/
def spacing (n : Nat) : Nat := 1 <<< (n.log2 + 1 - significantBits)

/-- The nearest integer that can be expressed. -/
def round : Int → Int
  | .ofNat n => toMultiple (spacing n) n
  | .negSucc n => -(toMultiple (spacing (n + 1)) (n + 1) : Nat)

/-- The sum of two integers, rounded. -/
def add (a b : Int) : Int := round (a + b)

/-! ## Nearness -/

/-- `m` is a multiple of `unit` that is as near to `n` as one can be, and an even multiple if two
are equally near. -/
structure Rounds (unit : Nat) (n m : Int) : Prop where
  dvd : (unit : Int) ∣ m
  near : 2 * (m - n).natAbs ≤ unit
  even : 2 * (m - n).natAbs = unit → 2 * (unit : Int) ∣ m

theorem Rounds.neg {unit : Nat} {n m : Int} (h : Rounds unit n m) : Rounds unit (-n) (-m) := by
  have hdistance : (-m - -n).natAbs = (m - n).natAbs := by omega
  refine ⟨Int.dvd_neg.2 h.dvd, ?_, fun htie => Int.dvd_neg.2 (h.even ?_)⟩
  · rw [hdistance]
    exact h.near
  · rwa [hdistance] at htie

theorem toMultiple_rounds {unit : Nat} (n : Nat) (h : 0 < unit) :
    Rounds unit n (toMultiple unit n) := by
  have hsum : n / unit * unit + n % unit = n := Nat.div_add_mod' n unit
  have hrest := Nat.mod_lt n h
  have hsucc : (n / unit + 1) * unit = n / unit * unit + unit := Nat.succ_mul ..
  have heven {q : Nat} (hq : q % 2 = 0) : 2 * (unit : Int) ∣ (q * unit : Nat) :=
    Int.natCast_dvd_natCast.2 (Nat.mul_dvd_mul_right (Nat.dvd_of_mod_eq_zero hq) unit)
  unfold toMultiple
  dsimp only
  split
  case isTrue hlower =>
    refine ⟨Int.natCast_dvd_natCast.2 (Nat.dvd_mul_left ..), by omega, fun htie => heven ?_⟩
    omega
  case isFalse hupper =>
    refine ⟨Int.natCast_dvd_natCast.2 (Nat.dvd_mul_left ..), by omega, fun htie => heven ?_⟩
    omega

theorem spacing_pos (n : Nat) : 0 < spacing n := by
  rw [spacing, Nat.one_shiftLeft]
  exact Nat.two_pow_pos _

/-- Rounding is to the nearest, and to even. -/
theorem round_rounds (n : Int) : Rounds (spacing n.natAbs) n (round n) := by
  cases n with
  | ofNat n => exact toMultiple_rounds n (spacing_pos n)
  | negSucc n => exact (toMultiple_rounds (n + 1) (spacing_pos (n + 1))).neg

/-- A multiple of the unit stays. -/
theorem Rounds.eq_of_dvd {unit : Nat} {n m : Int} (h : Rounds unit n m) (hunit : 0 < unit)
    (hn : (unit : Int) ∣ n) : m = n := by
  have hdvd : unit ∣ (m - n).natAbs := Int.ofNat_dvd_left.1 (Int.dvd_sub h.dvd hn)
  have hnear := h.near
  have hzero : (m - n).natAbs = 0 := Nat.eq_zero_of_dvd_of_lt hdvd (by omega)
  omega

/-- What can be expressed is a multiple of its spacing. -/
theorem spacing_dvd_of_round_eq {n : Int} (h : round n = n) : (spacing n.natAbs : Int) ∣ n := by
  have hdvd := (round_rounds n).dvd
  rwa [h] at hdvd

theorem spacing_dvd {m n : Nat} (h : m.log2 ≤ n.log2) : spacing m ∣ spacing n := by
  rw [spacing, spacing, Nat.one_shiftLeft, Nat.one_shiftLeft]
  exact Nat.pow_dvd_pow 2 (by omega)

/-! ## Exactness -/

theorem spacing_of_lt {n : Nat} (h : n < limit) : spacing n = 1 := by
  have : n.log2 + 1 - significantBits = 0 := by
    by_cases hn : n = 0
    · simp [hn, significantBits]
    · unfold limit at h
      rw [Nat.one_shiftLeft] at h
      have := (Nat.log2_lt hn).2 h
      omega
  simp [spacing, this]

/-- Small integers can be expressed. -/
theorem round_of_natAbs_le {n : Int} (h : n.natAbs ≤ limit) : round n = n := by
  refine (round_rounds n).eq_of_dvd (spacing_pos _) ?_
  by_cases hn : n.natAbs < limit
  · rw [spacing_of_lt hn]
    exact Int.one_dvd n
  · rw [Int.ofNat_dvd_left, Nat.le_antisymm h (Nat.not_lt.1 hn)]
    decide

/-- Small sums are exact. -/
theorem add_of_natAbs_le {a b : Int} (h : (a + b).natAbs ≤ limit) :
    add a b = a + b := round_of_natAbs_le h

/-! ## Predecessors -/

/-- From the limit on only even numbers can be expressed. -/
theorem two_dvd_spacing {n : Nat} (h : limit ≤ n) : 2 ∣ spacing n := by
  have hlimit : 2 ^ 53 ≤ n := h
  have hlog : 53 ≤ n.log2 := (Nat.le_log2 (by omega)).2 hlimit
  have hbits : 1 ≤ n.log2 + 1 - significantBits := by
    rw [significantBits]
    omega
  rw [spacing, Nat.one_shiftLeft]
  exact Nat.pow_dvd_pow 2 hbits

/-- Beyond the limit a number that can be expressed is even. -/
theorem two_dvd_of_limit_lt {n : Int} (h : limit < n.natAbs) (hn : round n = n) : 2 ∣ n :=
  Int.dvd_trans (Int.natCast_dvd_natCast.2 (two_dvd_spacing (Nat.le_of_lt h)))
    (spacing_dvd_of_round_eq hn)

/-- Its predecessor is rounded back to the number itself, unless the even number before that is as
near and is the even multiple. -/
theorem add_neg_one_of_limit_lt {n : Int} (h : limit < n.natAbs) (hn : round n = n) :
    add n (-1) = n ∨ ¬4 ∣ n ∧ add n (-1) = n - 2 := by
  have htwo := two_dvd_of_limit_lt h hn
  -- Seen from the predecessor the number is still a multiple of the spacing.
  have hlog : (n + -1).natAbs.log2 ≤ n.natAbs.log2 := by
    have hbound : n.natAbs < 2 * 2 ^ n.natAbs.log2 := by
      rw [← Nat.pow_succ']
      exact Nat.lt_log2_self
    have hpred : (n + -1).natAbs < 2 ^ (n.natAbs.log2 + 1) := by
      rw [Nat.pow_succ']
      omega
    exact Nat.le_of_lt_succ ((Nat.log2_lt (by omega)).2 hpred)
  have hspacing : (spacing (n + -1).natAbs : Int) ∣ n :=
    Int.dvd_trans (Int.natCast_dvd_natCast.2 (spacing_dvd hlog)) (spacing_dvd_of_round_eq hn)
  have heven := two_dvd_spacing (n := (n + -1).natAbs) (by omega)
  have hpos := spacing_pos (n + -1).natAbs
  have hrounds : Rounds (spacing (n + -1).natAbs) (n + -1) (add n (-1)) := round_rounds _
  generalize spacing (n + -1).natAbs = unit at hspacing heven hpos hrounds
  generalize add n (-1) = m at hrounds
  obtain ⟨hdvd, hnear, htie⟩ := hrounds
  have hsteps : unit ∣ (m - n).natAbs := Int.ofNat_dvd_left.1 (Int.dvd_sub hdvd hspacing)
  by_cases hm : m = n
  · exact .inl hm
  · have hunit : unit ≤ (m - n).natAbs := Nat.le_of_dvd (by omega) hsteps
    obtain rfl : unit = 2 := by omega
    have hfour : (4 : Int) ∣ m := htie (by omega)
    exact .inr ⟨by omega, by omega⟩

end LC3.Precision
