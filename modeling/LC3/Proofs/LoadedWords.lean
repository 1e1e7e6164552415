import LC3.Proofs.Loading
import Mathlib.Data.Int.ModEq
import Mathlib.Order.Lattice.Nat

/-!
# What a list of words leaves in memory

Words may be loaded behind any integer, and so many of them that they run past the end of memory or
lap it. All that matters is which positions meet in a cell: those behind the origin that leave the
remainder of its address. The cell holds the word of the greatest one. Hence a list can be loaded in
parts, each behind the end of the one before it.
-/

namespace LC3.Memory

variable {m : Memory} {origin a : Int} {n position : Nat}

theorem ofInt_eq_iff {b : Int} : Word.ofInt a = Word.ofInt b ↔ a ≡ b [ZMOD 2 ^ 16] := by
  rw [← BitVec.toNat_inj, Word.toNat_ofInt, Word.toNat_ofInt]
  unfold Int.ModEq
  omega

/-- The positions, of `n` behind an origin, whose words go to the cell of an address. -/
def positions (origin : Int) (n : Nat) (a : Int) : Set Nat :=
  {i | i < n ∧ origin + i ≡ a [ZMOD 2 ^ 16]}

/-- If any position goes to a cell, one is the greatest. -/
theorem exists_isGreatest_positions {i : Nat} (h : i ∈ positions origin n a) :
    ∃ j, IsGreatest (positions origin n a) j := by
  have hbound : BddAbove (positions origin n a) := ⟨n, fun j hj => hj.1.le⟩
  exact ⟨_, Nat.sSup_mem ⟨i, h⟩ hbound, fun j hj => le_csSup hbound hj⟩

/-- As long as sums are exact, a position goes to the cell that its sum with the origin leaves. -/
theorem address_eq_iff (hexact : origin.natAbs + n ≤ Precision.limit) {i : Nat} (hi : i < n) :
    address origin i = .ofInt a ↔ i ∈ positions origin n a := by
  have hsum : (origin + i).natAbs ≤ Precision.limit := by omega
  rw [address, Precision.add_of_natAbs_le hsum, ofInt_eq_iff]
  exact (and_iff_right hi).symm

/-- Positions may be counted from another origin. -/
theorem loadFrom_add (m : Memory) (origin : Int) (n position : Nat) (ws : List Word) :
    m.loadFrom origin (n + position) ws = m.loadFrom (origin + n) position ws := by
  induction ws generalizing m position with
  | nil => rfl
  | cons w ws ih =>
    have haddress : address origin (n + position) = address (origin + n) position := by
      unfold address Precision.add
      rw [Int.natCast_add, Int.add_assoc]
    unfold loadFrom
    rw [haddress, Nat.add_assoc, ih]

theorem load_append (m : Memory) (origin : Int) (xs ys : List Word) :
    m.load origin (xs ++ ys) = (m.load origin xs).load (origin + xs.length) ys := by
  unfold load
  rw [loadFrom_append, Nat.zero_add]
  exact loadFrom_add (m.loadFrom origin 0 xs) origin xs.length 0 ys

/-- Behind a list of words that was loaded, each cell holds the word at the greatest position that
goes to it, or what it held before if there is none. To load one list behind another is to load the
two as one. This is so for every origin, below zero as well, and for lists of every length, as long
as the sums of the origin and the positions are exact. -/
theorem load_leaves_greatest (m : Memory) (origin : Int) (ws : List Int)
    (hexact : origin.natAbs + ws.length ≤ Precision.limit) :
    let loaded := m.load origin (ws.map .ofInt)
    (∀ a i, IsGreatest (positions origin ws.length a) i →
      ∃ w, ws[i]? = some w ∧ ((loaded.read (.ofInt a)).toNat : Int) = w % 2 ^ 16) ∧
      (∀ a, (¬∃ i, IsGreatest (positions origin ws.length a) i) →
        loaded.read (.ofInt a) = m.read (.ofInt a)) ∧
      ∀ xs ys, xs ++ ys = ws →
        loaded = (m.load origin (xs.map .ofInt)).load (origin + xs.length) (ys.map .ofInt) := by
  intro loaded
  have hlength : (ws.map Word.ofInt).length = ws.length := List.length_map _
  refine ⟨fun a i hi => ?_, fun a hnone => ?_, fun xs ys hsplit => ?_⟩
  · have hlt : i < ws.length := hi.1.1
    have hword : (ws.map Word.ofInt)[i]? = some (.ofInt ws[i]) := by
      rw [List.getElem?_map, List.getElem?_eq_getElem hlt]
      rfl
    have haddress : address origin (0 + i) = .ofInt a := by
      rw [Nat.zero_add, address_eq_iff hexact hlt]
      exact hi.1
    have hlast : ∀ k, i < k → k < (ws.map Word.ofInt).length →
        address origin (0 + k) ≠ .ofInt a := by
      intro k hik hk hmeets
      rw [hlength] at hk
      rw [Nat.zero_add, address_eq_iff hexact hk] at hmeets
      exact absurd (hi.2 hmeets) (Nat.not_le.2 hik)
    have hread : loaded.read (.ofInt a) = .ofInt ws[i] :=
      read_loadFrom_of_last hword haddress hlast
    refine ⟨ws[i], List.getElem?_eq_getElem hlt, ?_⟩
    rw [hread, Word.toNat_ofInt]
    omega
  · refine read_loadFrom_of_none fun k hk hmeets => hnone ?_
    rw [hlength] at hk
    rw [Nat.zero_add, address_eq_iff hexact hk] at hmeets
    exact exists_isGreatest_positions hmeets
  · subst hsplit
    have happend := m.load_append origin (xs.map Word.ofInt) (ys.map Word.ofInt)
    rwa [← List.map_append, List.length_map] at happend

/-- More words than there are cells: the last one falls on the first. -/
def lapping : List Int := List.replicate 65536 7 ++ [-2]

theorem length_lapping : lapping.length = 65537 := by
  rw [lapping, List.length_append, List.length_replicate, List.length_singleton]

theorem lapping_last : lapping[65536]? = some (-2) := by
  rw [lapping, List.getElem?_append_right (by rw [List.length_replicate]), List.length_replicate]
  rfl

theorem load_leaves_greatest_lapping :
    (((blank.load (-1) (lapping.map .ofInt)).read (.ofInt 65535)).toNat : Int) = 65534 ∧
      (blank.load (-1) ([5, 6].map .ofInt)).read (.ofInt 1) = 0 ∧
      blank.load (-1) ([5, 6].map .ofInt) =
        (blank.load (-1) ([5].map .ofInt)).load 0 ([6].map .ofInt) := by
  obtain ⟨hlast, -, -⟩ := load_leaves_greatest blank (-1) lapping (by rw [length_lapping]; decide)
  obtain ⟨-, hnone, happend⟩ := load_leaves_greatest blank (-1) [5, 6] (by decide)
  have hgreatest : IsGreatest (positions (-1) lapping.length 65535) 65536 := by
    rw [length_lapping]
    exact ⟨⟨by decide, by decide⟩, fun j hj => Nat.le_of_lt_succ hj.1⟩
  obtain ⟨w, hw, hread⟩ := hlast 65535 65536 hgreatest
  obtain rfl : w = -2 := Option.some.inj (hw.symm.trans lapping_last)
  refine ⟨hread, ?_, happend [5] [6] rfl⟩
  have hfree : ¬∃ i, IsGreatest (positions (-1) [5, 6].length 1) i := by
    rintro ⟨i, ⟨hi, hmeets⟩, -⟩
    have hsmall : i < 2 := hi
    unfold Int.ModEq at hmeets
    omega
  exact (hnone 1 hfree).trans (read_blank _)

end LC3.Memory
