import LC3.Precision
import LC3.Word

/-!
# Memory

One cell for each of the `2^16` addresses. An address is a word, so no access can be out of range
and address arithmetic wraps around by itself. Device registers are the machine's business; here
every cell is plain storage.

Words are loaded behind an origin, which is any integer. The address of each is the origin plus its
position, summed as an integer first and made a word last.
-/

namespace LC3

/-- The contents of all cells, by address. -/
structure Memory where
  /-- Cell `a` holds the word at address `a`. -/
  cells : Vector Word 0x10000
  deriving DecidableEq

namespace Memory

/-- The number of cells. -/
def size : Nat := 0x10000

/-- All cells hold zero. -/
def blank : Memory := ⟨Vector.replicate 0x10000 0⟩

/-- The word at an address. -/
def read (m : Memory) (a : Word) : Word := m.cells[a.toNat]

/-- Replaces the word at an address. -/
def write (m : Memory) (a w : Word) : Memory := ⟨m.cells.set a.toNat w⟩

/-- The address of a position behind an origin. -/
def address (origin : Int) (position : Nat) : Word := .ofInt (Precision.add origin position)

/-- Writes words to the positions from `position` on behind an origin, in order. Where two words
fall on one cell the later one stays. -/
def loadFrom (m : Memory) (origin : Int) (position : Nat) : List Word → Memory
  | [] => m
  | w :: ws => (m.write (address origin position) w).loadFrom origin (position + 1) ws

/-- Writes words to the positions behind an origin, in order. -/
def load (m : Memory) (origin : Int) (ws : List Word) : Memory := m.loadFrom origin 0 ws

@[simp]
theorem read_blank (a : Word) : blank.read a = 0 := by
  simp [read, blank]

theorem read_write (m : Memory) (a b w : Word) :
    (m.write a w).read b = if a = b then w else m.read b := by
  simp only [read, write, Vector.getElem_set, BitVec.toNat_inj]

@[simp]
theorem read_write_self (m : Memory) (a w : Word) : (m.write a w).read a = w := by
  simp [read_write]

theorem read_write_of_ne {a b : Word} (m : Memory) (w : Word) (h : a ≠ b) :
    (m.write a w).read b = m.read b := by
  simp [read_write, h]

theorem ext_read {m n : Memory} (h : ∀ a, m.read a = n.read a) : m = n := by
  cases m with | mk c => cases n with | mk d =>
  congr
  apply Vector.ext
  intro i hi
  simpa [read, Nat.mod_eq_of_lt hi] using h (BitVec.ofNat 16 i)

@[simp]
theorem loadFrom_nil (m : Memory) (origin : Int) (position : Nat) :
    m.loadFrom origin position [] = m := rfl

theorem loadFrom_append (m : Memory) (origin : Int) (position : Nat) (xs ys : List Word) :
    m.loadFrom origin position (xs ++ ys) =
      (m.loadFrom origin position xs).loadFrom origin (position + xs.length) ys := by
  induction xs generalizing m position with
  | nil => rfl
  | cons x xs ih =>
    simp only [List.cons_append, loadFrom, ih, List.length_cons]
    rw [Nat.add_right_comm, Nat.add_assoc]

end Memory

end LC3
