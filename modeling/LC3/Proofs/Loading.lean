import LC3.Console.Scripted
import LC3.Machine.Run
import LC3.Proofs.ImageFormat
import Mathlib.Logic.Equiv.Defs
import Mathlib.Order.Fin.Basic

/-!
# What images leave in memory

Loading writes words to consecutive cells, so a cell holds the last word that was written to it, or
what it held before. A proper image does not run past the end of memory, and no two of its words
meet in a cell. Several images that are loaded one after the other leave in each cell the word of
the last image that has one for it. The order of images that do not overlap makes no difference.
-/

namespace LC3

/-! ## Words -/

namespace Memory

variable {m : Memory} {origin : Int} {position : Nat} {ws : List Word} {a w : Word}

/-- A cell that no word is loaded to keeps what it holds. -/
theorem read_loadFrom_of_none (h : ∀ k < ws.length, address origin (position + k) ≠ a) :
    (m.loadFrom origin position ws).read a = m.read a := by
  induction ws generalizing m position with
  | nil => rfl
  | cons w ws ih =>
    have hfirst : address origin position ≠ a := h 0 (Nat.succ_pos _)
    have hrest : ∀ k < ws.length, address origin (position + 1 + k) ≠ a := by
      intro k hk
      rw [Nat.add_right_comm, Nat.add_assoc]
      exact h (k + 1) (Nat.succ_lt_succ hk)
    exact (ih hrest).trans (read_write_of_ne m w hfirst)

/-- A cell holds the last word that is loaded to it. -/
theorem read_loadFrom_of_last {i : Nat} (hword : ws[i]? = some w)
    (haddress : address origin (position + i) = a)
    (hlast : ∀ k, i < k → k < ws.length → address origin (position + k) ≠ a) :
    (m.loadFrom origin position ws).read a = w := by
  induction ws generalizing m position i with
  | nil => cases hword
  | cons w' ws ih =>
    have hshift (k : Nat) : position + 1 + k = position + (k + 1) := by omega
    cases i with
    | zero =>
      cases hword
      have hrest : ∀ k < ws.length, address origin (position + 1 + k) ≠ a := by
        intro k hk
        rw [hshift]
        exact hlast (k + 1) (Nat.succ_pos k) (Nat.succ_lt_succ hk)
      obtain rfl : address origin position = a := haddress
      exact (read_loadFrom_of_none hrest).trans (read_write_self ..)
    | succ i =>
      rw [← hshift] at haddress
      refine ih hword haddress fun k hik hk => ?_
      rw [hshift]
      exact hlast (k + 1) (Nat.succ_lt_succ hik) (Nat.succ_lt_succ hk)

/-- Behind a word, the addresses up to the end of memory are in order. -/
theorem toNat_address {o : Word} (h : o.toNat + position < 65536) :
    (address o.toNat position).toNat = o.toNat + position := by
  have hexact : ((o.toNat : Int) + position).natAbs ≤ Precision.limit := by
    have hlimit : 65536 ≤ Precision.limit := by decide
    omega
  unfold address
  rw [Precision.add_of_natAbs_le hexact, Word.toNat_ofInt]
  omega

end Memory

/-! ## Images -/

namespace Image

variable {i j : Image} {a : Word}

/-- The word that an image has for an address, if its range contains the address. -/
def wordAt? (i : Image) (a : Word) : Option Word :=
  if i.origin.toNat ≤ a.toNat then i.words[a.toNat - i.origin.toNat]? else none

/-- The image was read from a file. -/
def Proper (i : Image) : Prop := ∃ path bytes, parse path bytes = .ok i

/-- There is an address for which both images have a word. -/
def Overlaps (i j : Image) : Prop := ∃ a, (i.wordAt? a).isSome ∧ (j.wordAt? a).isSome

theorem isSome_wordAt? :
    (i.wordAt? a).isSome ↔
      i.origin.toNat ≤ a.toNat ∧ a.toNat < i.origin.toNat + i.words.length := by
  unfold wordAt?
  split
  · rw [isSome_getElem?]
    omega
  · simp only [Option.isSome_none, Bool.false_eq_true, false_iff]
    omega

/-- No image runs past the end of memory. -/
theorem Proper.fits (h : i.Proper) : i.origin.toNat + i.words.length ≤ 65536 := by
  obtain ⟨path, bytes, hparse⟩ := h
  have hverdict := verdict_ofBytes? bytes
  unfold parse at hparse
  generalize ofBytes? bytes = r at hverdict hparse
  cases hverdict with
  | accepted _ _ _ _ fits =>
    cases hparse
    exact fits
  | _ => cases hparse

end Image

namespace Machine

variable {m : Machine} {i : Image} {images : List Image} {a w : Word}

/-- Loading an image puts the words that it has into their cells, and changes no other cell. -/
theorem read_load (h : i.Proper) :
    (m.load i).memory.read a = (i.wordAt? a).getD (m.memory.read a) := by
  have hfits := h.fits
  have haddress : ∀ k < i.words.length, (Memory.address i.origin.toNat (0 + k)).toNat =
      i.origin.toNat + k := by
    intro k hk
    rw [Nat.zero_add]
    exact Memory.toNat_address (by omega)
  show (m.memory.loadFrom i.origin.toNat 0 i.words).read a = _
  cases hword : i.wordAt? a with
  | none =>
    refine Memory.read_loadFrom_of_none fun k hk heq => ?_
    have hnone : ¬(i.wordAt? a).isSome := by simp [hword]
    rw [Image.isSome_wordAt?, ← heq, haddress k hk] at hnone
    omega
  | some w =>
    have hsome : (i.wordAt? a).isSome := by simp [hword]
    rw [Image.isSome_wordAt?] at hsome
    unfold Image.wordAt? at hword
    rw [if_pos hsome.1] at hword
    have hposition : a.toNat - i.origin.toNat < i.words.length := by omega
    refine Memory.read_loadFrom_of_last hword ?_ fun k hik hk heq => ?_
    · apply BitVec.eq_of_toNat_eq
      rw [haddress _ hposition]
      omega
    · have hk' := haddress k hk
      rw [heq] at hk'
      omega

theorem loadAll_cons : m.loadAll (i :: images) = (m.load i).loadAll images := rfl

/-- A cell for which no image has a word keeps what it holds. -/
theorem read_loadAll_of_none (hproper : ∀ i ∈ images, i.Proper)
    (h : ∀ i ∈ images, i.wordAt? a = none) :
    (m.loadAll images).memory.read a = m.memory.read a := by
  induction images generalizing m with
  | nil => rfl
  | cons i images ih =>
    have hrest := List.forall_mem_cons.1 hproper
    have hnone := List.forall_mem_cons.1 h
    rw [loadAll_cons, ih hrest.2 hnone.2, read_load hrest.1, hnone.1]
    rfl

/-- A cell holds the word of the last image that has one for it. -/
theorem read_loadAll_of_last (hproper : ∀ i ∈ images, i.Proper) {j : Fin images.length}
    (hword : images[j].wordAt? a = some w)
    (hlast : ∀ k, j < k → images[k].wordAt? a = none) :
    (m.loadAll images).memory.read a = w := by
  induction images generalizing m with
  | nil => exact j.elim0
  | cons i images ih =>
    have hrest := List.forall_mem_cons.1 hproper
    rw [loadAll_cons]
    cases j using Fin.cases with
    | zero =>
      have hnone : ∀ i ∈ images, i.wordAt? a = none := by
        intro i' hi'
        obtain ⟨k, hk, rfl⟩ := List.getElem_of_mem hi'
        exact hlast ⟨k + 1, Nat.succ_lt_succ hk⟩ (Nat.succ_pos k)
      rw [read_loadAll_of_none hrest.2 hnone, read_load hrest.1]
      have hfirst : i.wordAt? a = some w := hword
      rw [hfirst]
      rfl
    | succ j =>
      refine ih hrest.2 hword fun k hk => ?_
      exact hlast k.succ (Fin.succ_lt_succ_iff.2 hk)

/-- Once an image is loaded, others change memory alone. -/
theorem loadAll_of_loaded (h : m.imageLoaded = true) :
    m.loadAll images = { m with memory := (m.loadAll images).memory } := by
  induction images generalizing m with
  | nil => rfl
  | cons i images ih =>
    obtain ⟨memory, registers, state, loaded⟩ := m
    obtain rfl : loaded = true := h
    rw [loadAll_cons]
    exact ih rfl

/-! ## Order -/

/-- The same images in another order, in which those that overlap are in order. -/
def Reorders (images images' : List Image) : Prop :=
  ∃ e : Fin images.length ≃ Fin images'.length, (∀ j, images'[e j] = images[j]) ∧
    ∀ j k, j < k → images[j].Overlaps images[k] → e j < e k

/-- For each address that an image has a word for, one is the last to have one. -/
theorem exists_last (h : ¬∀ i ∈ images, i.wordAt? a = none) :
    ∃ (j : Fin images.length) (w : Word), images[j].wordAt? a = some w ∧
      ∀ k, j < k → images[k].wordAt? a = none := by
  induction images with
  | nil => exact absurd nofun h
  | cons i images ih =>
    by_cases hrest : ∀ i ∈ images, i.wordAt? a = none
    · cases hword : i.wordAt? a with
      | none =>
        have hnone : ∀ i' ∈ i :: images, i'.wordAt? a = none :=
          List.forall_mem_cons.2 ⟨hword, hrest⟩
        exact absurd hnone h
      | some w =>
        refine ⟨⟨0, Nat.succ_pos _⟩, w, hword, fun k hk => ?_⟩
        cases k using Fin.cases with
        | zero => exact absurd hk (lt_irrefl _)
        | succ k => exact hrest _ (List.getElem_mem k.isLt)
    · obtain ⟨j, w, hword, hlast⟩ := ih hrest
      refine ⟨j.succ, w, hword, fun k hk => ?_⟩
      cases k using Fin.cases with
      | zero => exact absurd hk (Fin.not_lt_zero _)
      | succ k => exact hlast k (Fin.succ_lt_succ_iff.1 hk)

theorem Reorders.mem {images' : List Image} (h : Reorders images images') (hi : i ∈ images') :
    i ∈ images := by
  obtain ⟨e, hsame, -⟩ := h
  obtain ⟨k, rfl⟩ := List.mem_iff_get.1 hi
  obtain ⟨j, rfl⟩ := e.surjective k
  have hback : images'.get (e j) = images[j] := hsame j
  rw [hback]
  exact List.getElem_mem j.isLt

/-- The order of images that do not overlap makes no difference. -/
theorem read_loadAll_of_reorders {images' : List Image} (hproper : ∀ i ∈ images, i.Proper)
    (h : Reorders images images') (a : Word) :
    (m.loadAll images').memory.read a = (m.loadAll images).memory.read a := by
  have hproper' : ∀ i ∈ images', i.Proper := fun i hi => hproper i (h.mem hi)
  by_cases hnone : ∀ i ∈ images, i.wordAt? a = none
  · rw [read_loadAll_of_none hproper hnone,
      read_loadAll_of_none hproper' fun i hi => hnone i (h.mem hi)]
  obtain ⟨j, w, hword, hlast⟩ := exists_last hnone
  obtain ⟨e, hsame, horder⟩ := h
  have hword' : images'[e j].wordAt? a = some w := by rw [hsame, hword]
  -- A later image with a word for the cell would overlap this one, and come later before, too.
  have hlast' : ∀ k, e j < k → images'[k].wordAt? a = none := by
    intro k hk
    obtain ⟨l, rfl⟩ := e.surjective k
    rw [hsame]
    rcases lt_trichotomy j l with hjl | rfl | hlj
    · exact hlast l hjl
    · exact absurd hk (lt_irrefl _)
    · cases hl : images[l].wordAt? a with
      | none => rfl
      | some v =>
        have hoverlap : images[l].Overlaps images[j] :=
          ⟨a, Option.isSome_iff_exists.2 ⟨v, hl⟩, Option.isSome_iff_exists.2 ⟨w, hword⟩⟩
        exact absurd hk (lt_asymm (horder l j hlj hoverlap))
  rw [read_loadAll_of_last hproper hword hlast, read_loadAll_of_last hproper' hword' hlast']

/-- Images that are loaded into a fresh machine leave in each cell the word of the last image that
has one for it, and zero where none has. The program counter is at the origin of the first image,
the general registers and the condition are zero, the latter in both places, and the machine runs.
The images behind the first may be loaded in any order in which those that overlap are in order: the
machine is the same, and so is every run of it. -/
theorem loadAll_fresh (pcStart : Word) (first : Image) (rest : List Image)
    (hproper : ∀ i ∈ first :: rest, i.Proper) :
    let images := first :: rest
    let m := (fresh pcStart).loadAll images
    (∀ i ∈ images, i.origin.toNat + i.words.length ≤ 65536) ∧
      (∀ a w (j : Fin images.length), images[j].wordAt? a = some w →
        (∀ k, j < k → images[k].wordAt? a = none) → m.memory.read a = w) ∧
      (∀ a, (∀ i ∈ images, i.wordAt? a = none) → m.memory.read a = 0) ∧
      m.registers.pc = first.origin ∧ (∀ r, m.registers.get r = 0) ∧
      m.registers.condition = .zero ∧ m.registers.Coherent ∧ m.state = .running ∧
      ∀ rest', Reorders rest rest' → (fresh pcStart).loadAll (first :: rest') = m ∧
        ∀ (σ : Type) [Console σ] (c : Channel σ) (fuel : Nat),
          MachineM.run fuel ⟨(fresh pcStart).loadAll (first :: rest'), c⟩ =
            MachineM.run fuel ⟨m, c⟩ := by
  intro images m
  have hloaded : ((fresh pcStart).load first).imageLoaded = true := rfl
  have hregisters : m.registers = .initial first.origin := by
    have horigin : (Word.ofInt first.origin.toNat) = first.origin := Word.ofInt_toNat _
    have hfirst : ((fresh pcStart).load first).registers =
        .initial (.ofInt first.origin.toNat) := rfl
    rw [horigin] at hfirst
    exact (congrArg registers (loadAll_of_loaded hloaded)).trans hfirst
  have hreordered :
      ∀ rest', Reorders rest rest' → (fresh pcStart).loadAll (first :: rest') = m := by
    intro rest' hreorders
    have hrest : ∀ i ∈ rest, i.Proper := (List.forall_mem_cons.1 hproper).2
    have hmemory : ((fresh pcStart).loadAll (first :: rest')).memory = m.memory := by
      refine Memory.ext_read fun a => ?_
      exact read_loadAll_of_reorders hrest hreorders a
    rw [loadAll_cons, loadAll_of_loaded hloaded]
    refine Eq.trans ?_ (loadAll_of_loaded hloaded).symm
    exact congrArg (fun memory => { (fresh pcStart).load first with memory }) hmemory
  refine ⟨fun i hi => (hproper i hi).fits, fun a w j => read_loadAll_of_last hproper,
    fun a hnone => ?_, ?_, fun r => ?_, ?_, ?_, ?_,
    fun rest' hreorders => ⟨hreordered rest' hreorders, fun σ _ c fuel => ?_⟩⟩
  · exact (read_loadAll_of_none hproper hnone).trans (Memory.read_blank a)
  · rw [hregisters]
    rfl
  · rw [hregisters]
    simp [Registers.get, Registers.initial]
  · rw [hregisters]
    rfl
  · rw [hregisters]
    exact Registers.coherent_initial _
  · exact congrArg state (loadAll_of_loaded hloaded)
  · rw [hreordered rest' hreorders]

/-- An image without words, two that overlap and one apart. -/
def four : List Image := [⟨4, []⟩, ⟨0, [1, 2]⟩, ⟨1, [3, 4]⟩, ⟨8, [5]⟩]

theorem loadAll_fresh_four :
    (∀ i ∈ four, i.Proper) ∧
      ((fresh 0x3000).loadAll four).memory.read 1 = 3 ∧
      ((fresh 0x3000).loadAll four).memory.read 5 = 0 ∧
      ((fresh 0x3000).loadAll four).registers.pc = 4 ∧
      (fresh 0x3000).loadAll [⟨4, []⟩, ⟨8, [5]⟩, ⟨0, [1, 2]⟩, ⟨1, [3, 4]⟩] =
        (fresh 0x3000).loadAll four := by
  have hproper : ∀ i ∈ four, i.Proper := by
    have hfirst : Image.Proper ⟨4, []⟩ := ⟨"a", [0, 4], rfl⟩
    have hsecond : Image.Proper ⟨0, [1, 2]⟩ := ⟨"b", [0, 0, 0, 1, 0, 2], rfl⟩
    have hthird : Image.Proper ⟨1, [3, 4]⟩ := ⟨"c", [0, 1, 0, 3, 0, 4], rfl⟩
    have hfourth : Image.Proper ⟨8, [5]⟩ := ⟨"d", [0, 8, 0, 5], rfl⟩
    refine List.forall_mem_cons.2 ⟨hfirst, List.forall_mem_cons.2 ⟨hsecond, ?_⟩⟩
    exact List.forall_mem_cons.2 ⟨hthird, List.forall_mem_cons.2 ⟨hfourth, nofun⟩⟩
  -- The image apart comes first of the three, and the other two stay in order.
  have hreorders : Reorders [⟨0, [1, 2]⟩, ⟨1, [3, 4]⟩, ⟨8, [5]⟩]
      [⟨8, [5]⟩, ⟨0, [1, 2]⟩, ⟨1, [3, 4]⟩] := by
    have hapart : ∀ i : Image, i.origin.toNat + i.words.length ≤ 8 →
        ¬i.Overlaps ⟨8, [5]⟩ := by
      rintro i hi ⟨a, hfirst, hsecond⟩
      rw [Image.isSome_wordAt?] at hfirst hsecond
      have horigin : (8 : Word).toNat ≤ a.toNat := hsecond.1
      have height : (8 : Word).toNat = 8 := rfl
      omega
    let e : Fin 3 ≃ Fin 3 :=
      { toFun := fun j => j + 1
        invFun := fun j => j - 1
        left_inv := show ∀ j : Fin 3, j + 1 - 1 = j by decide
        right_inv := show ∀ j : Fin 3, j - 1 + 1 = j by decide }
    refine ⟨e, by decide, fun j k hjk hoverlaps => ?_⟩
    have hcases : ∀ j k : Fin 3, j < k → j = 0 ∧ k = 1 ∨ j = 0 ∧ k = 2 ∨ j = 1 ∧ k = 2 := by decide
    rcases hcases j k hjk with ⟨rfl, rfl⟩ | ⟨rfl, rfl⟩ | ⟨rfl, rfl⟩
    · decide
    · exact absurd hoverlaps (hapart _ (by decide))
    · exact absurd hoverlaps (hapart _ (by decide))
  obtain ⟨-, hlast, hnone, hpc, -, -, -, -, hsame⟩ :=
    loadAll_fresh 0x3000 ⟨4, []⟩ [⟨0, [1, 2]⟩, ⟨1, [3, 4]⟩, ⟨8, [5]⟩] hproper
  have hread : ((fresh 0x3000).loadAll four).memory.read 1 = 3 := by
    refine hlast 1 3 2 rfl fun k hk => ?_
    have hbehind : ∀ k : Fin 4, 2 < k → k = 3 := by decide
    obtain rfl := hbehind k hk
    rfl
  exact ⟨hproper, hread, hnone 5 (by decide), hpc, (hsame _ hreorders).1⟩

end Machine

end LC3
