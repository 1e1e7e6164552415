import LC3.Console.Line
import LC3.Text.Units
import Mathlib.Order.Bounds.Basic

/-!
# Keys

A host hands over keystrokes, and a line console wants one character in the 8-bit range. Keystrokes
whose first character is outside that range are skipped, however many there are. The first other one
settles what the console answers: it is broken, it is empty because there will be no more, or its
first character is the key.

Which character is the first is decided by code units. A pair of surrogates makes up one character,
so a key outside the basic plane is one key, and is skipped. A host decodes bytes and never hands
over half of a pair, which would count for itself and be skipped as well.
-/

namespace LC3

/-! ## First characters -/

namespace Text

/-- The number of the character that a list of code units begins with. A surrogate that is not the
first half of a pair stands for itself. -/
def leading : List Nat → Option Nat
  | [] => none
  | [unit] => some unit
  | unit :: next :: _ =>
    if (0xd800 ≤ unit ∧ unit < 0xdc00) ∧ 0xdc00 ≤ next ∧ next < 0xe000 then
      some (0x10000 + (unit - 0xd800) * 0x400 + (next - 0xdc00))
    else some unit

theorem leading_of_not_high {unit : Nat} (h : ¬(0xd800 ≤ unit ∧ unit < 0xdc00)) (rest : List Nat) :
    leading (unit :: rest) = some unit := by
  cases rest with
  | nil => rfl
  | cons next rest => exact if_neg fun hpair => h hpair.1

theorem leading_unitsOfChar (c : Char) (rest : List Nat) :
    leading (unitsOfChar c ++ rest) = some c.toNat := by
  have hvalid : c.toNat < 0xd800 ∨ 0xdfff < c.toNat ∧ c.toNat < 0x110000 := c.valid
  unfold unitsOfChar
  by_cases hplane : c.toNat < 0x10000
  · rw [if_pos hplane]
    exact leading_of_not_high (by omega) rest
  · rw [if_neg hplane]
    have hhigh : (c.toNat - 0x10000) / 0x400 < 0x400 := by omega
    have hlow : (c.toNat - 0x10000) % 0x400 < 0x400 := Nat.mod_lt _ (by decide)
    refine (if_pos ⟨⟨by omega, by omega⟩, by omega, by omega⟩).trans (congrArg some ?_)
    omega

/-- The code units of a text begin with those of its first character. -/
theorem leading_units (s : String) : leading (units s) = s.toList.head?.map Char.toNat := by
  unfold units
  cases s.toList with
  | nil => rfl
  | cons c cs => exact leading_unitsOfChar c _

end Text

/-! ## Keystrokes -/

namespace Keystroke

/-- The number of the character that a keystroke counts for, if there is one. -/
def leading : Keystroke → Option Nat
  | text s => Text.leading (Text.units s)
  | broken _ => none

/-- A keystroke whose character is outside the 8-bit range. -/
def Wide (k : Keystroke) : Prop := ∃ code, k.leading = some code ∧ 0xff < code

/-- What a keystroke that is not skipped stands for. -/
inductive Decodes : Keystroke → Except Fault Int → Prop where
  | broken (f : Fault) : Decodes (broken f) (.error f)
  /-- Input has ended. -/
  | ended {s : String} (h : Text.units s = []) : Decodes (text s) (.error .inputClosed)
  | interrupt {s : String} (h : Text.leading (Text.units s) = some 0x03) :
    Decodes (text s) (.error .interrupted)
  | enter {s : String} (h : Text.leading (Text.units s) = some 0x0d) : Decodes (text s) (.ok 0x0a)
  | plain {s : String} {code : Nat} (h : Text.leading (Text.units s) = some code)
      (hbyte : code ≤ 0xff) (hinterrupt : code ≠ 0x03) (henter : code ≠ 0x0d) :
    Decodes (text s) (.ok code)

theorem not_wide_empty : ¬(text "").Wide := by
  rintro ⟨code, h, -⟩
  cases h

theorem Decodes.byte {k : Keystroke} {code : Int} (h : Decodes k (.ok code)) :
    0 ≤ code ∧ code ≤ 0xff ∧ code ≠ 0x03 ∧ code ≠ 0x0d := by
  cases h with
  | enter => decide
  | plain h hbyte hinterrupt henter => omega

end Keystroke

/-! ## Scripts -/

namespace Line

open Keystroke

variable {keys rest : List Keystroke} {k : Keystroke} {i : Nat}

/-- What the host hands over when it was asked `n` times before. Behind the keystrokes that were
written down there are only empty ones. -/
def scripted (keys : List Keystroke) (n : Nat) : Keystroke := keys.getD n (.text "")

theorem scripted_append (wide : List Keystroke) (k : Keystroke) (rest : List Keystroke) :
    scripted (wide ++ k :: rest) wide.length = k := by
  induction wide with
  | nil => rfl
  | cons _ _ ih => exact ih

theorem scripted_length (keys : List Keystroke) : scripted keys keys.length = .text "" := by
  unfold scripted
  rw [List.getD_eq_getElem?_getD, List.getElem?_eq_none (Nat.le_refl _)]
  rfl

theorem not_wide_scripted_length (keys : List Keystroke) : ¬(scripted keys keys.length).Wide := by
  rw [scripted_length]
  exact not_wide_empty

/-- The keystroke at `i` is the first that is not skipped. -/
def StopsAt (keys : List Keystroke) (i : Nat) : Prop := IsLeast {n | ¬(scripted keys n).Wide} i

theorem stopsAt_zero (h : ¬(scripted keys 0).Wide) : StopsAt keys 0 := ⟨h, fun _ _ => Nat.zero_le _⟩

theorem StopsAt.cons (hk : k.Wide) (h : StopsAt rest i) : StopsAt (k :: rest) (i + 1) := by
  refine ⟨h.1, fun n hn => ?_⟩
  cases n with
  | zero => exact absurd hk hn
  | succ n => exact Nat.succ_le_succ (h.2 hn)

/-- The script is not asked far behind its end. -/
theorem StopsAt.le_length (h : StopsAt keys i) : i ≤ keys.length :=
  h.2 (not_wide_scripted_length keys)

theorem stopsAt_append {wide : List Keystroke} (hwide : ∀ w ∈ wide, w.Wide)
    (h : ¬(scripted rest 0).Wide) : StopsAt (wide ++ rest) wide.length := by
  induction wide with
  | nil => exact stopsAt_zero h
  | cons w wide ih =>
    have htail : ∀ w' ∈ wide, w'.Wide := fun w' hw' => hwide w' (List.mem_cons_of_mem _ hw')
    exact (ih htail).cons (hwide w List.mem_cons_self)

/-- The keystrokes that have been handed over when the one at `i` was the last. -/
def handedOver (keys : List Keystroke) (i : Nat) : List Traffic :=
  (List.range (i + 1)).map fun n => .key (scripted keys n)

theorem handedOver_succ (k : Keystroke) (rest : List Keystroke) (i : Nat) :
    handedOver (k :: rest) (i + 1) = .key k :: handedOver rest i := by
  unfold handedOver
  rw [List.range_succ_eq_map, List.map_cons, List.map_map]
  rfl

theorem nextKey_of_wide (hk : k.Wide) (rest : List Keystroke) :
    nextKey (k :: rest) = ((nextKey rest).1, (nextKey rest).2.1, .key k :: (nextKey rest).2.2) := by
  obtain ⟨code, hcode, hwide⟩ := hk
  cases k with
  | broken f => cases hcode
  | text s =>
    have hleading : s.toList.head?.map Char.toNat = some code :=
      (Text.leading_units s).symm.trans hcode
    rw [nextKey]
    cases hs : s.toList with
    | nil =>
      rw [hs] at hleading
      cases hleading
    | cons c cs =>
      rw [hs] at hleading
      cases hleading
      exact if_pos hwide

theorem decodes_meaning {s : String} {code : Nat} (h : Text.leading (Text.units s) = some code)
    (hbyte : code ≤ 0xff) : Decodes (.text s) (meaning code) := by
  unfold meaning
  by_cases hinterrupt : code = interruptCode
  · rw [if_pos hinterrupt]
    exact .interrupt (h.trans (congrArg some hinterrupt))
  · rw [if_neg hinterrupt]
    by_cases henter : code = carriageReturn
    · rw [if_pos henter]
      exact .enter (h.trans (congrArg some henter))
    · rw [if_neg henter]
      exact .plain h hbyte hinterrupt henter

theorem nextKey_of_not_wide (hk : ¬k.Wide) (rest : List Keystroke) :
    ∃ answer, Decodes k answer ∧ nextKey (k :: rest) = (answer, rest, [.key k]) := by
  cases k with
  | broken f => exact ⟨.error f, .broken f, rfl⟩
  | text s =>
    unfold nextKey
    cases hs : s.toList with
    | nil =>
      have hunits : Text.units s = [] := by
        unfold Text.units
        rw [hs]
        rfl
      exact ⟨_, .ended hunits, rfl⟩
    | cons c cs =>
      have hleading : Text.leading (Text.units s) = some c.toNat := by
        rw [Text.leading_units, hs]
        rfl
      have hbyte : ¬c.toNat > 0xff := fun hwide => hk ⟨c.toNat, hleading, hwide⟩
      exact ⟨_, decodes_meaning hleading (Nat.le_of_not_lt hbyte), if_neg hbyte⟩

/-- The host is asked until a keystroke is not skipped, and no further. -/
theorem nextKey_stops (keys : List Keystroke) :
    ∃ i answer, StopsAt keys i ∧ Decodes (scripted keys i) answer ∧
      nextKey keys = (answer, keys.drop (i + 1), handedOver keys i) := by
  induction keys with
  | nil => exact ⟨0, _, stopsAt_zero not_wide_empty, .ended rfl, rfl⟩
  | cons k rest ih =>
    by_cases hk : k.Wide
    · obtain ⟨i, answer, hstops, hdecodes, hrest⟩ := ih
      refine ⟨i + 1, answer, hstops.cons hk, hdecodes, ?_⟩
      rw [nextKey_of_wide hk, hrest, handedOver_succ]
      rfl
    · obtain ⟨answer, hdecodes, hnext⟩ := nextKey_of_not_wide hk rest
      exact ⟨0, answer, stopsAt_zero hk, hdecodes, hnext⟩

/-! ## Reading -/

/-- What reading and polling come to when the keystroke at `i` is the last that is handed over. -/
structure ReadsKey (line : Line) (i : Nat) (answer : Except Fault Int) : Prop where
  decodes : Decodes (scripted line.keys i) answer
  read : Console.read line =
    { answer
      device := { buffer := #[], keys := line.keys.drop (i + 1) }
      traffic := (flush line).traffic ++ handedOver line.keys i }
  poll : Console.poll line =
    { answer := answer.map some
      device := { buffer := #[], keys := line.keys.drop (i + 1) }
      traffic := (flush line).traffic ++ handedOver line.keys i }

theorem readsKey_of_nextKey {line : Line} {answer : Except Fault Int}
    (hdecodes : Decodes (scripted line.keys i) answer)
    (hnext : nextKey line.keys = (answer, line.keys.drop (i + 1), handedOver line.keys i)) :
    ReadsKey line i answer := by
  have hread : read line =
      { answer
        device := { buffer := #[], keys := line.keys.drop (i + 1) }
        traffic := (flush line).traffic ++ handedOver line.keys i } := by
    unfold read
    rw [hnext]
    dsimp only
    rw [buffer_flush]
  refine ⟨hdecodes, hread, ?_⟩
  show poll line = _
  unfold poll
  rw [hread]

/-- A read asks the host, behind a flush, until a keystroke is not skipped, and answers what this
keystroke stands for; what lies behind it in the script is left. A poll does the same, and so never
answers that there is no key. The number of keystrokes asked for is bounded by the script, and the
answer is a byte other than the two that are never handed on. However many keystrokes are skipped,
the one behind them is recognised, and so is the end of the script. -/
theorem line_reads_first_narrow_key (line : Line) :
    ∃ i answer, StopsAt line.keys i ∧ ReadsKey line i answer ∧ i ≤ line.keys.length ∧
      (Console.poll line).answer ≠ .ok none ∧
      (∀ code, answer = .ok code → 0 ≤ code ∧ code ≤ 0xff ∧ code ≠ 0x03 ∧ code ≠ 0x0d) ∧
      (∀ wide k rest, (∀ w ∈ wide, Keystroke.Wide w) → ¬k.Wide → line.keys = wide ++ k :: rest →
        Decodes k answer ∧ (Console.read line).device.keys = rest) ∧
      ((∀ k ∈ line.keys, k.Wide) → answer = .error .inputClosed) := by
  obtain ⟨i, answer, hstops, hdecodes, hnext⟩ := nextKey_stops line.keys
  have hreads := readsKey_of_nextKey hdecodes hnext
  refine ⟨i, answer, hstops, hreads, hstops.le_length, ?_, ?_, ?_, ?_⟩
  · rw [hreads.poll]
    cases answer <;> nofun
  · rintro code rfl
    exact hdecodes.byte
  · intro wide k rest hwide hk hkeys
    rw [hkeys] at hstops hdecodes
    have hfirst : StopsAt (wide ++ k :: rest) wide.length := stopsAt_append hwide hk
    obtain rfl : i = wide.length := hstops.unique hfirst
    rw [scripted_append] at hdecodes
    refine ⟨hdecodes, ?_⟩
    rw [hreads.read, hkeys]
    exact List.drop_length_add_append 1
  · intro hwide
    have hlast : StopsAt (line.keys ++ []) line.keys.length :=
      stopsAt_append hwide not_wide_empty
    rw [List.append_nil] at hlast
    obtain rfl : i = line.keys.length := hstops.unique hlast
    rw [scripted_length] at hdecodes
    cases hdecodes with
    | ended h => rfl
    | interrupt h => cases h
    | enter h => cases h
    | plain h => cases h

/-- A key outside the basic plane is skipped, and the interrupt key behind it counts. -/
example : (Console.read { keys := [.text "😀", .text "\x03", .text "a"] : Line }).answer =
    .error .interrupted := by decide

end Line

end LC3
