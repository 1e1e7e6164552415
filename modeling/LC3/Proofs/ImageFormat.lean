import LC3.Image

/-!
# The image format

Reading an image accepts exactly what writing an image produces, so every image has one string of
bytes and every string of bytes at most one image. Which strings of bytes are images can be told
from their length and their first two bytes, and so can the reason for which any other is refused.
-/

namespace LC3.Image

/-- The number that the first two bytes make up, upper byte first. -/
def leading : List UInt8 → Nat
  | upper :: lower :: _ => upper.toNat * 256 + lower.toNat
  | _ => 0

/-! ## Payloads -/

theorem length_pairUp : ∀ bytes : List UInt8,
    (pairUp #[] bytes).toList.length = bytes.length / 2
  | upper :: lower :: rest => by
    rw [toList_pairUp_cons_cons, List.length_cons, length_pairUp rest, List.length_cons,
      List.length_cons]
    omega
  | [] => rfl
  | [_] => by simp [pairUp]

/-- Bytes that come in pairs are the bytes of the words that they make up. -/
theorem flatMap_pairUp : ∀ bytes : List UInt8, bytes.length % 2 = 0 →
    (pairUp #[] bytes).toList.flatMap bytesOfWord = bytes
  | upper :: lower :: rest, h => by
    have hrest : rest.length % 2 = 0 := by
      rw [List.length_cons, List.length_cons] at h
      omega
    rw [toList_pairUp_cons_cons, List.flatMap_cons, flatMap_pairUp rest hrest, bytesOfWord,
      Word.high_ofBytes, Word.low_ofBytes]
    rfl
  | [], _ => rfl
  | [_], h => absurd h Nat.one_ne_zero

theorem pairUp_flatMap (ws : List Word) : (pairUp #[] (ws.flatMap bytesOfWord)).toList = ws := by
  induction ws with
  | nil => rfl
  | cons w ws ih =>
    show (pairUp #[] (w.high :: w.low :: ws.flatMap bytesOfWord)).toList = w :: ws
    rw [toList_pairUp_cons_cons, ih, Word.ofBytes_high_low]

theorem length_flatMap_bytesOfWord (ws : List Word) :
    (ws.flatMap bytesOfWord).length = 2 * ws.length := by
  induction ws with
  | nil => rfl
  | cons w ws ih =>
    rw [List.flatMap_cons, List.length_append, ih, List.length_cons]
    simp only [bytesOfWord, List.length_cons, List.length_nil]
    omega

/-! ## Images -/

theorem ofBytes?_toBytes {image : Image}
    (hfits : image.origin.toNat + image.words.length ≤ 65536) :
    ofBytes? image.toBytes = .ok image := by
  obtain ⟨origin, ws⟩ := image
  show ofBytes? (origin.high :: origin.low :: ws.flatMap bytesOfWord) = _
  have heven : ¬(ws.flatMap bytesOfWord).length % 2 = 1 := by
    rw [length_flatMap_bytesOfWord]
    omega
  have hroom : ¬origin.toNat + (ws.flatMap bytesOfWord).length / 2 > Memory.size := by
    rw [length_flatMap_bytesOfWord, Nat.mul_div_cancel_left _ Nat.two_pos]
    exact Nat.not_lt.2 hfits
  simp only [ofBytes?, if_neg heven, Word.ofBytes_high_low, if_neg hroom, pairUp_flatMap]

/-- Bytes that are read as an image are the bytes that are written for it. -/
theorem ofBytes?_of_room {upper lower : UInt8} {payload : List UInt8}
    (heven : payload.length % 2 = 0)
    (hroom : (Word.ofBytes upper lower).toNat + payload.length / 2 ≤ 65536) :
    ∃ image, ofBytes? (upper :: lower :: payload) = .ok image ∧
      image.toBytes = upper :: lower :: payload ∧
      image.origin.toNat + image.words.length ≤ 65536 := by
  have hodd : ¬payload.length % 2 = 1 := by omega
  refine ⟨⟨.ofBytes upper lower, (pairUp #[] payload).toList⟩, ?_, ?_, ?_⟩
  · exact (if_neg hodd).trans (if_neg (Nat.not_lt.2 hroom))
  · show bytesOfWord (.ofBytes upper lower) ++ (pairUp #[] payload).toList.flatMap bytesOfWord = _
    rw [flatMap_pairUp payload heven, bytesOfWord, Word.high_ofBytes, Word.low_ofBytes]
    rfl
  · show (Word.ofBytes upper lower).toNat + (pairUp #[] payload).toList.length ≤ 65536
    rw [length_pairUp]
    exact hroom

/-- What becomes of a string of bytes, and why. -/
inductive Verdict (bytes : List UInt8) : Except ImageDefect Image → Prop where
  | missingOrigin (short : bytes.length < 2) : Verdict bytes (.error .missingOrigin)
  | oddLength (long : 2 ≤ bytes.length) (odd : bytes.length % 2 = 1) :
    Verdict bytes (.error (.oddLength bytes.length))
  | pastEnd (long : 2 ≤ bytes.length) (even : bytes.length % 2 = 0)
      (past : 65536 < leading bytes + (bytes.length - 2) / 2) : Verdict bytes (.error .pastEnd)
  | accepted (long : 2 ≤ bytes.length) (even : bytes.length % 2 = 0)
      (room : leading bytes + (bytes.length - 2) / 2 ≤ 65536) {image : Image}
      (written : image.toBytes = bytes)
      (fits : image.origin.toNat + image.words.length ≤ 65536) : Verdict bytes (.ok image)

theorem verdict_ofBytes? (bytes : List UInt8) : Verdict bytes (ofBytes? bytes) := by
  match bytes with
  | [] => exact .missingOrigin Nat.two_pos
  | [_] => exact .missingOrigin Nat.one_lt_two
  | upper :: lower :: payload =>
    have hlong : 2 ≤ (upper :: lower :: payload).length := Nat.le_add_left 2 payload.length
    have hparity : (upper :: lower :: payload).length % 2 = payload.length % 2 :=
      Nat.add_mod_right payload.length 2
    have hleading : (Word.ofBytes upper lower).toNat = leading (upper :: lower :: payload) :=
      Word.toNat_ofBytes upper lower
    by_cases hodd : payload.length % 2 = 1
    · have hread : ofBytes? (upper :: lower :: payload) =
          .error (.oddLength (payload.length + 2)) := if_pos hodd
      rw [hread]
      exact .oddLength hlong (hparity.trans hodd)
    have heven : payload.length % 2 = 0 := by omega
    by_cases hpast : (Word.ofBytes upper lower).toNat + payload.length / 2 > 65536
    · have hread : ofBytes? (upper :: lower :: payload) = .error .pastEnd :=
        (if_neg hodd).trans (if_pos hpast)
      rw [hread]
      exact .pastEnd hlong (hparity.trans heven) (hleading ▸ hpast)
    · obtain ⟨image, hread, hwritten, hfits⟩ := ofBytes?_of_room heven (Nat.not_lt.1 hpast)
      rw [hread]
      exact .accepted hlong (hparity.trans heven) (hleading ▸ Nat.not_lt.1 hpast) hwritten hfits

theorem parse_of_ok {bytes : List UInt8} {image : Image} (path : String)
    (h : ofBytes? bytes = .ok image) : parse path bytes = .ok image := by
  unfold parse
  rw [h]

theorem parse_of_error {bytes : List UInt8} {defect : ImageDefect} (path : String)
    (h : ofBytes? bytes = .error defect) :
    parse path bytes = .error (.imageLoad path defect.reason) := by
  unfold parse
  rw [h]

/-- A string of bytes is read as an image if and only if its length is even and at least two and the
words behind the first fit into memory from the origin on. It is read as the one image that is
written as this string. Otherwise reading fails for the first of three reasons that applies. -/
theorem parse_accepts_what_is_written (path : String) (bytes : List UInt8) :
    ((∃ image, parse path bytes = .ok image) ↔
        bytes.length % 2 = 0 ∧ 2 ≤ bytes.length ∧
          leading bytes + (bytes.length - 2) / 2 ≤ 65536) ∧
      (∀ image, parse path bytes = .ok image ↔
        image.toBytes = bytes ∧ image.origin.toNat + image.words.length ≤ 65536) ∧
      ∀ f, parse path bytes = .error f →
        f = .imageLoad path
          (if bytes.length < 2 then "missing origin word"
          else if bytes.length % 2 = 1 then "odd byte length " ++ toString bytes.length
          else "image runs past the end of memory") := by
  have hread : ∀ image : Image,
      image.toBytes = bytes ∧ image.origin.toNat + image.words.length ≤ 65536 →
        parse path bytes = .ok image := by
    rintro image ⟨rfl, hfits⟩
    exact parse_of_ok path (ofBytes?_toBytes hfits)
  have hverdict := verdict_ofBytes? bytes
  generalize hr : ofBytes? bytes = r at hverdict
  cases hverdict with
  | missingOrigin short =>
    rw [parse_of_error path hr] at hread ⊢
    refine ⟨⟨nofun, fun h => absurd h.2.1 (by omega)⟩, fun image => ⟨nofun, hread image⟩, ?_⟩
    rintro _ ⟨⟩
    rw [if_pos short]
    rfl
  | oddLength long odd =>
    rw [parse_of_error path hr] at hread ⊢
    refine ⟨⟨nofun, fun h => absurd h.1 (by omega)⟩, fun image => ⟨nofun, hread image⟩, ?_⟩
    rintro _ ⟨⟩
    rw [if_neg (by omega), if_pos odd]
    rfl
  | pastEnd long even past =>
    rw [parse_of_error path hr] at hread ⊢
    refine ⟨⟨nofun, fun h => absurd h.2.2 (by omega)⟩, fun image => ⟨nofun, hread image⟩, ?_⟩
    rintro _ ⟨⟩
    rw [if_neg (by omega), if_neg (by omega)]
    rfl
  | @accepted long even room image written fits =>
    rw [parse_of_ok path hr] at hread ⊢
    refine ⟨⟨fun _ => ⟨even, long, room⟩, fun _ => ⟨image, rfl⟩⟩, ?_, nofun⟩
    refine fun image' => ⟨?_, hread image'⟩
    rintro ⟨⟩
    exact ⟨written, fits⟩

/-- The last word of memory can be loaded, and nothing behind it. -/
example : parse "full" [0xff, 0xff, 0x12, 0x34] = .ok ⟨0xffff, [0x1234]⟩ ∧
    parse "over" [0xff, 0xff, 0x12, 0x34, 0x56, 0x78] =
      .error (.imageLoad "over" "image runs past the end of memory") := ⟨rfl, rfl⟩

end LC3.Image
