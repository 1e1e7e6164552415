import LC3.Proofs.Calls
import LC3.Proofs.QueueFaults

/-!
# Stored strings

The services that print a stored string find it in cells in a row, a byte in each or two. As long as
the cells are plain storage the search is nothing but handing over bytes: which ones is decided by
the words alone, and the machine stays as it is. A string of bytes other than zero that is stored in
either way is printed as it is.

A zero byte ends a string only if it is a high one, or if the high one behind it is zero too. A zero
low byte with another high one is printed like any byte.
-/

namespace LC3

open MachineM

/-! ## Cells in a row -/

/-- The addresses of `n` cells in a row. -/
def addresses (a : Word) : Nat → List Word
  | 0 => []
  | n + 1 => a :: addresses (a + 1) n

@[simp]
theorem length_addresses (a : Word) (n : Nat) : (addresses a n).length = n := by
  induction n generalizing a with
  | zero => rfl
  | succ n ih => exact congrArg Nat.succ (ih (a + 1))

theorem addresses_prefix (a : Word) {k n : Nat} (h : k ≤ n) : addresses a k <+: addresses a n := by
  induction k generalizing a n with
  | zero => exact List.nil_prefix
  | succ k ih =>
    obtain ⟨n, rfl⟩ : ∃ j, n = j + 1 := ⟨n - 1, by omega⟩
    exact (List.prefix_cons_inj a).2 (ih (a + 1) (Nat.le_of_succ_le_succ h))

/-- The words in `n` cells in a row. -/
def Memory.words (m : Memory) (a : Word) (n : Nat) : List Word := (addresses a n).map m.read

theorem Memory.words_succ (m : Memory) (a : Word) (n : Nat) :
    m.words a (n + 1) = m.read a :: m.words (a + 1) n := rfl

/-- From an address on there are these words, and none of them is in the keyboard's status
register. -/
structure Stored (m : Memory) (a : Word) (ws : List Word) : Prop where
  words : m.words a ws.length = ws
  plain : Machine.keyboardStatus ∉ addresses a ws.length

theorem Stored.of_prefix {m : Memory} {a : Word} {ws ws' : List Word} (h : Stored m a ws')
    (hws : ws <+: ws') : Stored m a ws := by
  have hcells := addresses_prefix a hws.length_le
  refine ⟨?_, fun hmem => h.plain (hcells.subset hmem)⟩
  have hwords : m.words a ws.length <+: ws' := by
    have hmap := hcells.map m.read
    rwa [← Memory.words, ← Memory.words, h.words] at hmap
  have hlength : (m.words a ws.length).length = ws.length := by
    rw [Memory.words, List.length_map, length_addresses]
  exact (List.prefix_of_prefix_length_le hwords hws (Nat.le_of_eq hlength)).eq_of_length hlength

theorem plain_succ {a : Word} {n : Nat} (h : Machine.keyboardStatus ∉ addresses a (n + 1)) :
    a ≠ Machine.keyboardStatus ∧ Machine.keyboardStatus ∉ addresses (a + 1) n :=
  ⟨fun ha => h (ha ▸ List.mem_cons_self), fun hrest => h (List.mem_cons_of_mem _ hrest)⟩

/-! ## Handing over bytes -/

variable {σ : Type} [Console σ]

/-- Writes bytes, until one is refused. -/
def writeBytes (bytes : List UInt8) : MachineM σ Unit :=
  atChannel (Channel.writeAll (bytes.map UInt8.toNat))

theorem writeBytes_nil : (writeBytes [] : MachineM σ Unit) = pure () := rfl

theorem writeBytes_cons (b : UInt8) (bytes : List UInt8) :
    (writeBytes (b :: bytes) : MachineM σ Unit) = (do writeByte b; writeBytes bytes) :=
  atChannel_bind ..

theorem writeBytes_singleton (b : UInt8) : (writeBytes [b] : MachineM σ Unit) = writeByte b :=
  (writeBytes_cons b []).trans bind_pure_unit

theorem writeBytes_append (bytes bytes' : List UInt8) :
    (writeBytes (bytes ++ bytes') : MachineM σ Unit) =
      (do writeBytes bytes; writeBytes bytes') := by
  induction bytes with
  | nil => rw [List.nil_append, writeBytes_nil, pure_bind]
  | cons b bytes ih => rw [List.cons_append, writeBytes_cons, writeBytes_cons, ih, bind_assoc]

theorem inTurn_writeBytes (bytes : List UInt8) (s : System σ) :
    InTurn (writeBytes bytes) s (bytes.map fun b => .write b.toNat) := by
  have hturn := inTurn_writeAll (bytes.map UInt8.toNat) s
  rwa [List.map_map] at hturn

/-- From `s`, `x` hands over bytes and then lets the machine go on. It calls the console for nothing
else, leaves the machine as it is, and stops early only where the console refuses a byte. -/
structure Prints (x : MachineM σ RunState) (s : System σ) (bytes : List UInt8) : Prop where
  same : x s = (do writeBytes bytes; return .running : MachineM σ RunState) s
  calls : InTurn x s (bytes.map fun b => .write b.toNat)
  machine : (leftBy (x s)).machine = s.machine

theorem prints_of_eq {x : MachineM σ RunState} {s : System σ} {bytes : List UInt8}
    (h : x s = (do writeBytes bytes; return .running : MachineM σ RunState) s) :
    Prints x s bytes := by
  have hcalls : InTurn (do writeBytes bytes; return .running : MachineM σ RunState) s
      (bytes.map fun b => .write b.toNat) :=
    (inTurn_writeBytes bytes s).bind_silent fun _ _ => ⟨_, _, rfl, rfl⟩
  refine ⟨h, hcalls.of_eq h rfl, ?_⟩
  rw [h]
  rcases hbytes : writeBytes bytes s with ⟨_, t⟩ | ⟨e, t⟩
  · rw [bind_of_ok hbytes]
    exact (atChannel_eq_ok.1 hbytes).2
  · rw [bind_of_error hbytes]
    obtain ⟨f, rfl⟩ := atChannel_stop hbytes
    exact (atChannel_eq_error.1 hbytes).2

theorem Prints.of_eq {x y : MachineM σ RunState} {s : System σ} {bytes : List UInt8}
    (h : Prints y s bytes) (hxy : x s = y s) : Prints x s bytes := prints_of_eq (hxy.trans h.same)

/-! ## Searches of plain storage -/

/-- What a search hands over that finds these words: `bytes` are the bytes of a word, and `more`
tells whether the search goes on behind it. -/
def found (bytes : Word → List UInt8) (more : Word → Bool) : List Word → List UInt8
  | [] => []
  | w :: ws => if w = 0 then [] else bytes w ++ if more w then found bytes more ws else []

section Search

variable {put : Word → MachineM σ Bool} {bytes : Word → List UInt8} {more : Word → Bool}
  {m : Memory} {a : Word} {n fuel : Nat} {s : System σ}

/-- The end is found among the words. -/
def Ended (more : Word → Bool) (ws : List Word) : Prop := ∃ w ∈ ws, w = 0 ∨ more w = false

theorem Ended.rest {w : Word} {ws : List Word} (h : Ended more (w :: ws)) (hw : w ≠ 0)
    (hmore : more w = true) : Ended more ws := by
  obtain ⟨v, hv, hend⟩ := h
  rcases List.mem_cons.1 hv with rfl | hv
  · rcases hend with rfl | hstop
    · exact absurd rfl hw
    · cases hmore.symm.trans hstop
  · exact ⟨v, hv, hend⟩

variable (hput : ∀ w, put w = (do writeBytes (bytes w); return more w))

include hput

/-- A search that finds the end in plain storage hands over the bytes in front of it, and does
nothing else. -/
theorem search_eq (hplain : Machine.keyboardStatus ∉ addresses a n) (hm : s.machine.memory = m)
    (hend : Ended more (m.words a n)) (hfuel : n ≤ fuel) :
    search put fuel a s = writeBytes (found bytes more (m.words a n)) s := by
  induction n generalizing a s fuel with
  | zero =>
    obtain ⟨w, hw, -⟩ := hend
    cases hw
  | succ n ih =>
    obtain ⟨fuel, rfl⟩ : ∃ k, fuel = k + 1 := ⟨fuel - 1, by omega⟩
    obtain ⟨ha, hplain⟩ := plain_succ hplain
    have hread : readWord a s = .ok (m.read a) s := hm ▸ readWord_of_ne ha s
    rw [Memory.words_succ] at hend ⊢
    unfold search found
    rw [bind_of_ok hread]
    by_cases hw : m.read a = 0
    · rw [if_pos hw, if_pos hw]
      rfl
    · rw [if_neg hw, if_neg hw, hput, writeBytes_append, bind_assoc]
      refine bind_congr_right fun _ t ht => ?_
      have hmachine : t.machine = s.machine := (atChannel_eq_ok.1 ht).2
      rw [pure_bind]
      cases hmore : more (m.read a) with
      | true => exact ih hplain (hmachine ▸ hm) (hend.rest hw hmore) (Nat.le_of_succ_le_succ hfuel)
      | false => rfl

/-- It reads no word behind the end. -/
theorem searched_prefix (hplain : Machine.keyboardStatus ∉ addresses a n)
    (hm : s.machine.memory = m) (hend : Ended more (m.words a n)) :
    searched put fuel a s <+: addresses a n := by
  induction fuel generalizing a s n with
  | zero => exact List.nil_prefix
  | succ fuel ih =>
    cases n with
    | zero =>
      obtain ⟨w, hw, -⟩ := hend
      cases hw
    | succ n =>
      obtain ⟨ha, hplain⟩ := plain_succ hplain
      have hread : readWord a s = .ok (m.read a) s := hm ▸ readWord_of_ne ha s
      rw [Memory.words_succ] at hend
      unfold searched addresses
      rw [List.prefix_cons_inj, hread]
      show (if m.read a = 0 then [] else _) <+: _
      by_cases hw : m.read a = 0
      · rw [if_pos hw]
        exact List.nil_prefix
      rw [if_neg hw]
      rcases hwritten : put (m.read a) s with ⟨b, t⟩ | ⟨e, t⟩
      · rw [hput] at hwritten
        obtain ⟨_, u, hbytes, hpure⟩ := bind_eq_ok.1 hwritten
        cases hpure
        have hmachine : t.machine = s.machine := (atChannel_eq_ok.1 hbytes).2
        show (if more (m.read a) then _ else _) <+: _
        cases hmore : more (m.read a) with
        | true => exact ih hplain (hmachine ▸ hm) (hend.rest hw hmore)
        | false => exact List.nil_prefix
      · exact List.nil_prefix

theorem Stored.prints {ws : List Word} (h : Stored s.machine.memory a ws) (hend : Ended more ws)
    (hfuel : ws.length ≤ fuel) :
    Prints (do search put fuel a; return .running) s (found bytes more ws) := by
  refine prints_of_eq (bind_congr_left _ ?_)
  have hsearch := search_eq hput h.plain rfl (h.words.symm ▸ hend) hfuel
  rwa [h.words] at hsearch

theorem Stored.searched {ws : List Word} (h : Stored s.machine.memory a ws)
    (hend : Ended more ws) :
    searched put fuel a s <+: addresses a ws.length :=
  searched_prefix hput h.plain rfl (h.words.symm ▸ hend)

end Search

/-! ## A byte in each word -/

variable {fuel : Nat} {s : System σ} {ws : List Word}

theorem putLow_eq (w : Word) :
    (putLow w : MachineM σ Bool) = (do writeBytes [w.low]; return true) := by
  rw [writeBytes_singleton]
  rfl

theorem found_low (h : 0 ∉ ws) :
    found (fun w => [w.low]) (fun _ => true) (ws ++ [0]) = ws.map Word.low := by
  induction ws with
  | nil => rfl
  | cons w ws ih =>
    have hw : w ≠ 0 := fun hw => h (hw ▸ List.mem_cons_self)
    rw [List.cons_append, found, if_neg hw, ih fun hrest => h (List.mem_cons_of_mem _ hrest)]
    rfl

theorem Stored.putWords (h0 : 0 ∉ ws)
    (h : Stored s.machine.memory (s.machine.registers.get 0) (ws ++ [0]))
    (hfuel : ws.length < fuel) : Prints (serve fuel .putWords) s (ws.map Word.low) := by
  have hend : Ended (fun _ => true) (ws ++ [0]) :=
    ⟨0, List.mem_append_right _ List.mem_cons_self, .inl rfl⟩
  have hlength : (ws ++ [0]).length ≤ fuel := by
    rw [List.length_append]
    exact hfuel
  have hprints := h.prints putLow_eq hend hlength
  rw [found_low h0, ← putWords_eq_search] at hprints
  exact hprints.of_eq rfl

/-! ## Two bytes in each word -/

theorem Word.eq_zero_of_bytes {w : Word} (hhigh : w.high = 0) (hlow : w.low = 0) : w = 0 := by
  rw [← w.ofBytes_high_low, hhigh, hlow]
  rfl

/-- The bytes of words, the low one of each first. -/
def bytesOf (ws : List Word) : List UInt8 := ws.flatMap fun w => [w.low, w.high]

/-- The bytes of words up to the first whose high byte is zero. Of that one the low byte comes last,
unless it is zero too. -/
def byteString : List Word → List UInt8
  | [] => []
  | w :: ws =>
    if w.high = 0 then
      if w.low = 0 then [] else [w.low]
    else w.low :: w.high :: byteString ws

/-- The bytes of a word that is not zero. -/
def halves (w : Word) : List UInt8 := if w.high = 0 then [w.low] else [w.low, w.high]

theorem putBoth_eq (w : Word) :
    (putBoth w : MachineM σ Bool) = (do writeBytes (halves w); return decide (w.high ≠ 0)) := by
  unfold putBoth halves
  by_cases hhigh : w.high = 0
  · have hstop : decide (w.high ≠ 0) = false := decide_eq_false fun h => h hhigh
    rw [if_pos hhigh, if_pos hhigh, writeBytes_singleton, hstop]
  · rw [if_neg hhigh, if_neg hhigh, writeBytes_cons, writeBytes_singleton, bind_assoc,
      decide_eq_true hhigh]

theorem found_halves (ws : List Word) :
    found halves (fun w => decide (w.high ≠ 0)) ws = byteString ws := by
  induction ws with
  | nil => rfl
  | cons w ws ih =>
    rw [found, byteString]
    by_cases hhigh : w.high = 0
    · have hhalves : halves w = [w.low] := if_pos hhigh
      have hstop : decide (w.high ≠ 0) = false := decide_eq_false fun h => h hhigh
      rw [if_pos hhigh, hhalves, hstop]
      by_cases hlow : w.low = 0
      · rw [if_pos hlow, if_pos (Word.eq_zero_of_bytes hhigh hlow)]
      · have hw : w ≠ 0 := fun hw => hlow (hw ▸ rfl)
        rw [if_neg hlow, if_neg hw]
        rfl
    · have hhalves : halves w = [w.low, w.high] := if_neg hhigh
      have hw : w ≠ 0 := fun hw => hhigh (hw ▸ rfl)
      rw [if_neg hhigh, if_neg hw, hhalves, decide_eq_true hhigh, if_pos rfl, ih]
      rfl

theorem ended_of_high {ws : List Word} (h : ∃ w ∈ ws, w.high = 0) :
    Ended (fun w => decide (w.high ≠ 0)) ws := by
  obtain ⟨w, hw, hhigh⟩ := h
  exact ⟨w, hw, .inr (decide_eq_false fun h => h hhigh)⟩

theorem Stored.putBytes (h : Stored s.machine.memory (s.machine.registers.get 0) ws)
    (hend : ∃ w ∈ ws, w.high = 0) (hfuel : ws.length ≤ fuel) :
    Prints (serve fuel .putBytes) s (byteString ws) := by
  have hprints := h.prints putBoth_eq (ended_of_high hend) hfuel
  rw [found_halves, ← putBytes_eq_search] at hprints
  exact hprints.of_eq rfl

/-! ## Strings of bytes -/

/-- A string of bytes, two in each word and the low one first, with the zero that ends it: the high
byte of the last word if the length is odd, and a word of its own if it is even. -/
def packed : List UInt8 → List Word
  | [] => [0]
  | [b] => [.ofBytes 0 b]
  | b :: c :: rest => .ofBytes c b :: packed rest

theorem length_packed (bytes : List UInt8) : (packed bytes).length = bytes.length / 2 + 1 := by
  induction bytes using packed.induct with
  | case1 => rfl
  | case2 b => simp [packed]
  | case3 b c rest ih =>
    simp only [packed, List.length_cons, ih]
    omega

theorem packed_ended (bytes : List UInt8) : ∃ w ∈ packed bytes, w.high = 0 := by
  induction bytes using packed.induct with
  | case1 => exact ⟨0, List.mem_cons_self, rfl⟩
  | case2 b => exact ⟨_, List.mem_cons_self, Word.high_ofBytes 0 b⟩
  | case3 b c rest ih =>
    obtain ⟨w, hw, hhigh⟩ := ih
    exact ⟨w, List.mem_cons_of_mem _ hw, hhigh⟩

theorem byteString_packed {bytes : List UInt8} (h : 0 ∉ bytes) :
    byteString (packed bytes) = bytes := by
  induction bytes using packed.induct with
  | case1 => rfl
  | case2 b =>
    have hb : b ≠ 0 := fun hb => h (hb ▸ List.mem_cons_self)
    rw [packed, byteString, Word.high_ofBytes, Word.low_ofBytes, if_pos rfl, if_neg hb]
  | case3 b c rest ih =>
    have hc : c ≠ 0 := fun hc => h (hc ▸ List.mem_cons_of_mem _ List.mem_cons_self)
    have hrest : 0 ∉ rest := fun hrest => h (List.mem_cons_of_mem _ (List.mem_cons_of_mem _ hrest))
    rw [packed, byteString, Word.high_ofBytes, Word.low_ofBytes, if_neg hc, ih hrest]

/-- A string of bytes, one in each word, with the zero that ends it. -/
def unpacked (bytes : List UInt8) : List Word := bytes.map (Word.ofBytes 0) ++ [0]

theorem Prints.same_channel {x y : MachineM σ RunState} {t : System σ} {bytes : List UInt8}
    (hx : Prints x s bytes) (hy : Prints y t bytes) (h : t.channel = s.channel) :
    (leftBy (y t)).channel = (leftBy (x s)).channel := by
  obtain ⟨m, c⟩ := s
  obtain ⟨m', d⟩ := t
  obtain rfl : c = d := h.symm
  rw [hx.same, hy.same]
  rcases hwritten : Channel.writeAll (bytes.map UInt8.toNat) c with ⟨_, d⟩ | ⟨f, d⟩
  · have hbytes (m : Machine) : writeBytes bytes ⟨m, c⟩ = .ok () ⟨m, d⟩ := atChannel_of_ok hwritten
    rw [bind_of_ok (hbytes m), bind_of_ok (hbytes m')]
    rfl
  · have hbytes (m : Machine) : writeBytes bytes ⟨m, c⟩ = .error (.fault f) ⟨m, d⟩ :=
      atChannel_of_error hwritten
    rw [bind_of_error (hbytes m), bind_of_error (hbytes m')]
    rfl

/-- Words other than zero that are stored in a row, up to a zero, have their low bytes printed by
the one service. A string of bytes other than zero that is packed is printed by the other, which
reads no word behind the one with the end, and what it hands to the console is what the first one
does for the same string with a byte in each word. Neither polls, nor changes a register or memory.
-/
theorem stored_strings_printed (fuel : Nat) (s : System σ) :
    (∀ ws : List Word, 0 ∉ ws → ws.length < fuel →
      Stored s.machine.memory (s.machine.registers.get 0) (ws ++ [0]) →
        Prints (serve fuel .putWords) s (ws.map Word.low)) ∧
      ∀ bytes : List UInt8, 0 ∉ bytes → bytes.length < fuel →
        Stored s.machine.memory (s.machine.registers.get 0) (packed bytes) →
          Prints (serve fuel .putBytes) s bytes ∧
          Service.putBytes.reads fuel s <+:
            addresses (s.machine.registers.get 0) (bytes.length / 2 + 1) ∧
          ∀ t : System σ, t.channel = s.channel →
            Stored t.machine.memory (t.machine.registers.get 0) (unpacked bytes) →
              Prints (serve fuel .putWords) t bytes ∧
                (leftBy (serve fuel .putWords t)).channel =
                  (leftBy (serve fuel .putBytes s)).channel := by
  refine ⟨fun ws h0 hfuel h => h.putWords h0 hfuel, fun bytes h0 hfuel h => ?_⟩
  have hlength : (packed bytes).length ≤ fuel := by
    rw [length_packed]
    omega
  have hpacked : Prints (serve fuel .putBytes) s bytes := by
    have hprints := h.putBytes (packed_ended bytes) hlength
    rwa [byteString_packed h0] at hprints
  refine ⟨hpacked, ?_, fun t hchannel ht => ?_⟩
  · rw [← length_packed]
    exact h.searched putBoth_eq (ended_of_high (packed_ended bytes))
  · have hunpacked : Prints (serve fuel .putWords) t bytes := by
      have hzero : 0 ∉ bytes.map (Word.ofBytes 0) := by
        intro hmem
        obtain ⟨b, hb, hword⟩ := List.mem_map.1 hmem
        have hlow : b = 0 := (Word.low_ofBytes 0 b).symm.trans (congrArg Word.low hword)
        exact h0 (hlow ▸ hb)
      have hlows : (bytes.map (Word.ofBytes 0)).map Word.low = bytes := by
        rw [List.map_map]
        exact List.map_id'' (fun b => Word.low_ofBytes 0 b) bytes
      have hprints := ht.putWords hzero (by rwa [List.length_map])
      rwa [hlows] at hprints
    exact ⟨hunpacked, hpacked.same_channel hunpacked hchannel⟩

/-- A machine with four words in a row, in the last cell and the first ones, and R0 at their
beginning. -/
def wrapping (w x y z : Word) : System Queue :=
  ⟨{ memory := (((Memory.blank.write 0xffff w).write 0 x).write 1 y).write 2 z
     registers := (Registers.initial 0x3000).set 0 0xffff }, { device := {} }⟩

theorem wrapping_start (w x y z : Word) :
    (wrapping w x y z).machine.registers.get 0 = 0xffff := Registers.get_set_self ..

theorem words_wrapping (w x y z : Word) :
    (wrapping w x y z).machine.memory.words 0xffff 4 = [w, x, y, z] := by
  simp [wrapping, Memory.words, addresses, Memory.read_write]

theorem stored_wrapping {w x y z : Word} {ws : List Word} (h : ws <+: [w, x, y, z]) :
    Stored (wrapping w x y z).machine.memory ((wrapping w x y z).machine.registers.get 0) ws := by
  rw [wrapping_start]
  have hall : Stored (wrapping w x y z).machine.memory 0xffff [w, x, y, z] :=
    ⟨words_wrapping w x y z, show Machine.keyboardStatus ∉ addresses 0xffff 4 by decide⟩
  exact hall.of_prefix h

theorem stored_strings_printed_wrapping :
    Prints (serve 4 .putWords) (wrapping 0x4148 0x0169 0 0x21) [0x48, 0x69] ∧
      Prints (serve 4 .putBytes) (wrapping 0x6548 0x006c 0x21 0) [0x48, 0x65, 0x6c] ∧
      Prints (serve 4 .putWords) (wrapping 0x48 0x65 0x6c 0) [0x48, 0x65, 0x6c] := by
  obtain ⟨hwords, -⟩ := stored_strings_printed 4 (wrapping 0x4148 0x0169 0 0x21)
  obtain ⟨-, hbytes⟩ := stored_strings_printed 4 (wrapping 0x6548 0x006c 0x21 0)
  obtain ⟨hpacked, -, hunpacked⟩ := hbytes [0x48, 0x65, 0x6c] (by decide) (by decide)
    (stored_wrapping (by decide))
  exact ⟨hwords [0x4148, 0x0169] (by decide) (by decide) (stored_wrapping (by decide)), hpacked,
    (hunpacked (wrapping 0x48 0x65 0x6c 0) rfl (stored_wrapping (by decide))).1⟩

/-! ## Zero bytes -/

theorem byteString_eq_iff (ws : List Word) :
    byteString ws = (bytesOf ws).takeWhile (· ≠ 0) ↔
      ∀ w ∈ ws.takeWhile (·.high ≠ 0), w.low ≠ 0 := by
  induction ws with
  | nil => simp [byteString, bytesOf]
  | cons w ws ih =>
    have hbytes : bytesOf (w :: ws) = w.low :: w.high :: bytesOf ws := rfl
    rw [byteString, hbytes]
    by_cases hhigh : w.high = 0
    · by_cases hlow : w.low = 0
      · simp [hhigh, hlow]
      · simp [hhigh, hlow]
    · by_cases hlow : w.low = 0
      · simp [hhigh, hlow]
      · simpa [hhigh, hlow] using ih

/-- As long as a search for the end of packed bytes stays in plain storage, a high byte that is zero
ends the string, together with the low byte in front of it if that is zero too. A low byte that is
zero does not end it otherwise: what is printed is the longest part of the stored bytes without a
zero if and only if none of the words in front of the last one has such a low byte. -/
theorem putBytes_ends_at_high_zero {n : Nat}
    (hplain : Machine.keyboardStatus ∉ addresses (s.machine.registers.get 0) n)
    (hend : ∃ w ∈ s.machine.memory.words (s.machine.registers.get 0) n, w.high = 0)
    (hfuel : n ≤ fuel) :
    Prints (serve fuel .putBytes) s
        (byteString (s.machine.memory.words (s.machine.registers.get 0) n)) ∧
      (byteString (s.machine.memory.words (s.machine.registers.get 0) n) =
          (bytesOf (s.machine.memory.words (s.machine.registers.get 0) n)).takeWhile (· ≠ 0) ↔
        ∀ w ∈ (s.machine.memory.words (s.machine.registers.get 0) n).takeWhile (·.high ≠ 0),
          w.low ≠ 0) := by
  have hlength (a : Word) : (s.machine.memory.words a n).length = n := by
    unfold Memory.words
    rw [List.length_map, length_addresses]
  refine ⟨Stored.putBytes ⟨?_, ?_⟩ hend ?_, byteString_eq_iff _⟩
  · rw [hlength]
  · rwa [hlength]
  · rwa [hlength]

theorem putBytes_ends_at_high_zero_wrapping :
    Prints (serve 4 .putBytes) (wrapping 0x4142 0x4300 0x44 0) [0x42, 0x41, 0x00, 0x43, 0x44] := by
  have hwords := words_wrapping 0x4142 0x4300 0x44 0
  rw [← wrapping_start 0x4142 0x4300 0x44 0] at hwords
  have hshown : byteString [0x4142, 0x4300, 0x44, 0] = [0x42, 0x41, 0x00, 0x43, 0x44] := by
    decide +kernel
  obtain ⟨hprints, -⟩ := putBytes_ends_at_high_zero (s := wrapping 0x4142 0x4300 0x44 0) (n := 4)
    (by rw [wrapping_start]; decide) (by rw [hwords]; exact ⟨0, by decide, rfl⟩) (Nat.le_refl 4)
  rwa [hwords, hshown] at hprints

/-- A string whose first byte is zero is not empty if the second one is another. -/
theorem zero_low_byte_shown :
    (bytesOf ((wrapping 0x4100 0 0 0).machine.memory.words 0xffff 4)).takeWhile (· ≠ 0) = [] ∧
      Makes (serve 4 .putBytes) (wrapping 0x4100 0 0 0) [.write 0x00, .write 0x41] := by
  have hshown : byteString [0x4100, 0] = [0x00, 0x41] := by decide +kernel
  have hprints : Prints (serve 4 .putBytes) (wrapping 0x4100 0 0 0) [0x00, 0x41] :=
    hshown ▸ (stored_wrapping (by decide)).putBytes ⟨0, by decide, rfl⟩ (by decide)
  refine ⟨?_, ?_⟩
  · rw [words_wrapping]
    decide +kernel
  · obtain ⟨t, ht, -⟩ := queue_writeAll [0x00, 0x41] (wrapping 0x4100 0 0 0)
    exact hprints.calls.makes (hprints.same.trans (bind_of_ok ht))

end LC3
