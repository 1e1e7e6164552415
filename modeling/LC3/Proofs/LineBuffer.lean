import LC3.Proofs.Uses

/-!
# The buffer of a line console

A line console holds back the beginning of a line and nothing else: less than its capacity, and no
end of a line. What it shows comes in chunks of at most the capacity, in which a line ends at the
end of the chunk or not at all. A byte that is handed over brings out a chunk only if it ends the
line or fills the buffer.
-/

namespace LC3

/-! ## Chunks -/

/-- The chunks of output that the host was given, in order. -/
def Journal.chunks (j : Journal) : List (List UInt8) := j.toList.flatMap Event.chunks

/-- The chunks among the traffic of one operation. -/
def chunksOf (traffic : List Traffic) : List (List UInt8) :=
  (traffic.map Event.host).flatMap Event.chunks

theorem chunksOf_append (traffic traffic' : List Traffic) :
    chunksOf (traffic ++ traffic') = chunksOf traffic ++ chunksOf traffic' := by
  unfold chunksOf
  rw [List.map_append, List.flatMap_append]

/-- Keys are no output. -/
theorem chunksOf_keys {traffic : List Traffic} (h : ∀ t ∈ traffic, t.isKey = true) :
    chunksOf traffic = [] := by
  unfold chunksOf
  rw [List.flatMap_map]
  refine List.flatMap_eq_nil_iff.2 fun t ht => ?_
  cases t with
  | key k => rfl
  | output chunk => cases h _ ht
  | rawMode on => cases h _ ht

theorem chunks_after {σ α : Type} (c : Channel σ) (reply : Reply σ α)
    (call : Except Fault α → Call) :
    (c.after reply call).journal.chunks = c.journal.chunks ++ chunksOf reply.traffic := by
  unfold Journal.chunks chunksOf
  rw [toList_journal_after, List.flatMap_append, List.flatMap_append]
  exact congrArg _ (List.append_nil _)

/-- What was shown is the chunks, one behind the other. -/
theorem flatten_chunks (j : Journal) : j.chunks.flatten = j.shown := by
  have hevent : ∀ e : Event, e.chunks.flatten = e.shown := by
    intro e
    cases e with
    | host t =>
      cases t with
      | output chunk => exact List.append_nil chunk
      | key k => rfl
      | rawMode on => rfl
    | _ => rfl
  unfold Journal.chunks Journal.shown
  induction j.toList with
  | nil => rfl
  | cons e events ih => rw [List.flatMap_cons, List.flatten_append, hevent, ih, List.flatMap_cons]

/-! ## One use -/

/-- A use other than handing over a byte. -/
def Use.Flushes (u : Use) : Prop := ∀ code, u ≠ .write code

/-- What a use shows when `held` is held back, and what is held back then. -/
inductive Shows (held : List UInt8) : Use → List (List UInt8) → List UInt8 → Prop where
  /-- The byte ends the line or fills the buffer. -/
  | full {code : Int} (h : UInt8.ofInt code = 0x0a ∨ 4096 ≤ held.length + 1) :
    Shows held (.write code) [held ++ [UInt8.ofInt code]] []
  | kept {code : Int} (hline : UInt8.ofInt code ≠ 0x0a) (hroom : held.length + 1 < 4096) :
    Shows held (.write code) [] (held ++ [UInt8.ofInt code])
  | flushed {u : Use} (hu : u.Flushes) (h : held ≠ []) : Shows held u [held] []
  | idle {u : Use} (hu : u.Flushes) (h : held = []) : Shows held u [] []

namespace Line

theorem flush_shows (line : Line) {u : Use} (hu : u.Flushes) :
    Shows line.buffer.toList u (chunksOf (flush line).traffic) [] := by
  rw [flush_eq]
  by_cases hempty : line.buffer.isEmpty
  · rw [if_pos hempty]
    exact .idle hu (congrArg Array.toList (Array.isEmpty_iff.1 hempty))
  · rw [if_neg hempty]
    exact .flushed hu fun h => hempty (Array.isEmpty_iff.2 (Array.toList_eq_nil_iff.1 h))

/-- The keys that are asked for behind the flush show nothing. -/
theorem read_shows (line : Line) {u : Use} (hu : u.Flushes) :
    Shows line.buffer.toList u (chunksOf (read line).traffic) (read line).device.buffer.toList := by
  have htraffic : (read line).traffic = (flush line).traffic ++ (nextKey line.keys).2.2 := rfl
  have hbuffer : (read line).device.buffer = #[] := buffer_flush line
  rw [htraffic, chunksOf_append, chunksOf_keys (isKey_nextKey line.keys), List.append_nil, hbuffer]
  exact flush_shows line hu

theorem write_shows (code : Int) (line : Line) :
    Shows line.buffer.toList (.write code) (chunksOf (write code line).traffic)
      (write code line).device.buffer.toList := by
  obtain ⟨buffer, keys⟩ := line
  have hsize : (buffer.push (UInt8.ofInt code)).size = buffer.toList.length + 1 := by
    rw [Array.size_push, Array.length_toList]
  have hlist : (buffer.push (UInt8.ofInt code)).toList = buffer.toList ++ [UInt8.ofInt code] :=
    Array.toList_push
  unfold write
  dsimp only
  split
  case isTrue h =>
    rw [flush_eq, if_neg (by simp)]
    show Shows _ _ [(buffer.push (UInt8.ofInt code)).toList] []
    rw [hlist]
    refine .full ?_
    rcases h with hline | hfull
    · exact .inl (UInt8.toNat_inj.1 hline)
    · exact .inr (hsize ▸ hfull)
  case isFalse h =>
    obtain ⟨hline, hroom⟩ := not_or.1 h
    show Shows _ _ [] (buffer.push (UInt8.ofInt code)).toList
    rw [hlist]
    refine .kept (fun hbyte => hline (congrArg UInt8.toNat hbyte)) ?_
    exact hsize ▸ Nat.lt_of_not_le hroom

end Line

theorem use_shows (c : Channel Line) (u : Use) :
    ∃ chunks, (c.use u).journal.chunks = c.journal.chunks ++ chunks ∧
      Shows c.device.buffer.toList u chunks (c.use u).device.buffer.toList := by
  cases u with
  | read =>
    rw [Channel.use_read]
    exact ⟨_, chunks_after .., Line.read_shows c.device nofun⟩
  | poll =>
    rw [Channel.use_poll]
    exact ⟨_, chunks_after .., Line.read_shows c.device nofun⟩
  | write code =>
    rw [Channel.use_write]
    exact ⟨_, chunks_after .., Line.write_shows code c.device⟩
  | flush =>
    rw [Channel.use_flush]
    refine ⟨_, chunks_after .., ?_⟩
    have hbuffer : (Line.flush c.device).device.buffer.toList = [] :=
      congrArg Array.toList (Line.buffer_flush c.device)
    show Shows _ _ _ (Line.flush c.device).device.buffer.toList
    rw [hbuffer]
    exact Line.flush_shows c.device nofun

/-! ## The invariant -/

/-- The beginning of a line that a line console holds back. -/
structure Unended (bytes : List UInt8) : Prop where
  short : bytes.length < 4096
  noEnd : 0x0a ∉ bytes

/-- What a line console shows at once. -/
structure IsChunk (chunk : List UInt8) : Prop where
  nonempty : 1 ≤ chunk.length
  short : chunk.length ≤ 4096
  /-- A line ends at the end of the chunk or not at all. -/
  endsLast : 0x0a ∉ chunk.dropLast

theorem unended_nil : Unended [] := ⟨by decide, List.not_mem_nil⟩

theorem Unended.isChunk_concat {held : List UInt8} (h : Unended held) (b : UInt8) :
    IsChunk (held ++ [b]) := by
  refine ⟨?_, ?_, ?_⟩
  · rw [List.length_append, List.length_singleton]
    exact Nat.le_add_left ..
  · rw [List.length_append, List.length_singleton]
    exact h.short
  · rw [List.dropLast_concat]
    exact h.noEnd

theorem Unended.isChunk {held : List UInt8} (h : Unended held) (hne : held ≠ []) : IsChunk held :=
  ⟨List.length_pos_iff.2 hne, Nat.le_of_lt h.short, fun hmem =>
    h.noEnd (List.dropLast_subset held hmem)⟩

section Shows

variable {held left : List UInt8} {u : Use} {chunks : List (List UInt8)}

theorem Shows.unended (h : Shows held u chunks left) (hheld : Unended held) : Unended left := by
  cases h with
  | full h => exact unended_nil
  | kept hline hroom =>
    refine ⟨?_, fun hmem => ?_⟩
    · rwa [List.length_append, List.length_singleton]
    · rcases List.mem_append.1 hmem with hmem | hmem
      · exact hheld.noEnd hmem
      · exact hline (List.mem_singleton.1 hmem).symm
  | flushed hu h => exact unended_nil
  | idle hu h => exact unended_nil

theorem Shows.isChunk (h : Shows held u chunks left) (hheld : Unended held) :
    ∀ chunk ∈ chunks, IsChunk chunk := by
  intro chunk hchunk
  cases h with
  | full h =>
    rw [List.mem_singleton.1 hchunk]
    exact hheld.isChunk_concat _
  | kept hline hroom => cases hchunk
  | flushed hu h =>
    rw [List.mem_singleton.1 hchunk]
    exact hheld.isChunk h
  | idle hu h => cases hchunk

/-- A byte brings out a chunk that ends a line, or as much as is ever held back. -/
theorem Shows.full_chunk {code : Int} (h : Shows held (.write code) chunks left)
    (hheld : Unended held) :
    ∀ chunk ∈ chunks, chunk.getLast? = some 0x0a ∨ chunk.length = 4096 := by
  intro chunk hchunk
  cases h with
  | full h =>
    rw [List.mem_singleton.1 hchunk]
    rcases h with hline | hfull
    · left
      rw [List.getLast?_concat, hline]
    · right
      rw [List.length_append, List.length_singleton]
      exact Nat.le_antisymm hheld.short hfull
  | kept hline hroom => cases hchunk
  | flushed hu h => exact absurd rfl (hu code)
  | idle hu h => exact absurd rfl (hu code)

theorem Shows.left_eq_nil (h : Shows held u chunks left) (hu : u.Flushes) : left = [] := by
  cases h with
  | full h => rfl
  | @kept code => exact absurd rfl (hu code)
  | flushed hu' h => rfl
  | idle hu' h => rfl

end Shows

/-- What a line console holds back is the beginning of a line, and what it has shown is chunks. -/
structure Buffered (c : Channel Line) : Prop where
  held : Unended c.device.buffer.toList
  chunks : ∀ chunk ∈ c.journal.chunks, IsChunk chunk

theorem Buffered.use {c : Channel Line} (h : Buffered c) (u : Use) : Buffered (c.use u) := by
  obtain ⟨chunks, hchunks, hshows⟩ := use_shows c u
  refine ⟨hshows.unended h.held, fun chunk hchunk => ?_⟩
  rw [hchunks] at hchunk
  rcases List.mem_append.1 hchunk with hchunk | hchunk
  · exact h.chunks chunk hchunk
  · exact hshows.isChunk h.held chunk hchunk

/-- A line console that has not been used. -/
def Channel.ofKeys (keys : List Keystroke) : Channel Line := { device := { keys } }

theorem buffered_useAll (keys : List Keystroke) (uses : List Use) :
    Buffered ((Channel.ofKeys keys).useAll uses) := by
  have hstart : Buffered (Channel.ofKeys keys) :=
    ⟨unended_nil, fun chunk hchunk => absurd hchunk List.not_mem_nil⟩
  exact Channel.useAll_keeps (fun c u _ hc => hc.use u) hstart

/-- However a line console has been used, and whatever its host hands over or fails with: the chunks
that it has shown and the bytes that it holds back are the bytes that it was given, in order. It
holds back the beginning of a line, and has shown nothing but chunks. With the next use, handing
over a byte brings out a chunk only if that ends a line or has the length of the full buffer, and
any other use leaves nothing held back. -/
theorem line_holds_back_unended_line (keys : List Keystroke) (uses : List Use) :
    let c := (Channel.ofKeys keys).useAll uses
    c.journal.chunks.flatten ++ c.device.buffer.toList = uses.flatMap Use.bytes ∧
      Unended c.device.buffer.toList ∧ (∀ chunk ∈ c.journal.chunks, IsChunk chunk) ∧
      ∀ u, ∃ chunks, (c.use u).journal.chunks = c.journal.chunks ++ chunks ∧
        (∀ code, u = .write code →
          ∀ chunk ∈ chunks, chunk.getLast? = some 0x0a ∨ chunk.length = 4096) ∧
        (u = .read ∨ u = .poll ∨ u = .flush → (c.use u).device.buffer = #[]) := by
  intro c
  have hbuffered : Buffered c := buffered_useAll keys uses
  refine ⟨?_, hbuffered.held, hbuffered.chunks, fun u => ?_⟩
  · rw [flatten_chunks]
    exact produced_useAll accepting_line (Channel.ofKeys keys) uses
  · obtain ⟨chunks, hchunks, hshows⟩ := use_shows c u
    refine ⟨chunks, hchunks, ?_, fun hu => ?_⟩
    · rintro code rfl
      exact hshows.full_chunk hbuffered.held
    · have hflushes : u.Flushes := by
        rintro code rfl
        simp at hu
      exact Array.toList_eq_nil_iff.1 (hshows.left_eq_nil hflushes)

end LC3
