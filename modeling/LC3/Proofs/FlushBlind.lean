import LC3.Console.Line
import LC3.Console.Queue
import LC3.Console.Scripted
import LC3.Proofs.Journals

/-!
# Consoles that do not notice a flush

A flush moves output from one place to another. A console is blind to flushes if nothing that it
answers later depends on where its output is. What a program does on such a console is told by its
talk, the calls that carry data and the keystrokes that they take from the host, and by the bytes
that it has produced so far, pushed out or held back.
-/

namespace LC3

/-! ## Talk -/

/-- Whether something was taken from the host. -/
def Traffic.isKey : Traffic → Bool
  | .key _ => true
  | _ => false

/-- The bytes that the host was given. -/
def Traffic.shown : Traffic → List UInt8
  | .output chunk => chunk
  | _ => []

/-- Whether an event belongs to the talk of a program with its console. -/
def Event.isTalk : Event → Bool
  | .call .flush => false
  | .call _ => true
  | .host t => t.isKey
  | _ => false

/-- The bytes that the host was given. -/
def Event.shown : Event → List UInt8
  | .host t => t.shown
  | _ => []

/-- The chunks of output that the host was given. -/
def Event.chunks : Event → List (List UInt8)
  | .host (.output chunk) => [chunk]
  | _ => []

/-- The bytes that the console was given. -/
def Event.written : Event → List UInt8
  | .call (.write code) => [UInt8.ofInt code]
  | _ => []

namespace Journal

/-- The talk of a program with its console. -/
def talk (j : Journal) : List Event := j.toList.filter Event.isTalk

/-- All bytes that the host was given. -/
def shown (j : Journal) : List UInt8 := j.toList.flatMap Event.shown

/-- All bytes that the console was given. -/
def written (j : Journal) : List UInt8 := j.toList.flatMap Event.written

end Journal

section After

variable {σ α : Type} (c : Channel σ) (reply : Reply σ α) (call : Except Fault α → Call)

theorem talk_after :
    (c.after reply call).journal.talk =
      c.journal.talk ++ ((reply.traffic.filter Traffic.isKey).map .host ++
        [Event.call (call reply.answer)].filter Event.isTalk) := by
  have hhost : (reply.traffic.map Event.host).filter Event.isTalk =
      (reply.traffic.filter Traffic.isKey).map .host := List.filter_map ..
  unfold Journal.talk
  rw [toList_journal_after, List.filter_append, List.filter_append, hhost]

theorem shown_after :
    (c.after reply call).journal.shown =
      c.journal.shown ++ reply.traffic.flatMap Traffic.shown := by
  have hhost : (reply.traffic.map Event.host).flatMap Event.shown =
      reply.traffic.flatMap Traffic.shown := List.flatMap_map ..
  unfold Journal.shown
  rw [toList_journal_after, List.flatMap_append, List.flatMap_append, hhost]
  exact congrArg _ (List.append_nil _)

theorem written_after :
    (c.after reply call).journal.written =
      c.journal.written ++ Event.written (.call (call reply.answer)) := by
  have hhost : (reply.traffic.map Event.host).flatMap Event.written = [] := by
    rw [List.flatMap_map]
    exact List.flatMap_eq_nil_iff.2 fun _ _ => rfl
  unfold Journal.written
  rw [toList_journal_after, List.flatMap_append, List.flatMap_append, hhost, List.nil_append]
  exact congrArg _ (List.append_nil _)

end After

/-! ## Blindness -/

/-- The same answer, the same keystrokes, and the same input left. -/
structure SameReply {σ ι α : Type} (input : σ → ι) (r r' : Reply σ α) : Prop where
  answer : r.answer = r'.answer
  input : input r.device = input r'.device
  keys : r.traffic.filter Traffic.isKey = r'.traffic.filter Traffic.isKey

/-- The bytes that a write adds to the output: none if it is refused. -/
def taken (code : Int) : Except Fault Unit → List UInt8
  | .ok _ => [UInt8.ofInt code]
  | .error _ => []

/-- A console whose answers do not depend on what has been flushed. -/
class FlushBlind (σ : Type) [Console σ] where
  /-- What is left to read, whatever the answers depend on. -/
  Input : Type
  /-- The input of a device. -/
  input : σ → Input
  /-- The bytes that have been pushed out. -/
  pushed : Channel σ → List UInt8
  /-- The bytes that are held back. -/
  held : σ → List UInt8
  sameRead {d e : σ} (h : input d = input e) : SameReply input (Console.read d) (Console.read e)
  samePoll {d e : σ} (h : input d = input e) : SameReply input (Console.poll d) (Console.poll e)
  sameWrite {d e : σ} (h : input d = input e) (code : Int) :
    SameReply input (Console.write code d) (Console.write code e)
  answer_flush (d : σ) : (Console.flush d).answer = .ok ()
  input_flush (d : σ) : input (Console.flush d).device = input d
  keys_flush (d : σ) : (Console.flush d).traffic.filter Traffic.isKey = []
  held_flush (d : σ) : held (Console.flush d).device = []
  output_read (c : Channel σ) :
    pushed (c.after (Console.read c.device) .read) ++ held (Console.read c.device).device =
      pushed c ++ held c.device
  output_poll (c : Channel σ) :
    pushed (c.after (Console.poll c.device) .poll) ++ held (Console.poll c.device).device =
      pushed c ++ held c.device
  output_write (code : Int) (c : Channel σ) :
    pushed (c.after (Console.write code c.device) fun _ => .write code) ++
        held (Console.write code c.device).device =
      pushed c ++ held c.device ++ taken code (Console.write code c.device).answer
  output_flush (c : Channel σ) :
    pushed (c.after (Console.flush c.device) fun _ => .flush) ++
        held (Console.flush c.device).device =
      pushed c ++ held c.device
  pushed_pause (d : σ) (j : Journal) : pushed ⟨d, j.push .pause⟩ = pushed ⟨d, j⟩

instance : FlushBlind Queue where
  Input := List UInt8
  input := Queue.waiting
  pushed c := c.device.flushed.toList
  held q := q.pending.toList
  sameRead := by
    rintro ⟨waiting, flushed, pending⟩ ⟨_, flushed', pending'⟩ ⟨⟩
    cases waiting with
    | nil => exact ⟨rfl, rfl, rfl⟩
    | cons code rest => exact ⟨rfl, rfl, rfl⟩
  samePoll := by
    rintro ⟨waiting, flushed, pending⟩ ⟨_, flushed', pending'⟩ ⟨⟩
    cases waiting with
    | nil => exact ⟨rfl, rfl, rfl⟩
    | cons code rest => exact ⟨rfl, rfl, rfl⟩
  sameWrite h code := ⟨rfl, h, rfl⟩
  answer_flush _ := rfl
  input_flush _ := rfl
  keys_flush _ := rfl
  held_flush _ := rfl
  output_read := by
    rintro ⟨⟨waiting, flushed, pending⟩, journal⟩
    cases waiting with
    | nil => rfl
    | cons code rest => rfl
  output_poll := by
    rintro ⟨⟨waiting, flushed, pending⟩, journal⟩
    cases waiting with
    | nil => rfl
    | cons code rest => rfl
  output_write := by
    rintro code ⟨⟨waiting, flushed, pending⟩, journal⟩
    show flushed.toList ++ (pending.push (UInt8.ofInt code)).toList = _
    rw [Array.toList_push, ← List.append_assoc]
    rfl
  output_flush := by
    rintro ⟨⟨waiting, flushed, pending⟩, journal⟩
    show (flushed ++ pending).toList ++ [] = flushed.toList ++ pending.toList
    rw [Array.toList_append, List.append_nil]
  pushed_pause _ _ := rfl

namespace Line

/-- A flush of a line is silent, or it shows the buffer. -/
theorem flush_eq (line : Line) :
    flush line =
      { answer := .ok ()
        device := ⟨#[], line.keys⟩
        traffic := if line.buffer.isEmpty then [] else [.output line.buffer.toList] } := by
  obtain ⟨buffer, keys⟩ := line
  show (if buffer.isEmpty then _ else _) = _
  by_cases hempty : buffer.isEmpty
  · have hbuffer : buffer = #[] := Array.isEmpty_iff.1 hempty
    subst hbuffer
    rfl
  · rw [if_neg hempty, if_neg hempty]

theorem isKey_flush (line : Line) : (flush line).traffic.filter Traffic.isKey = [] := by
  rw [flush_eq]
  by_cases hempty : line.buffer.isEmpty
  · rw [if_pos hempty]
    rfl
  · rw [if_neg hempty]
    rfl

theorem shown_flush (line : Line) :
    (flush line).traffic.flatMap Traffic.shown = line.buffer.toList := by
  rw [flush_eq]
  by_cases hempty : line.buffer.isEmpty
  · rw [if_pos hempty, Array.isEmpty_iff.1 hempty]
    rfl
  · rw [if_neg hempty]
    exact List.append_nil _

theorem isKey_nextKey (keys : List Keystroke) : ∀ t ∈ (nextKey keys).2.2, t.isKey = true := by
  induction keys with
  | nil => exact fun t ht => List.mem_singleton.1 ht ▸ rfl
  | cons k rest ih =>
    cases k with
    | broken f => exact fun t ht => List.mem_singleton.1 ht ▸ rfl
    | text s =>
      unfold nextKey
      split
      · exact fun t ht => List.mem_singleton.1 ht ▸ rfl
      · split
        · intro t ht
          rcases List.mem_cons.1 ht with rfl | ht
          · rfl
          · exact ih t ht
        · exact fun t ht => List.mem_singleton.1 ht ▸ rfl

theorem shown_of_isKey {t : Traffic} (h : t.isKey = true) : t.shown = [] := by
  cases t with
  | key k => rfl
  | output chunk => cases h
  | rawMode on => cases h

theorem shown_read (line : Line) :
    (read line).traffic.flatMap Traffic.shown = line.buffer.toList := by
  have hkeys : (nextKey line.keys).2.2.flatMap Traffic.shown = [] :=
    List.flatMap_eq_nil_iff.2 fun t ht => shown_of_isKey (isKey_nextKey _ t ht)
  show ((flush line).traffic ++ (nextKey line.keys).2.2).flatMap Traffic.shown = _
  rw [List.flatMap_append, shown_flush, hkeys, List.append_nil]

/-- A write holds the byte back or flushes it with the others. -/
theorem write_cases (code : Int) (line : Line) :
    write code line = flush ⟨line.buffer.push (UInt8.ofInt code), line.keys⟩ ∨
      write code line =
        { answer := .ok (), device := ⟨line.buffer.push (UInt8.ofInt code), line.keys⟩ } := by
  obtain ⟨buffer, keys⟩ := line
  unfold write
  dsimp only
  split
  · exact .inl rfl
  · exact .inr rfl

theorem sameRead {d e : Line} (h : d.keys = e.keys) : SameReply keys (read d) (read e) := by
  refine ⟨?_, ?_, ?_⟩
  · show (nextKey d.keys).1 = (nextKey e.keys).1
    rw [h]
  · show (nextKey d.keys).2.1 = (nextKey e.keys).2.1
    rw [h]
  · show ((flush d).traffic ++ (nextKey d.keys).2.2).filter Traffic.isKey =
      ((flush e).traffic ++ (nextKey e.keys).2.2).filter Traffic.isKey
    rw [List.filter_append, List.filter_append, isKey_flush, isKey_flush, h]

theorem write_quiet (code : Int) (line : Line) :
    (write code line).answer = .ok () ∧ (write code line).device.keys = line.keys ∧
      (write code line).traffic.filter Traffic.isKey = [] := by
  rcases write_cases code line with h | h
  · rw [h]
    refine ⟨?_, keys_flush _, isKey_flush _⟩
    rw [flush_eq]
  · rw [h]
    exact ⟨rfl, rfl, rfl⟩

theorem sameWrite {d e : Line} (h : d.keys = e.keys) (code : Int) :
    SameReply keys (write code d) (write code e) := by
  obtain ⟨hd, hdkeys, hdtalk⟩ := write_quiet code d
  obtain ⟨he, hekeys, hetalk⟩ := write_quiet code e
  refine ⟨hd.trans he.symm, ?_, hdtalk.trans hetalk.symm⟩
  rw [hdkeys, hekeys, h]

/-- A write adds its byte to what was shown and what is held back. -/
theorem shown_write (code : Int) (line : Line) :
    (write code line).traffic.flatMap Traffic.shown ++ (write code line).device.buffer.toList =
      line.buffer.toList ++ [UInt8.ofInt code] := by
  rcases write_cases code line with h | h
  · rw [h, shown_flush, buffer_flush, Array.toList_push]
    exact List.append_nil _
  · rw [h, List.flatMap_nil, List.nil_append, Array.toList_push]

end Line

instance : FlushBlind Line where
  Input := List Keystroke
  input := Line.keys
  pushed c := c.journal.shown
  held line := line.buffer.toList
  sameRead := Line.sameRead
  samePoll h :=
    ⟨congrArg (Except.map some) (Line.sameRead h).answer, (Line.sameRead h).input,
      (Line.sameRead h).keys⟩
  sameWrite := Line.sameWrite
  answer_flush line := congrArg Reply.answer (Line.flush_eq line)
  input_flush := Line.keys_flush
  keys_flush := Line.isKey_flush
  held_flush line := congrArg Array.toList (Line.buffer_flush line)
  output_read c := by
    have hbuffer : (Line.read c.device).device.buffer = #[] := Line.buffer_flush _
    show _ ++ (Line.read c.device).device.buffer.toList = _
    rw [shown_after, hbuffer, List.append_nil]
    exact congrArg _ (Line.shown_read c.device)
  output_poll c := by
    have hbuffer : (Line.poll c.device).device.buffer = #[] := Line.buffer_flush _
    show _ ++ (Line.poll c.device).device.buffer.toList = _
    rw [shown_after, hbuffer, List.append_nil]
    exact congrArg _ (Line.shown_read c.device)
  output_write code c := by
    have hanswer : (Console.write code c.device).answer = .ok () := (Line.write_quiet _ _).1
    rw [shown_after, hanswer, List.append_assoc, List.append_assoc]
    exact congrArg _ (Line.shown_write code c.device)
  output_flush c := by
    have hbuffer : (Line.flush c.device).device.buffer = #[] := Line.buffer_flush _
    show _ ++ (Line.flush c.device).device.buffer.toList = _
    rw [shown_after, hbuffer, List.append_nil]
    exact congrArg _ (Line.shown_flush c.device)
  pushed_pause d j := by
    show Journal.shown (j.push .pause) = j.shown
    unfold Journal.shown
    rw [Array.toList_push, List.flatMap_append]
    exact List.append_nil _

instance : FlushBlind Scripted where
  Input := Scripted
  input := id
  pushed c := c.journal.written
  held _ := []
  sameRead := by
    rintro ⟨reads, polls⟩ _ rfl
    exact ⟨rfl, rfl, rfl⟩
  samePoll := by
    rintro ⟨reads, polls⟩ _ rfl
    exact ⟨rfl, rfl, rfl⟩
  sameWrite h code := ⟨rfl, h, rfl⟩
  answer_flush _ := rfl
  input_flush _ := rfl
  keys_flush _ := rfl
  held_flush _ := rfl
  output_read c := by
    rw [written_after, List.append_assoc]
    rfl
  output_poll c := by
    rw [written_after, List.append_assoc]
    rfl
  output_write code c := by
    rw [written_after, List.append_nil, List.append_nil]
    rfl
  output_flush c := by
    rw [written_after, List.append_assoc]
    rfl
  pushed_pause d j := by
    show Journal.written (j.push .pause) = j.written
    unfold Journal.written
    rw [Array.toList_push, List.flatMap_append]
    exact List.append_nil _

/-! ## Programs on a blind console -/

section Programs

variable {σ : Type} [Console σ] [FlushBlind σ] {c d e : Channel σ}

open FlushBlind

/-- All bytes that a program has written: those pushed out and, behind them, those held back. -/
def produced (c : Channel σ) : List UInt8 := pushed c ++ held c.device

/-- Two channels that no program has a way to tell apart, except by what has been flushed. -/
structure SameTalk (c d : Channel σ) : Prop where
  input : input c.device = input d.device
  /-- The same was asked for and handed over, in the same order. -/
  talk : c.journal.talk = d.journal.talk
  produced : produced c = produced d

theorem SameTalk.refl (c : Channel σ) : SameTalk c c := ⟨rfl, rfl, rfl⟩

theorem SameTalk.symm (h : SameTalk c d) : SameTalk d c :=
  ⟨h.input.symm, h.talk.symm, h.produced.symm⟩

theorem SameTalk.trans (h : SameTalk c d) (h' : SameTalk d e) : SameTalk c e :=
  ⟨h.input.trans h'.input, h.talk.trans h'.talk, h.produced.trans h'.produced⟩

/-- An operation with the same reply on both sides keeps the talk the same. -/
theorem exchanges_of_sameReply {α : Type} {operation : σ → Reply σ α}
    {call : Except Fault α → Call} (output : Except Fault α → List UInt8)
    (hreply : ∀ {d e : σ}, input d = input e → SameReply input (operation d) (operation e))
    (houtput : ∀ c : Channel σ, produced (c.after (operation c.device) call) =
      produced c ++ output (operation c.device).answer) :
    Exchanges (fun _ => False) SameTalk operation operation call := by
  refine ⟨fun _ h => h, fun c d h => .inr ?_⟩
  obtain ⟨hanswer, hinput, hkeys⟩ := hreply h.input
  refine ⟨hanswer, hinput, ?_, ?_⟩
  · rw [talk_after, talk_after, h.talk, hkeys, hanswer]
  · rw [houtput, houtput, h.produced, hanswer]

theorem produced_flush (c : Channel σ) :
    produced (c.after (Console.flush c.device) fun _ => .flush) = produced c := output_flush c

theorem sameTalk_flush (c : Channel σ) :
    SameTalk (c.after (Console.flush c.device) fun _ => .flush) c := by
  refine ⟨input_flush _, ?_, produced_flush c⟩
  rw [talk_after, keys_flush]
  exact List.append_nil _

theorem sameTalk_pause (d : σ) (j : Journal) : SameTalk ⟨d, j.push .pause⟩ ⟨d, j⟩ := by
  refine ⟨rfl, ?_, congrArg (· ++ held d) (pushed_pause d j)⟩
  show Journal.talk (j.push .pause) = j.talk
  unfold Journal.talk
  rw [Array.toList_push, List.filter_append]
  exact List.append_nil _

theorem sameTalk_simulation :
    ChannelSimulation (fun _ => False) (SameTalk : Channel σ → Channel σ → Prop) where
  read := exchanges_of_sameReply (fun _ => []) sameRead fun c =>
    (output_read c).trans (List.append_nil _).symm
  poll := exchanges_of_sameReply (fun _ => []) samePoll fun c =>
    (output_poll c).trans (List.append_nil _).symm
  write code := exchanges_of_sameReply (taken code) (fun h => sameWrite h code) (output_write code)
  flush := by
    refine ⟨fun _ h => h, fun c d h => .inr ⟨?_, ?_⟩⟩
    · rw [answer_flush, answer_flush]
    · exact ((sameTalk_flush c).trans h).trans (sameTalk_flush d).symm
  pauseLost _ h := h
  pause c d h :=
    ((sameTalk_pause c.device c.journal).trans h).trans (sameTalk_pause d.device d.journal).symm

end Programs

end LC3
