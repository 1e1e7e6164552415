import LC3.Proofs.Calls
import LC3.Proofs.QueueFaults
import LC3.Proofs.UnreadInput
import LC3.Proofs.Uses

/-!
# The two streams of a queue

A queue passes on two streams. The codes that were sent are read or polled in the order in which
they were sent, and until then they wait. The bytes that were written are pending, and a flush moves
all of them behind those that were flushed before. Neither stream loses anything, doubles anything
or changes an order, whatever the uses are and however they are mixed with what is sent.
-/

namespace LC3

/-! ## What a queue gives -/

/-- The code that a call was answered with, if there was one. -/
def Call.given : Call → List Int
  | .read (.ok code) => [code]
  | .poll (.ok (some code)) => [code]
  | _ => []

/-- All codes that calls were answered with, in order. -/
def Journal.given (j : Journal) : List Int := j.calls.flatMap Call.given

theorem given_after {σ α : Type} (c : Channel σ) (reply : Reply σ α)
    (call : Except Fault α → Call) :
    (c.after reply call).journal.given = c.journal.given ++ (call reply.answer).given := by
  unfold Journal.given
  rw [calls_after, List.flatMap_append, List.flatMap_singleton]

/-- Bytes as the codes that a program reads. -/
def codesOf (bytes : List UInt8) : List Int := bytes.map fun b => (b.toNat : Int)

/-- A queue answers from its front. Without a code there it answers that there is none, and stays as
it is. -/
structure AnswersFront (q : Queue) : Prop where
  front : ∀ code rest, q.waiting = code :: rest →
    (Console.read q).answer = .ok code.toNat ∧ (Console.poll q).answer = .ok (some code.toNat)
  closed : ∀ f, (Console.read q).answer = .error f ↔ q.waiting = [] ∧ f = .inputClosed
  noKey : (Console.poll q).answer = .ok none ↔ q.waiting = []
  unchanged : q.waiting = [] → (Console.read q).device = q ∧ (Console.poll q).device = q

theorem answersFront (q : Queue) : AnswersFront q := by
  obtain ⟨waiting, flushed, pending⟩ := q
  cases waiting with
  | nil =>
    refine ⟨nofun, fun f => ⟨?_, ?_⟩, iff_of_true rfl rfl, fun _ => ⟨rfl, rfl⟩⟩
    · rintro ⟨⟩
      exact ⟨rfl, rfl⟩
    · rintro ⟨-, rfl⟩
      rfl
  | cons code rest =>
    refine ⟨?_, fun f => ⟨nofun, nofun⟩, ⟨nofun, nofun⟩, nofun⟩
    rintro _ _ ⟨⟩
    exact ⟨rfl, rfl⟩

/-! ## Handling a queue -/

/-- What the holder of a queue can do with it. -/
inductive Handling where
  /-- Uses it like a program. -/
  | use (u : Use)
  /-- Hands over a text. -/
  | print (text : String)
  /-- Queues a text behind the codes that wait. -/
  | send (text : String)
  deriving DecidableEq

namespace Handling

/-- The bytes that are handed over. -/
def bytes : Handling → List UInt8
  | use u => u.bytes
  | print text => Queue.codes text
  | send _ => []

/-- The codes that are sent. -/
def sent : Handling → List UInt8
  | send text => Queue.codes text
  | _ => []

end Handling

namespace Channel

/-- A queue with a text to read that has not been used. -/
def ofInput (input : String) : Channel Queue := { device := .ofInput input }

/-- The channel behind one thing that is done with its queue. -/
def handle (c : Channel Queue) : Handling → Channel Queue
  | .use u => c.use u
  | .print text => leaving (writeText text) c
  | .send text => c.sent text

/-- The channel behind all that is done with its queue, in order. -/
def handleAll (c : Channel Queue) (hs : List Handling) : Channel Queue := hs.foldl handle c

end Channel

/-! ## Input -/

/-- The codes that a queue has given and those that wait, in the order in which they were sent. -/
def Channel.input (c : Channel Queue) : List Int := c.journal.given ++ codesOf c.device.waiting

theorem input_use (c : Channel Queue) (u : Use) : (c.use u).input = c.input := by
  obtain ⟨⟨waiting, flushed, pending⟩, journal⟩ := c
  unfold Channel.input
  cases u with
  | read =>
    rw [Channel.use_read, given_after]
    cases waiting with
    | nil => exact congrArg (· ++ _) (List.append_nil _)
    | cons code rest => exact List.append_assoc ..
  | poll =>
    rw [Channel.use_poll, given_after]
    cases waiting with
    | nil => exact congrArg (· ++ _) (List.append_nil _)
    | cons code rest => exact List.append_assoc ..
  | write code =>
    rw [Channel.use_write, given_after]
    exact congrArg (· ++ _) (List.append_nil _)
  | flush =>
    rw [Channel.use_flush, given_after]
    exact congrArg (· ++ _) (List.append_nil _)

theorem input_handle (c : Channel Queue) (h : Handling) :
    (c.handle h).input = c.input ++ codesOf h.sent := by
  cases h with
  | use u => exact (input_use c u).trans (List.append_nil _).symm
  | print text =>
    have hkept : (c.useAll (Use.text text)).input = c.input := by
      refine Channel.useAll_keeps (P := fun d : Channel Queue => d.input = c.input) ?_ rfl
      intro d u _ hd
      exact (input_use d u).trans hd
    show (Channel.leaving _ c).input = _
    rw [leaving_writeText accepting_queue, hkept]
    exact (List.append_nil _).symm
  | send text =>
    show c.journal.given ++ codesOf (c.device.waiting ++ Queue.codes text) = _
    unfold codesOf Channel.input
    rw [List.map_append, ← List.append_assoc]
    rfl

theorem input_handleAll (c : Channel Queue) (hs : List Handling) :
    (c.handleAll hs).input = c.input ++ codesOf (hs.flatMap Handling.sent) := by
  have hinput : (c.handleAll hs).input = c.input ++ hs.flatMap fun h => codesOf h.sent :=
    foldl_appends input_handle c hs
  unfold codesOf at *
  rw [hinput, List.map_flatMap]

/-! ## Output -/

theorem bytes_text (text : String) : (Use.text text).flatMap Use.bytes = Queue.codes text := by
  unfold Use.text Queue.codes
  rw [List.flatMap_map]
  induction Text.units text with
  | nil => rfl
  | cons unit units ih =>
    rw [List.flatMap_cons, ih, List.map_cons]
    exact congrArg (· :: _) (ofInt_natCast unit)

theorem produced_handle (c : Channel Queue) (h : Handling) :
    produced (c.handle h) = produced c ++ h.bytes := by
  cases h with
  | use u => exact produced_use accepting_queue c u
  | print text =>
    show produced (Channel.leaving _ c) = _
    rw [leaving_writeText accepting_queue, produced_useAll accepting_queue, bytes_text]
    rfl
  | send text => exact (List.append_nil _).symm

theorem produced_handleAll (c : Channel Queue) (hs : List Handling) :
    produced (c.handleAll hs) = produced c ++ hs.flatMap Handling.bytes :=
  foldl_appends produced_handle c hs

theorem flushed_use (c : Channel Queue) {u : Use} (hu : u ≠ .flush) :
    (c.use u).device.flushed = c.device.flushed := by
  obtain ⟨⟨waiting, flushed, pending⟩, journal⟩ := c
  cases u with
  | read =>
    rw [Channel.use_read]
    cases waiting <;> rfl
  | poll =>
    rw [Channel.use_poll]
    cases waiting <;> rfl
  | write code =>
    rw [Channel.use_write]
    rfl
  | flush => exact absurd rfl hu

/-- Only a flush changes what was flushed. -/
theorem flushed_handle (c : Channel Queue) {h : Handling} (hh : h ≠ .use .flush) :
    (c.handle h).device.flushed = c.device.flushed := by
  cases h with
  | use u => exact flushed_use c fun hu => hh (congrArg Handling.use hu)
  | print text =>
    show (Channel.leaving _ c).device.flushed = _
    rw [leaving_writeText accepting_queue]
    refine Channel.useAll_keeps
      (P := fun d : Channel Queue => d.device.flushed = c.device.flushed) ?_ rfl
    intro d u hu hd
    obtain ⟨unit, -, rfl⟩ := List.mem_map.1 hu
    have hwrite : Use.write unit ≠ .flush := nofun
    exact (flushed_use d hwrite).trans hd
  | send text => rfl

/-! ## Both streams -/

/-- Whatever is done with a queue: the codes that it has given and those that wait are the codes
that were sent, in order. It answers from its front, and only without a code there it says so and
stays as it is. The bytes that were flushed and those that are pending are the bytes that were
handed over, in order. Only a flush changes what was flushed, and it puts everything pending behind
it. -/
theorem queue_conserves_streams (input : String) (hs : List Handling) :
    let c := (Channel.ofInput input).handleAll hs
    c.journal.given ++ codesOf c.device.waiting =
        codesOf (Queue.codes input ++ hs.flatMap Handling.sent) ∧
      AnswersFront c.device ∧
      c.device.flushed.toList ++ c.device.pending.toList = hs.flatMap Handling.bytes ∧
      ∀ h, (h ≠ .use .flush → (c.handle h).device.flushed = c.device.flushed) ∧
        (h = .use .flush → (c.handle h).device.flushed = c.device.flushed ++ c.device.pending ∧
          (c.handle h).device.pending = #[]) := by
  intro c
  refine ⟨?_, answersFront c.device, ?_, fun h => ⟨flushed_handle c, ?_⟩⟩
  · have hinput : c.input = _ := input_handleAll (Channel.ofInput input) hs
    unfold codesOf at *
    rw [List.map_append]
    exact hinput
  · exact produced_handleAll (Channel.ofInput input) hs
  · rintro rfl
    show (c.use .flush).device.flushed = _ ∧ (c.use .flush).device.pending = _
    rw [Channel.use_flush]
    exact ⟨rfl, rfl⟩

/-- A code of zero is a key. -/
example : (Console.poll (Queue.ofInput "\x00")).answer = .ok (some 0) := rfl

end LC3
