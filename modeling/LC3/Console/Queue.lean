import LC3.Console.Basic
import LC3.Text.Units

/-!
# The queue console

A console without a host. Its input is a queue of codes, filled beforehand or between steps; its
output is collected in two parts, what has been flushed and what has not. Codes are bytes on both
sides: a text is taken by its code units, and of each only the low byte is kept. It is a text, so
its surrogates come in pairs.
-/

namespace LC3

/-- A console that is fed and emptied by whoever holds it. -/
structure Queue where
  /-- The codes not read yet, the next one first. -/
  waiting : List UInt8 := []
  /-- The bytes flushed so far. -/
  flushed : Array UInt8 := #[]
  /-- The bytes written since the last flush. -/
  pending : Array UInt8 := #[]
  deriving DecidableEq

namespace Queue

/-- The codes that a text stands for: the low bytes of its code units. -/
def codes (s : String) : List UInt8 := (Text.units s).map UInt8.ofNat

/-- Queues a text behind the codes that wait already. -/
def send (s : String) (q : Queue) : Queue := { q with waiting := q.waiting ++ codes s }

/-- A queue console with a text to read. -/
def ofInput (s : String) : Queue := send s {}

/-- Takes the next code. Without one it fails, for nobody is going to send more while a program
waits. -/
def read : Queue → Reply Queue Int
  | ⟨code :: rest, flushed, pending⟩ =>
    { answer := .ok code.toNat, device := ⟨rest, flushed, pending⟩ }
  | ⟨[], flushed, pending⟩ =>
    { answer := .error .inputClosed, device := ⟨[], flushed, pending⟩ }

/-- Takes the next code if there is one. -/
def poll : Queue → Reply Queue (Option Int)
  | ⟨code :: rest, flushed, pending⟩ =>
    { answer := .ok (some code.toNat), device := ⟨rest, flushed, pending⟩ }
  | ⟨[], flushed, pending⟩ => { answer := .ok none, device := ⟨[], flushed, pending⟩ }

/-- Collects the low byte of a code. -/
def write (code : Int) : Queue → Reply Queue Unit
  | ⟨waiting, flushed, pending⟩ =>
    { answer := .ok (), device := ⟨waiting, flushed, pending.push (UInt8.ofInt code)⟩ }

/-- Moves the pending bytes behind the flushed ones. -/
def flush : Queue → Reply Queue Unit
  | ⟨waiting, flushed, pending⟩ =>
    { answer := .ok (), device := ⟨waiting, flushed ++ pending, #[]⟩ }

instance : Console Queue := ⟨read, poll, write, flush⟩

end Queue

end LC3
