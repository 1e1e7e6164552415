import LC3.Console.Basic

/-!
# The line console

The console on a host terminal. Output is held back until a line ends, the buffer is full, somebody
flushes, or a key is wanted, so that the user has seen everything before a key is asked for. Keys
come one at a time from the host. The host has no way to look for a key without waiting for one, so
polling waits.

The host is a script: the keystrokes that it is going to hand over. When the script is used up the
host hands over the empty keystroke, the sign that input has ended.
-/

namespace LC3

/-- A console that buffers output by lines and asks its host for keys. -/
structure Line where
  /-- The bytes held back. -/
  buffer : Array UInt8 := #[]
  /-- The keystrokes that the host is going to hand over. -/
  keys : List Keystroke := []
  deriving DecidableEq

namespace Line

/-- The code of the key that asks for the run to end. -/
def interruptCode : Nat := 0x03

/-- The code that the enter key sends. -/
def carriageReturn : Nat := 0x0d

/-- The code that ends a line. -/
def lineFeed : Nat := 0x0a

/-- The number of bytes that are never held back. -/
def capacity : Nat := 4096

/-! ## Output -/

/-- Pushes out the bytes held back, if there are any. -/
def flush : Line → Reply Line Unit
  | ⟨buffer, keys⟩ =>
    if buffer.isEmpty then
      { answer := .ok (), device := ⟨buffer, keys⟩ }
    else
      { answer := .ok (), device := ⟨#[], keys⟩, traffic := [.output buffer.toList] }

/-- Takes the low byte of a code, and pushes it out with all bytes before it if it ends a line or
fills the buffer. -/
def write (code : Int) : Line → Reply Line Unit
  | ⟨buffer, keys⟩ =>
    let byte := UInt8.ofInt code
    let buffer := buffer.push byte
    if byte.toNat = lineFeed ∨ buffer.size ≥ capacity then
      flush ⟨buffer, keys⟩
    else
      { answer := .ok (), device := ⟨buffer, keys⟩ }

/-! ## Keys -/

/-- What a key in the 8-bit range stands for: the interrupt key ends the run, and the enter key ends
a line like any other line. -/
def meaning (code : Nat) : Except Fault Int :=
  if code = interruptCode then .error .interrupted
  else if code = carriageReturn then .ok lineFeed
  else .ok code

/-- Asks the host for keys until one is in the 8-bit range or there will be none. The answer comes
with the keystrokes that are left and those that were handed over. Only the first character of a
keystroke counts. -/
def nextKey : List Keystroke → Except Fault Int × List Keystroke × List Traffic
  | [] => (.error .inputClosed, [], [.key (.text "")])
  | .broken f :: rest => (.error f, rest, [.key (.broken f)])
  | .text s :: rest =>
    match s.toList with
    | [] => (.error .inputClosed, rest, [.key (.text s)])
    | c :: _ =>
      if c.toNat > 0xff then
        let (answer, left, traffic) := nextKey rest
        (answer, left, .key (.text s) :: traffic)
      else
        (meaning c.toNat, rest, [.key (.text s)])

/-- Pushes out the bytes held back and waits for a key. -/
def read (line : Line) : Reply Line Int :=
  let flushed := flush line
  let (answer, left, traffic) := nextKey line.keys
  { answer, device := ⟨flushed.device.buffer, left⟩, traffic := flushed.traffic ++ traffic }

/-- Waits for a key like `read`, so there always is one. -/
def poll (line : Line) : Reply Line (Option Int) :=
  let reply := read line
  { answer := reply.answer.map some, device := reply.device, traffic := reply.traffic }

instance : Console Line := ⟨read, poll, write, flush⟩

@[simp]
theorem buffer_flush (line : Line) : (flush line).device.buffer = #[] := by
  cases line
  dsimp only [flush]
  split <;> simp_all

@[simp]
theorem keys_flush (line : Line) : (flush line).device.keys = line.keys := by
  cases line
  dsimp only [flush]
  split <;> rfl

end Line

end LC3
