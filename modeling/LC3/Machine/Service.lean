import LC3.Machine.Basic

/-!
# Trap services

Six services do input and output for a program. R0 carries the argument and the result; no other
register, and not the condition, is touched. A service ends with the run state that the machine is
to have afterwards.

The two services that print a stored string read memory until they find its end. Memory wraps
around, and reading the keyboard status register changes memory while the string is being read, so
nothing in the machine bounds the search: it is given fuel, the number of words it may read.
-/

namespace LC3

/-- A trap service. -/
inductive Service where
  /-- Reads a character into R0. -/
  | getCharacter
  /-- Writes the character in R0. -/
  | putCharacter
  /-- Writes the string at R0, a character in each word. -/
  | putWords
  /-- Asks the user for a character, shows it and leaves it in R0. -/
  | askCharacter
  /-- Writes the string at R0, two characters in each word. -/
  | putBytes
  | halt
  deriving DecidableEq, Repr

namespace Service

/-- The number of a service. -/
def vector : Service → Int
  | getCharacter => 0x20
  | putCharacter => 0x21
  | putWords => 0x22
  | askCharacter => 0x23
  | putBytes => 0x24
  | halt => 0x25

/-- The service that has a number, if there is one. -/
def ofVector? : Int → Option Service
  | 0x20 => some getCharacter
  | 0x21 => some putCharacter
  | 0x22 => some putWords
  | 0x23 => some askCharacter
  | 0x24 => some putBytes
  | 0x25 => some halt
  | _ => none

/-- What the user is asked for a character with. -/
def prompt : String := "Enter a character: "

/-- What the user is told when the machine halts. -/
def farewell : String := "HALT\n"

@[simp]
theorem ofVector?_vector (s : Service) : ofVector? s.vector = some s := by
  cases s <;> rfl

theorem vector_of_ofVector? {n : Int} {s : Service} (h : ofVector? n = some s) : s.vector = n := by
  unfold ofVector? at h
  split at h <;> cases h <;> rfl

end Service

namespace MachineM

variable {σ : Type} [Console σ]

/-- Writes a byte. -/
def writeByte (b : UInt8) : MachineM σ Unit := atChannel (Channel.write b.toNat)

/-- Writes a text. -/
def writeText (text : String) : MachineM σ Unit := atChannel (Channel.writeText text)

/-- Waits for a character, after everything written so far has been pushed out, and keeps its low
byte. -/
def readByte : MachineM σ UInt8 := do
  atChannel Channel.flush
  return .ofInt (← atChannel Channel.read)

/-- Puts a byte into R0. -/
def setResult (b : UInt8) : MachineM σ Unit := setRegisters fun rs => rs.set 0 (.ofNat 16 b.toNat)

/-- Writes the low byte of each word from address `a` on, up to the first word that is zero. -/
def putWords : Nat → Word → MachineM σ Unit
  | 0, _ => throw .outOfFuel
  | fuel + 1, a => do
    let w ← readWord a
    if w = 0 then
      return
    writeByte w.low
    putWords fuel (a + 1)

/-- Writes the bytes of each word from address `a` on, the low byte first, up to the first word that
is zero or whose high byte is. -/
def putBytes : Nat → Word → MachineM σ Unit
  | 0, _ => throw .outOfFuel
  | fuel + 1, a => do
    let w ← readWord a
    if w = 0 then
      return
    writeByte w.low
    if w.high = 0 then
      return
    writeByte w.high
    putBytes fuel (a + 1)

/-- Performs a service. -/
def serve (fuel : Nat) : Service → MachineM σ RunState
  | .getCharacter => do
    setResult (← readByte)
    return .running
  | .putCharacter => do
    writeByte (← register 0).low
    return .running
  | .putWords => do
    putWords fuel (← register 0)
    return .running
  | .askCharacter => do
    writeText Service.prompt
    let b ← readByte
    writeByte b
    setResult b
    return .running
  | .putBytes => do
    putBytes fuel (← register 0)
    return .running
  | .halt => do
    writeText Service.farewell
    atChannel Channel.flush
    return .halted

/-- Performs the service with the given number. The address of the trap is for the message if there
is none. -/
def callService (fuel : Nat) (vector address : Int) : MachineM σ RunState :=
  match Service.ofVector? vector with
  | some service => serve fuel service
  | none => fail (.unknownTrap address vector)

end MachineM

end LC3
