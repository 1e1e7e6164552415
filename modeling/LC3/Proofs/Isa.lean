import LC3.Channel
import LC3.Word
import Mathlib.Logic.Function.Basic

/-!
# The instruction set, word by word

A reference for the machine: what each instruction does to words, with nothing of the machine in
it. Memory and the general registers are functions, the condition register is its three bits, and
an instruction is read off the word by cutting bits out and extending their sign. All arithmetic is
that of `BitVec 16`, hence modulo `2^16`.

The keyboard is the only part of the surroundings that an instruction without a trap can reach: a
read of its status register polls the channel first. `fetch` and `execute` are the two halves of a
step. `execute` gives no meaning to the opcodes of TRAP, RTI and the reserved instruction, and
`result?` only tells what an instruction that judges its result has computed.
-/

namespace LC3.Isa

/-! ## Fields -/

/-- Bits 15 to 12. -/
def opcode (w : Word) : BitVec 4 := w.extractLsb' 12 4

/-- The destination register, the source of a store or the mask of a branch, bits 11 to 9. -/
def dr (w : Word) : BitVec 3 := w.extractLsb' 9 3

/-- The first operand or the base register, bits 8 to 6. -/
def sr1 (w : Word) : BitVec 3 := w.extractLsb' 6 3

/-- The second operand, bits 2 to 0. -/
def sr2 (w : Word) : BitVec 3 := w.extractLsb' 0 3

/-- The immediate operand, bits 4 to 0 in two's complement. -/
def imm5 (w : Word) : Word := (w.extractLsb' 0 5).signExtend 16

/-- The offset from a base register, bits 5 to 0 in two's complement. -/
def offset6 (w : Word) : Word := (w.extractLsb' 0 6).signExtend 16

/-- The offset from the program counter, bits 8 to 0 in two's complement. -/
def offset9 (w : Word) : Word := (w.extractLsb' 0 9).signExtend 16

/-- The offset of a subroutine, bits 10 to 0 in two's complement. -/
def offset11 (w : Word) : Word := (w.extractLsb' 0 11).signExtend 16

/-- The number of a trap service, bits 7 to 0. -/
def trapVector (w : Word) : BitVec 8 := w.extractLsb' 0 8

/-! ## States -/

/-- The part of a machine that instructions compute with. -/
structure State where
  /-- The word at each address. -/
  memory : Word → Word
  /-- The word in each general register. -/
  general : BitVec 3 → Word
  pc : Word
  /-- The condition: bit 2 for negative, bit 1 for zero, bit 0 for positive. -/
  nzp : BitVec 3

/-- The sign class of a word. -/
def signClass (w : Word) : BitVec 3 :=
  if w.toInt < 0 then 0b100 else if w.toInt = 0 then 0b010 else 0b001

namespace State

/-- Stores a word. -/
def store (s : State) (a w : Word) : State := { s with memory := Function.update s.memory a w }

/-- Keeps a word in a general register; the condition stays. -/
def set (s : State) (r : BitVec 3) (w : Word) : State :=
  { s with general := Function.update s.general r w }

/-- Keeps a result in a general register and sets the condition by it. -/
def result (s : State) (r : BitVec 3) (w : Word) : State :=
  { s.set r w with nzp := signClass w }

end State

/-! ## Steps -/

variable {σ : Type} [Console σ]

/-- Reads a word. The keyboard's status register, at 0xFE00, is set by a poll before it is read, and
the data register, at 0xFE02, along with it if there is a key. -/
def read (s : State) (a : Word) : ChannelM σ (Word × State) :=
  if a = 0xfe00 then do
    match ← Channel.poll with
    | some key =>
      let s := (s.store 0xfe00 0x8000).store 0xfe02 (BitVec.ofInt 16 key)
      return (s.memory a, s)
    | none =>
      let s := s.store 0xfe00 0
      return (s.memory a, s)
  else
    return (s.memory a, s)

/-- Reads the word at the program counter and moves the program counter on. -/
def fetch (s : State) : ChannelM σ (Word × State) := do
  let (w, t) ← read s s.pc
  return (w, { t with pc := s.pc + 1 })

/-- Does what a fetched word says. -/
def execute (w : Word) (s : State) : ChannelM σ State :=
  let operand := if w.getLsbD 5 then imm5 w else s.general (sr2 w)
  let relative := s.pc + offset9 w
  let based := s.general (sr1 w) + offset6 w
  match (opcode w).toNat with
  | 0x0 => return if dr w &&& s.nzp = 0 then s else { s with pc := relative }
  | 0x1 => return s.result (dr w) (s.general (sr1 w) + operand)
  | 0x2 => do
    let (datum, s) ← read s relative
    return s.result (dr w) datum
  | 0x3 => return s.store relative (s.general (dr w))
  | 0x4 =>
    let target := if w.getLsbD 11 then s.pc + offset11 w else s.general (sr1 w)
    return { s.set 7 s.pc with pc := target }
  | 0x5 => return s.result (dr w) (s.general (sr1 w) &&& operand)
  | 0x6 => do
    let (datum, s) ← read s based
    return s.result (dr w) datum
  | 0x7 => return s.store based (s.general (dr w))
  | 0x9 => return s.result (dr w) (~~~s.general (sr1 w))
  | 0xa => do
    let (pointer, s) ← read s relative
    let (datum, s) ← read s pointer
    return s.result (dr w) datum
  | 0xb => do
    let (pointer, s) ← read s relative
    return s.store pointer (s.general (dr w))
  | 0xc => return { s with pc := s.general (sr1 w) }
  | 0xe => return s.result (dr w) relative
  | _ => return s

/-- The result that a fetched word keeps, if it is one that does: ADD, LD, AND, LDR, NOT, LDI or
LEA. Where the result goes is left out. -/
def result? (w : Word) (s : State) : ChannelM σ (Option Word) :=
  let operand := if w.getLsbD 5 then imm5 w else s.general (sr2 w)
  let relative := s.pc + offset9 w
  match (opcode w).toNat with
  | 0x1 => return some (s.general (sr1 w) + operand)
  | 0x2 => return some (← read s relative).1
  | 0x5 => return some (s.general (sr1 w) &&& operand)
  | 0x6 => return some (← read s (s.general (sr1 w) + offset6 w)).1
  | 0x9 => return some (~~~s.general (sr1 w))
  | 0xa => do
    let (pointer, s) ← read s relative
    return some (← read s pointer).1
  | 0xe => return some relative
  | _ => return none

end LC3.Isa
