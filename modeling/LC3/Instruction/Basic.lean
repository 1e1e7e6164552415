import LC3.Opcode
import LC3.Instruction.Field

/-!
# Instructions

Every word is an instruction: `Instruction.decode` is total, and the two opcodes without a meaning
decode to `illegal`, whose execution is a fault. After decoding nothing depends on bit positions any
more: an instruction carries registers and words.
-/

namespace LC3

/-- The second operand of addition and conjunction. -/
inductive Operand where
  | register (r : Register)
  | literal (w : Word)
  deriving DecidableEq

/-- A decoded instruction. Offsets are added to the program counter after it has moved on, unless a
base register is named. -/
inductive Instruction where
  /-- `target := left + right`. -/
  | add (target left : Register) (right : Operand)
  /-- `target := left and right`. -/
  | and (target left : Register) (right : Operand)
  /-- `target := not source`. -/
  | not (target source : Register)
  /-- Moves the program counter by an offset if the mask has the current condition. -/
  | branch (mask : BitVec 3) (offset : Word)
  /-- Moves the program counter to the word in a register. -/
  | jump (base : Register)
  /-- Calls the subroutine at an offset. -/
  | call (offset : Word)
  /-- Calls the subroutine at the address in a register. -/
  | callRegister (base : Register)
  /-- `target := memory[pc + offset]`. -/
  | load (target : Register) (offset : Word)
  /-- `target := memory[memory[pc + offset]]`. -/
  | loadIndirect (target : Register) (offset : Word)
  /-- `target := memory[base + offset]`. -/
  | loadBase (target base : Register) (offset : Word)
  /-- `target := pc + offset`. -/
  | loadAddress (target : Register) (offset : Word)
  /-- `memory[pc + offset] := source`. -/
  | store (source : Register) (offset : Word)
  /-- `memory[memory[pc + offset]] := source`. -/
  | storeIndirect (source : Register) (offset : Word)
  /-- `memory[base + offset] := source`. -/
  | storeBase (source base : Register) (offset : Word)
  | trap (vector : BitVec 8)
  /-- An opcode that the machine does not execute. -/
  | illegal (opcode : Opcode)
  deriving DecidableEq

namespace Instruction

/-- The second operand that a word asks for. -/
def operand (w : Word) : Operand :=
  if Field.hasImmediate w then .literal (Field.immediate w) else .register (Field.right w)

/-- Reads a word as an instruction. -/
def decode (w : Word) : Instruction :=
  match Opcode.ofCode (Field.code w) with
  | .br => .branch (Field.mask w) (Field.pcOffset w)
  | .add => .add (Field.target w) (Field.left w) (operand w)
  | .ld => .load (Field.target w) (Field.pcOffset w)
  | .st => .store (Field.target w) (Field.pcOffset w)
  | .jsr =>
    if Field.hasLongOffset w then .call (Field.longOffset w) else .callRegister (Field.base w)
  | .and => .and (Field.target w) (Field.left w) (operand w)
  | .ldr => .loadBase (Field.target w) (Field.base w) (Field.baseOffset w)
  | .str => .storeBase (Field.target w) (Field.base w) (Field.baseOffset w)
  | .rti => .illegal .rti
  | .not => .not (Field.target w) (Field.left w)
  | .ldi => .loadIndirect (Field.target w) (Field.pcOffset w)
  | .sti => .storeIndirect (Field.target w) (Field.pcOffset w)
  | .jmp => .jump (Field.base w)
  | .res => .illegal .res
  | .lea => .loadAddress (Field.target w) (Field.pcOffset w)
  | .trap => .trap (Field.vector w)

end Instruction

end LC3
