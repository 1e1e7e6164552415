/-!
# Opcodes

The top four bits of an instruction select one of sixteen opcodes. All sixteen are listed once, in
the order of their codes; the code of an opcode and the opcode of a code both follow that list.
-/

namespace LC3

/-- What an instruction does, before its operands are looked at. -/
inductive Opcode where
  | br
  | add
  | ld
  | st
  | jsr
  | and
  /-- Load relative to a register. -/
  | ldr
  /-- Store relative to a register. -/
  | str
  /-- Return from an interrupt; the machine has none. -/
  | rti
  | not
  /-- Load through a pointer. -/
  | ldi
  /-- Store through a pointer. -/
  | sti
  | jmp
  | res
  /-- Load an address. -/
  | lea
  | trap
  deriving DecidableEq, Repr

namespace Opcode

/-- Every opcode, at the index of its code. -/
def all : Vector Opcode 16 :=
  #v[br, add, ld, st, jsr, and, ldr, str, rti, not, ldi, sti, jmp, res, lea, trap]

/-- The opcode that a code selects. -/
def ofCode (c : BitVec 4) : Opcode := all[c.toNat]

/-- The code that selects an opcode. -/
def code : Opcode → BitVec 4
  | br => 0
  | add => 1
  | ld => 2
  | st => 3
  | jsr => 4
  | and => 5
  | ldr => 6
  | str => 7
  | rti => 8
  | not => 9
  | ldi => 10
  | sti => 11
  | jmp => 12
  | res => 13
  | lea => 14
  | trap => 15

/-- The name under which an opcode is reported. -/
def mnemonic : Opcode → String
  | br => "OP_BR"
  | add => "OP_ADD"
  | ld => "OP_LD"
  | st => "OP_ST"
  | jsr => "OP_JSR"
  | and => "OP_AND"
  | ldr => "OP_LDR"
  | str => "OP_STR"
  | rti => "OP_RTI"
  | not => "OP_NOT"
  | ldi => "OP_LDI"
  | sti => "OP_STI"
  | jmp => "OP_JMP"
  | res => "OP_RES"
  | lea => "OP_LEA"
  | trap => "OP_TRAP"

/-- The opcode that an integer of any size is the code of, if it is one. -/
def ofInt? : Int → Option Opcode
  | .ofNat n => all[n]?
  | .negSucc _ => none

@[simp]
theorem ofCode_code (o : Opcode) : ofCode o.code = o := by
  cases o <;> rfl

theorem code_ofCode (c : BitVec 4) : (ofCode c).code = c := by
  revert c
  decide

@[simp]
theorem ofInt?_code (o : Opcode) : ofInt? o.code.toNat = some o := by
  cases o <;> rfl

end Opcode

end LC3
