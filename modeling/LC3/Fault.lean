import LC3.Opcode
import LC3.Text.Hex

/-!
# Faults

A fault is whatever ends a run before the program halts. It is kept as a cause; the text that a user
sees is computed from the cause by `Fault.message` and nowhere else. A fault that the machine's
environment raises for reasons of its own is `foreign`: it is passed on, never reported as an ending
of the program.
-/

namespace LC3

/-- Why something failed. Addresses, codes and vectors are integers of any size: the machine only
makes words of them, but the messages are defined for all. -/
inductive Fault where
  /-- A failure with a text of its own. -/
  | general (text : String)
  | imageLoad (path reason : String)
  /-- The instruction at `address` has an opcode that the machine does not execute. -/
  | illegalOpcode (address code : Int)
  /-- The trap at `address` names no service. -/
  | unknownTrap (address vector : Int)
  /-- A key was wanted and there will be none. -/
  | inputClosed
  /-- The user asked for the run to end. -/
  | interrupted
  | foreign (text : String)
  deriving DecidableEq, Repr

namespace Fault

/-- The name of an opcode in a message, for any integer. -/
def opcodeName (code : Int) : String :=
  match Opcode.ofInt? code with
  | some o => o.mnemonic
  | none => "undefined"

/-- What the user is told. -/
def message : Fault → String
  | general text => text
  | imageLoad path reason => "failed to load image: " ++ path ++ " (" ++ reason ++ ")"
  | illegalOpcode address code =>
    "illegal opcode " ++ opcodeName code ++ " (" ++ toString code ++ ") at " ++ Text.hex 4 address
  | unknownTrap address vector =>
    "unknown trap vector " ++ Text.hex 2 vector ++ " at " ++ Text.hex 4 address
  | inputClosed => "console input closed"
  | interrupted => "interrupted"
  | foreign text => text

/-- Whether the fault is none of the machine's. -/
def isForeign : Fault → Bool
  | foreign _ => true
  | _ => false

end Fault

end LC3
