import LC3.Instruction.Basic
import LC3.Machine.Service

/-!
# Executing one instruction

A cycle fetches the word at the program counter, moves the program counter on and performs the
instruction, which therefore sees the address of its successor. The address of the instruction
itself is only needed for messages.

A step is a cycle of a running machine. A fault in it halts the machine; what the cycle had done
before stays done. In particular no result register and no condition is written before everything
that can fail has been done.
-/

namespace LC3.MachineM

variable {σ : Type}

/-- Puts a result into a register and sets the condition by it. -/
def setJudged (r : Register) (w : Word) : MachineM σ Unit := setRegisters fun rs => rs.accept r w

/-- Moves the program counter. -/
def jump (target : Word) : MachineM σ Unit := setRegisters fun rs => rs.jump target

/-- Keeps the return address in R7. -/
def link (returnAddress : Word) : MachineM σ Unit := setRegisters fun rs => rs.set 7 returnAddress

/-- The word that an operand stands for. -/
def operand : Operand → MachineM σ Word
  | .register r => register r
  | .literal w => pure w

/-- The address at an offset from the program counter. -/
def relative (offset : Word) : MachineM σ Word := return (← pc) + offset

/-- The address at an offset from the word in a register. -/
def based (base : Register) (offset : Word) : MachineM σ Word := return (← register base) + offset

variable [Console σ]

/-- Performs an instruction that was fetched from `address`. -/
def perform (fuel : Nat) (address : Word) : Instruction → MachineM σ Unit
  | .add target left right => do
    setJudged target ((← register left) + (← operand right))
  | .and target left right => do
    setJudged target ((← register left) &&& (← operand right))
  | .not target source => do
    setJudged target (~~~(← register source))
  | .branch mask offset => do
    if (← condition).matchedBy mask then
      jump (← relative offset)
  | .jump base => do
    jump (← register base)
  | .call offset => do
    let target ← relative offset
    link (← pc)
    jump target
  | .callRegister base => do
    let target ← register base
    link (← pc)
    jump target
  | .load target offset => do
    setJudged target (← readWord (← relative offset))
  | .loadIndirect target offset => do
    setJudged target (← readWord (← readWord (← relative offset)))
  | .loadBase target base offset => do
    setJudged target (← readWord (← based base offset))
  | .loadAddress target offset => do
    setJudged target (← relative offset)
  | .store source offset => do
    writeWord (← relative offset) (← register source)
  | .storeIndirect source offset => do
    writeWord (← readWord (← relative offset)) (← register source)
  | .storeBase source base offset => do
    writeWord (← based base offset) (← register source)
  | .trap vector => do
    link (← pc)
    setState (← callService fuel vector.toNat address.toNat)
  | .illegal opcode =>
    fail (.illegalOpcode address.toNat opcode.code.toNat)

/-- Fetches and performs one instruction. -/
def cycle (fuel : Nat) : MachineM σ Unit := do
  let address ← pc
  let word ← readWord address
  jump (address + 1)
  perform fuel address (.decode word)

/-- Executes one instruction if the machine runs. A fault halts the machine and is passed on. -/
def step (fuel : Nat) : MachineM σ Unit := do
  if ← isRunning then
    Stop.catchFault (cycle fuel) fun f => do
      setState .halted
      fail f

end LC3.MachineM
