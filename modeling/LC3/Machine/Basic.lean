import LC3.Image
import LC3.Channel
import LC3.Registers
import LC3.Stop

/-!
# The machine

A machine is memory, registers and a run state. A `System` is a machine on a channel, and `MachineM`
is a computation on a system. When such a computation stops early the system stays as it was left,
so a failed step can be examined like a completed one.

The primitives of `MachineM` take the system apart before they change a part of it. That way a part
has one owner when it is changed, and memory is changed in place.

Two memory cells are the keyboard's. Reading the status register first polls the keyboard, which
updates both registers; this is the only way in which the console changes memory, and it is in
`MachineM.readWord`.
-/

namespace LC3

/-- Whether there is anything left to execute. -/
inductive RunState where
  | running
  | halted
  deriving DecidableEq, Repr

/-- A machine, apart from its console. -/
structure Machine where
  memory : Memory
  registers : Registers
  state : RunState := .running
  imageLoaded : Bool := false
  deriving DecidableEq

namespace Machine

/-- Where execution starts when no image says otherwise. -/
def defaultOrigin : Word := 0x3000

/-- The keyboard status register: its top bit tells whether a key waits in the data register. -/
def keyboardStatus : Word := 0xfe00

/-- The keyboard data register. -/
def keyboardData : Word := 0xfe02

/-- The contents of the status register when a key waits. -/
def keyReady : Word := 0x8000

/-- A running machine with nothing loaded. -/
def fresh (pc : Word) : Machine := { memory := .blank, registers := .initial pc }

/-- Puts words into memory behind an origin. The first time this also moves the program counter to
the origin. -/
def place (origin : Int) (words : List Word) : Machine → Machine
  | ⟨memory, registers, state, imageLoaded⟩ =>
    { memory := memory.load origin words
      registers := if imageLoaded then registers else registers.jump (.ofInt origin)
      state
      imageLoaded := true }

/-- Puts an image into memory. -/
def load (image : Image) (m : Machine) : Machine := m.place image.origin.toNat image.words

/-- Puts images into memory, in order. -/
def loadAll (images : List Image) (m : Machine) : Machine := images.foldl (fun m i => m.load i) m

/-- Whether the next step executes an instruction. -/
def isRunning (m : Machine) : Bool := m.state = .running

theorem isRunning_iff {m : Machine} : m.isRunning = true ↔ m.state = .running := decide_eq_true_iff

theorem isRunning_eq_false_iff {m : Machine} : m.isRunning = false ↔ m.state = .halted := by
  unfold isRunning
  cases m.state <;> decide

end Machine

/-- A machine on a channel. -/
structure System (σ : Type) where
  machine : Machine
  channel : Channel σ

/-- A computation on a machine on a channel. -/
abbrev MachineM (σ : Type) := EStateM Stop (System σ)

namespace MachineM

variable {σ α : Type}

/-! ## Parts of the system -/

/-- Uses the channel. -/
def atChannel (use : ChannelM σ α) : MachineM σ α := fun ⟨machine, channel⟩ =>
  match use channel with
  | .ok a channel => .ok a ⟨machine, channel⟩
  | .error f channel => .error (.fault f) ⟨machine, channel⟩

/-- Changes the registers. -/
def setRegisters (change : Registers → Registers) : MachineM σ Unit :=
  fun ⟨⟨memory, registers, state, loaded⟩, channel⟩ =>
    .ok () ⟨⟨memory, change registers, state, loaded⟩, channel⟩

/-- Changes memory. -/
def setMemory (change : Memory → Memory) : MachineM σ Unit :=
  fun ⟨⟨memory, registers, state, loaded⟩, channel⟩ =>
    .ok () ⟨⟨change memory, registers, state, loaded⟩, channel⟩

/-- Sets the run state. -/
def setState (state : RunState) : MachineM σ Unit :=
  fun ⟨⟨memory, registers, _, loaded⟩, channel⟩ =>
    .ok () ⟨⟨memory, registers, state, loaded⟩, channel⟩

/-- Whether the machine runs. -/
def isRunning : MachineM σ Bool := fun s => .ok s.machine.isRunning s

/-- The word in a general register. -/
def register (r : Register) : MachineM σ Word := fun s => .ok (s.machine.registers.get r) s

/-- The program counter. -/
def pc : MachineM σ Word := fun s => .ok s.machine.registers.pc s

/-- The condition. -/
def condition : MachineM σ Condition := fun s => .ok s.machine.registers.condition s

/-- The word in a memory cell. -/
def cell (a : Word) : MachineM σ Word := fun s => .ok (s.machine.memory.read a) s

/-- Ends with a fault. -/
def fail (f : Fault) : MachineM σ α := throw (.fault f)

/-! ## Memory as a program sees it -/

/-- Asks the console for a key and sets the keyboard registers: the status register tells whether
there is one, and the data register only changes when there is. -/
def pollKeyboard [Console σ] : MachineM σ Unit := do
  match ← atChannel Channel.poll with
  | some key =>
    setMemory fun m => (m.write Machine.keyboardStatus Machine.keyReady).write
      Machine.keyboardData (.ofInt key)
  | none => setMemory fun m => m.write Machine.keyboardStatus 0

/-- Reads a word. Before the keyboard status register is read the keyboard is polled. -/
def readWord [Console σ] (a : Word) : MachineM σ Word := do
  if a = Machine.keyboardStatus then
    pollKeyboard
  cell a

/-- Writes a word. The keyboard registers are written like any other cell. -/
def writeWord (a w : Word) : MachineM σ Unit := setMemory fun m => m.write a w

end MachineM

end LC3
