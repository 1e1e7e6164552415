import LC3.Machine.Run
import LC3.Tty

/-!
# Sessions

A session is what one use of the command comes to: a console on a channel, a terminal, and an exit
code at the end. There are three layers, each with its own answer to failure.

* `launch` loads the images, runs the machine between entering and leaving raw mode, and turns the
  faults of a program into an exit code. A foreign fault is passed on. Nothing is touched before all
  images are loaded.
* `conclude` never passes on a fault of `launch`: it puts a terminal that it was given back once
  more, reports the fault and ends with the code for failure.
* `command` also answers a signal: it pushes out what the program wrote, puts the terminal back and
  ends the line on which the user interrupted.
-/

namespace LC3

/-- How a session ends, as the outside sees it. -/
inductive ExitCode where
  /-- The program halted. -/
  | ok
  /-- An image could not be loaded, or the run failed. -/
  | failure
  /-- No image was named. -/
  | usage
  /-- The user ended the run. -/
  | interrupted
  deriving DecidableEq, Repr

namespace ExitCode

/-- The number of an exit code. -/
def code : ExitCode → Nat
  | ok => 0
  | failure => 1
  | usage => 2
  | interrupted => 130

/-- The exit code for a fault of the program. -/
def ofFault : Fault → ExitCode
  | .interrupted => interrupted
  | _ => failure

end ExitCode

/-- What a session is asked to do. -/
structure Job where
  /-- The files with the images, in loading order. -/
  paths : List String
  files : FileReader
  /-- Whether the terminal belongs to the caller, who wants it put back whatever happens. -/
  terminalGiven : Bool := false
  /-- Whether a signal waits to be delivered as soon as control is given back. -/
  signalWaiting : Bool := false
  fuel : Nat

/-- A console on a channel, and a terminal. -/
structure Session (σ τ : Type) where
  channel : Channel σ
  terminal : τ

/-- A computation on a session. -/
abbrev SessionM (σ τ : Type) := EStateM Stop (Session σ τ)

namespace Session

variable {σ τ α : Type}

/-- What a user who names no image is told. -/
def usage : String := "usage: lc3-vm [image-file1] ..."

/-- The number of instructions between two breaks. -/
def sliceSize : Nat := 10000

/-! ## The surroundings of a run -/

/-- Uses the channel. -/
def atChannel (use : ChannelM σ α) : SessionM σ τ α := fun ⟨channel, terminal⟩ =>
  match use channel with
  | .ok a channel => .ok a ⟨channel, terminal⟩
  | .error f channel => .error (.fault f) ⟨channel, terminal⟩

/-- Notes an event. -/
def note (event : Event) : SessionM σ τ Unit := atChannel (Channel.note event)

/-- Makes a request to the terminal and notes it, then the traffic it caused. -/
def request (mode : ModeRequest) (operation : τ → Reply τ Unit) : SessionM σ τ Unit :=
  fun ⟨⟨device, journal⟩, terminal⟩ =>
    match operation terminal with
    | ⟨answer, terminal, traffic⟩ =>
      let journal := Journal.noteTraffic (journal.push (.mode mode)) traffic
      match answer with
      | .ok () => .ok () ⟨⟨device, journal⟩, terminal⟩
      | .error f => .error (.fault f) ⟨⟨device, journal⟩, terminal⟩

/-- Runs a computation on a machine of its own on the channel of the session. -/
def onMachine (machine : Machine) (compute : MachineM σ α) : SessionM σ τ α :=
  fun ⟨channel, terminal⟩ =>
    match compute ⟨machine, channel⟩ with
    | .ok a ⟨_, channel⟩ => .ok a ⟨channel, terminal⟩
    | .error stop ⟨_, channel⟩ => .error stop ⟨channel, terminal⟩

/-! ## Loading -/

/-- Reads all images, in order, up to the first that cannot be read. -/
def gather : FileReader → List String → SessionM σ τ (Except Fault (List Image))
  | _, [] => return .ok []
  | files, path :: paths => do
    note (.opened path)
    match Image.open? files path with
    | .error f => return .error f
    | .ok image =>
      match ← gather (files.behind [path]) paths with
      | .error f => return .error f
      | .ok images => return .ok (image :: images)

/-- Loads all images into a machine. If there are none, or one cannot be read, the user is told and
the session is over. A foreign fault is passed on. -/
def prepare (job : Job) : SessionM σ τ (Except ExitCode Machine) := do
  if job.paths.isEmpty then
    note (.log usage)
    return .error .usage
  match ← gather job.files job.paths with
  | .error f =>
    if f.isForeign then
      throw (.fault f)
    note (.error (.text f.message))
    return .error .failure
  | .ok images => return .ok ((Machine.fresh Machine.defaultOrigin).loadAll images)

/-! ## Running -/

section
variable [ModeControl τ]

/-- Puts the terminal into raw mode. -/
def enterRaw : SessionM σ τ Unit := request .enter ModeControl.enter

/-- Puts the terminal back. -/
def leaveRaw : SessionM σ τ Unit := request .leave ModeControl.leave

/-- Runs a computation in raw mode. The terminal is put back when the computation is complete and
when it has failed; if that fails too, its fault is the one that counts. A signal takes control away
before the terminal can be put back. -/
def inRawMode (compute : SessionM σ τ α) : SessionM σ τ α := do
  enterRaw
  let result ← Stop.catchFault compute fun f => do
    leaveRaw
    throw (.fault f)
  leaveRaw
  return result

end

section
variable [Console σ]

/-- Turns the fault that ended a program into an exit code, after the last of the output and a
message. A foreign fault is passed on. -/
def settle (f : Fault) : SessionM σ τ ExitCode := do
  if f.isForeign then
    throw (.fault f)
  atChannel Channel.flush
  note (.error (.text f.message))
  return .ofFault f

/-- Runs a machine to its end. -/
def execute (job : Job) (machine : Machine) : SessionM σ τ ExitCode :=
  let toEnd : SessionM σ τ ExitCode := do
    onMachine machine (MachineM.runInterruptibly job.fuel sliceSize job.signalWaiting)
    return .ok
  Stop.catchFault toEnd settle

variable [ModeControl τ]

/-- Loads the images and runs the machine. -/
def launch (job : Job) : SessionM σ τ ExitCode := do
  match ← prepare job with
  | .error code => return code
  | .ok machine => inRawMode (execute job machine)

/-- Launches, and turns a fault into a report and the code for failure. -/
def conclude (job : Job) : SessionM σ τ ExitCode :=
  Stop.catchFault (launch job) fun f => do
    if job.terminalGiven then
      leaveRaw
    note (.error (.fault f))
    return .failure

/-- Answers a signal. -/
def interrupt : SessionM σ τ ExitCode := do
  atChannel Channel.flush
  leaveRaw
  note (.host (.output [0x0a]))
  return .interrupted

/-- Concludes, and answers a signal that arrives meanwhile. A fault that is left ends the session
with the code for failure. -/
def command (job : Job) : SessionM σ τ ExitCode :=
  Stop.catchFault (Stop.catchSignal (conclude job) interrupt) fun _ => return .failure

end

end Session

end LC3
