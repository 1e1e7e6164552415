import LC3.Machine.Execute

/-!
# Runs

A run is a sequence of steps up to the one after which the machine is halted. A program need not
halt, so a run is given fuel: it bounds the number of steps, and for each of them the number of
words that a string service may read. A run that ends within some fuel ends in the same way within
more.

A run in slices is the same run with a break after every so many steps. In a break the console is
flushed and control is given back to the surroundings. The first time that happens a waiting signal
gets through and the run stops there.
-/

namespace LC3.MachineM

variable {σ : Type} [Console σ]

/-- Up to `n` steps, as long as the machine runs. -/
def steps (fuel : Nat) : Nat → MachineM σ Unit
  | 0 => pure ()
  | n + 1 => do
    if ← isRunning then
      step fuel
      steps fuel n

/-- Steps until the machine is halted, but at most `n`. -/
def runFor (fuel : Nat) : Nat → MachineM σ Unit
  | 0 => do
    if ← isRunning then
      throw .outOfFuel
  | n + 1 => do
    if ← isRunning then
      step fuel
      runFor fuel n

/-- Steps until the machine is halted. -/
def run (fuel : Nat) : MachineM σ Unit := runFor fuel fuel

/-- Gives control back to the surroundings. -/
def pause (signalWaiting : Bool) : MachineM σ Unit := do
  atChannel (Channel.note .pause)
  if signalWaiting then
    throw .signal

/-- Up to `size` steps and a break. -/
def slice (fuel size : Nat) (signalWaiting : Bool) : MachineM σ Unit := do
  steps fuel size
  atChannel Channel.flush
  pause signalWaiting

/-- Slices until the machine is halted, but at most `n`. -/
def slicesFor (fuel size : Nat) (signalWaiting : Bool) : Nat → MachineM σ Unit
  | 0 => do
    if ← isRunning then
      throw .outOfFuel
  | n + 1 => do
    if ← isRunning then
      slice fuel size signalWaiting
      slicesFor fuel size signalWaiting n

/-- Slices of `size` steps until the machine is halted. -/
def runInterruptibly (fuel size : Nat) (signalWaiting : Bool) : MachineM σ Unit :=
  slicesFor fuel size signalWaiting fuel

end LC3.MachineM
