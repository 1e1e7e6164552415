import LC3.Console.Basic

/-!
# Terminal modes

A program that reads single keys wants its terminal in raw mode, and the user wants the terminal
back as it was. Whatever can do both is a `ModeControl`. `Tty` is the one for a standard input:
entering remembers the mode in which the input was found, leaving goes back to that mode and forgets
it. An input that is no terminal, or cannot switch, is left alone.
-/

namespace LC3

/-- Something that brackets a run: it puts a terminal into raw mode and back. -/
class ModeControl (τ : Type) where
  enter : τ → Reply τ Unit
  leave : τ → Reply τ Unit

/-- A standard input, as far as its mode is concerned. -/
structure Stdin where
  isTTY : Bool := false
  /-- Whether it is in raw mode, if that is known. -/
  isRaw : Option Bool := none
  switchable : Bool := true
  /-- Whether switching shows in `isRaw`. -/
  tracks : Bool := false
  /-- The text with which switching fails, if it does. -/
  failure : Option String := none
  deriving DecidableEq, Repr

/-- Switches the mode. The attempt is traffic also when it fails. -/
def Stdin.setRaw (mode : Bool) (input : Stdin) : Reply Stdin Unit :=
  match input.failure with
  | some text => { answer := .error (.foreign text), device := input, traffic := [.rawMode mode] }
  | none =>
    { answer := .ok ()
      device := if input.tracks then { input with isRaw := some mode } else input
      traffic := [.rawMode mode] }

/-- The mode control of a standard input. -/
structure Tty where
  stdin : Stdin
  /-- The mode to go back to, while there is one. -/
  saved : Option Bool := none
  deriving DecidableEq, Repr

namespace Tty

/-- Remembers the mode and enters raw mode. The mode is remembered before the switch, so a failed
switch can be undone as well. -/
def enter (tty : Tty) : Reply Tty Unit :=
  if tty.stdin.isTTY && tty.stdin.switchable then
    let reply := tty.stdin.setRaw true
    { answer := reply.answer
      device := ⟨reply.device, some (tty.stdin.isRaw.getD false)⟩
      traffic := reply.traffic }
  else
    { answer := .ok (), device := tty }

/-- Goes back to the remembered mode. The mode is forgotten only once that has succeeded. -/
def leave (tty : Tty) : Reply Tty Unit :=
  match tty.saved with
  | some mode =>
    if tty.stdin.switchable then
      let reply := tty.stdin.setRaw mode
      match reply.answer with
      | .ok () => { answer := .ok (), device := ⟨reply.device, none⟩, traffic := reply.traffic }
      | .error f =>
        { answer := .error f, device := ⟨reply.device, some mode⟩, traffic := reply.traffic }
    else
      { answer := .ok (), device := tty }
  | none => { answer := .ok (), device := tty }

instance : ModeControl Tty := ⟨enter, leave⟩

end Tty

/-- A mode control that has no terminal and answers as it was told to. -/
structure ScriptedMode where
  onEnter : Except Fault Unit := .ok ()
  onLeave : Except Fault Unit := .ok ()

instance : ModeControl ScriptedMode where
  enter device := { answer := device.onEnter, device }
  leave device := { answer := device.onLeave, device }

end LC3
