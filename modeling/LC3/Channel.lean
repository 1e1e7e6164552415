import LC3.Journal
import LC3.Text.Units

/-!
# The channel

The machine and the command reach a console only through a channel: the device together with the
journal. Each operation calls the device once, notes the traffic that the device reports, and then
notes the call itself. The channel is passed from hand to hand and taken apart before the device is
called, so device and journal are each owned by one party at any time and are changed in place.
-/

namespace LC3

/-- A device and the journal of what it has been used for. -/
structure Channel (σ : Type) where
  device : σ
  journal : Journal := #[]

/-- A computation that uses a channel. When it fails it fails with a fault, and the channel stays as
it was left. -/
abbrev ChannelM (σ : Type) := EStateM Fault (Channel σ)

namespace Channel

variable {σ α : Type}

/-- Notes an event. -/
def note (event : Event) : ChannelM σ Unit := fun ⟨device, journal⟩ =>
  .ok () ⟨device, journal.push event⟩

/-- Uses the device once and notes its traffic, then the call. -/
def exchange (operation : σ → Reply σ α) (call : Except Fault α → Call) : ChannelM σ α :=
  fun ⟨device, journal⟩ =>
    match operation device with
    | ⟨answer, device, traffic⟩ =>
      let journal := (journal.noteTraffic traffic).push (.call (call answer))
      match answer with
      | .ok a => .ok a ⟨device, journal⟩
      | .error f => .error f ⟨device, journal⟩

variable [Console σ]

/-- Waits for a character. -/
def read : ChannelM σ Int := exchange Console.read .read

/-- A waiting character, if there is one. -/
def poll : ChannelM σ (Option Int) := exchange Console.poll .poll

/-- Hands over a character. -/
def write (code : Int) : ChannelM σ Unit := exchange (Console.write code) fun _ => .write code

/-- Tells the device to hold nothing back. -/
def flush : ChannelM σ Unit := exchange Console.flush fun _ => .flush

/-- Hands over characters, until one is refused. -/
def writeAll : List Nat → ChannelM σ Unit
  | [] => pure ()
  | code :: codes => do
    write code
    writeAll codes

/-- Hands over a text, one code unit at a time. -/
def writeText (text : String) : ChannelM σ Unit := writeAll (Text.units text)

end Channel

end LC3
