import LC3.Console.Line
import LC3.Session

/-!
# The command line

Runs the images named on the command line on a line console whose host is the process: keys are
bytes of standard input, output goes to standard output.

The console wants to know its keys beforehand and a user does not, so the run is taken slice by
slice, from a state in which everything has been shown. A slice is given the keys typed so far and,
behind them, a keystroke that breaks. If the slice gets that far, one more key is read and the slice
starts over; what it showed the first time is not shown again.
-/

namespace LC3.Main

/-- Bounds one slice; no slice comes near. -/
def fuel : Nat := 1 <<< 60

/-- What a slice breaks with when it wants a key that has not been typed yet. -/
def keyWanted : Fault := .foreign "a key is wanted"

/-- The contents of a file, or why there are none. -/
def readFile (path : String) : IO (Except ReadFailure (List UInt8)) := do
  try
    return .ok (← IO.FS.readBinFile path).toList
  catch e =>
    return .error (.error e.toString)

/-- The files by name. Reading them is done before the session asks for any. -/
def readFiles (paths : List String) : IO FileReader := do
  let contents ← paths.mapM fun path => return (path, ← readFile path)
  return fun _ path => (contents.lookup path).getD (.error (.raised .nothing))

/-- The next key: a byte, or no character at the end of input. -/
def readKey : IO Keystroke := do
  let bytes ← (← IO.getStdin).read 1
  return .text (String.ofList (bytes.toList.map fun b => Char.ofNat b.toNat))

/-- Shows what the user is meant to see of an event. -/
def showEvent : Event → IO Unit
  | .host (.output chunk) => do
    let stdout ← IO.getStdout
    stdout.write ⟨chunk.toArray⟩
    stdout.flush
  | .log text => IO.println text
  | .error (.text s) => IO.eprintln s
  | .error (.fault f) => IO.eprintln f.message
  | _ => pure ()

/-- Shows what was noted behind the first `shown` events. -/
def showSince (shown : Nat) (journal : Journal) : IO Unit :=
  journal.toList.drop shown |>.forM showEvent

/-- Ends a session: shows what is left to show. -/
def finish (ending : SessionM Line Tty ExitCode) (device : Line) : IO ExitCode := do
  match ending ⟨{ device }, { stdin := {} }⟩ with
  | .ok code s =>
    showSince 0 s.channel.journal
    return code
  | .error _ _ => return .failure

/-- Runs a machine to its end. The keys in `typed` have been read since the last complete slice,
which left `machine` and `device` behind; `shown` events of the slice at hand have been shown
already. -/
partial def run (machine : Machine) (device : Line) (typed : List Keystroke) (shown : Nat) :
    IO ExitCode := do
  let host := { device with keys := typed ++ [.broken keyWanted] }
  match MachineM.slice fuel Session.sliceSize false ⟨machine, { device := host }⟩ with
  | .ok _ s =>
    showSince shown s.channel.journal
    let left := s.channel.device.keys.dropLast
    if s.machine.isRunning then
      run s.machine s.channel.device left 0
    else
      return .ok
  | .error (.fault f) s =>
    if f = keyWanted then
      showSince shown s.channel.journal
      run machine device (typed ++ [← readKey]) s.channel.journal.size
    else
      showSince shown s.channel.journal
      finish (Session.settle f) s.channel.device
  | .error _ _ => return .failure

/-- Loads the images and runs them. -/
def start (paths : List String) : IO ExitCode := do
  let files ← readFiles paths
  let prepared : SessionM Line Tty (Except ExitCode Machine) :=
    Session.prepare { paths, files, fuel }
  match prepared ⟨{ device := {} }, { stdin := {} }⟩ with
  | .ok result s =>
    showSince 0 s.channel.journal
    match result with
    | .error code => return code
    | .ok machine => run machine {} [] 0
  | .error _ _ => return .failure

end LC3.Main

/-- The command: its arguments are the images to run. -/
def main (args : List String) : IO UInt32 :=
  return (← LC3.Main.start args).code.toUInt32
