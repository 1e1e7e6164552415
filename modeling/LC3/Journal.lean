import LC3.Console.Basic

/-!
# The journal

A run is judged by what it does to its surroundings, and in which order. The journal is that order:
one list of events in which the machine's calls on its console, the traffic of devices with their
hosts, and what the command does around a run stand side by side. It is only ever appended to, and
nothing reads it while a run goes on.
-/

namespace LC3

/-- A call on the console, with the answer where the answer is data. -/
inductive Call where
  | read (answer : Except Fault Int)
  | poll (answer : Except Fault (Option Int))
  | write (code : Int)
  | flush

/-- A request to a terminal. -/
inductive ModeRequest where
  | enter
  | leave
  deriving DecidableEq, Repr

/-- Something to tell the user about a failure. -/
inductive Report where
  | text (s : String)
  | fault (f : Fault)
  deriving DecidableEq, Repr

/-- One thing that happened at the boundary of a run. -/
inductive Event where
  /-- A call on the console returned. -/
  | call (c : Call)
  /-- A device and its host exchanged something. -/
  | host (t : Traffic)
  /-- A terminal was about to be asked for a mode. -/
  | mode (r : ModeRequest)
  /-- Control was given back between two slices. -/
  | pause
  /-- A file was about to be read. -/
  | opened (path : String)
  /-- The user was told something. -/
  | log (text : String)
  /-- The user was told about a failure. -/
  | error (report : Report)

/-- Everything that happened so far, in order. -/
abbrev Journal := Array Event

namespace Journal

/-- Notes the traffic of one operation. -/
def noteTraffic (journal : Journal) (traffic : List Traffic) : Journal :=
  traffic.foldl (fun j t => j.push (.host t)) journal

theorem toList_noteTraffic (journal : Journal) (traffic : List Traffic) :
    (journal.noteTraffic traffic).toList = journal.toList ++ traffic.map .host := by
  simp [noteTraffic]

end Journal

end LC3
