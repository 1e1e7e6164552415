import LC3.Console.Basic

/-!
# The scripted console

A console whose answers are written down beforehand, failures included. It takes output without
looking at it. What it answers does not depend on what is written or flushed, and a code is handed
on as it was written down, also one that is no byte.
-/

namespace LC3

/-- A console that answers from two scripts. -/
structure Scripted where
  /-- What reading is going to answer; then it fails for lack of input. -/
  reads : List (Except Fault Int) := []
  /-- What polling is going to answer; then there is never a key. -/
  polls : List (Except Fault (Option Int)) := []

namespace Scripted

/-- Answers the next item of the script for reading. -/
def read : Scripted → Reply Scripted Int
  | ⟨answer :: reads, polls⟩ => { answer, device := ⟨reads, polls⟩ }
  | ⟨[], polls⟩ => { answer := .error .inputClosed, device := ⟨[], polls⟩ }

/-- Answers the next item of the script for polling. -/
def poll : Scripted → Reply Scripted (Option Int)
  | ⟨reads, answer :: polls⟩ => { answer, device := ⟨reads, polls⟩ }
  | ⟨reads, []⟩ => { answer := .ok none, device := ⟨reads, []⟩ }

instance : Console Scripted where
  read := read
  poll := poll
  write _ device := { answer := .ok (), device }
  flush device := { answer := .ok (), device }

end Scripted

end LC3
