import LC3.Fault

/-!
# Consoles

A console is a device with four operations, all of which may fail. Nothing is assumed of a device
beyond the types of its answers: a code that it reads may be any integer, and it may fail at any
call. Every operation answers with a `Reply`, which holds the device afterwards also when the
operation failed, and the traffic that it caused between the device and its host, in order.
-/

namespace LC3

/-- What a host hands over when it is asked for a key. -/
inductive Keystroke where
  /-- The characters of the key; none when there will be no more keys. The host has decoded them
  from bytes, so there are no halves of surrogate pairs among them. -/
  | text (s : String)
  | broken (f : Fault)
  deriving DecidableEq, Repr

/-- Something that passed between a device and its host. -/
inductive Traffic where
  /-- The device pushed bytes out. -/
  | output (chunk : List UInt8)
  /-- The device asked for a key and was given this. -/
  | key (k : Keystroke)
  /-- The device switched the terminal into raw mode or out of it. -/
  | rawMode (on : Bool)
  deriving DecidableEq, Repr

/-- What one operation of a device comes to. -/
structure Reply (σ α : Type) where
  /-- The result, or why there is none. -/
  answer : Except Fault α
  device : σ
  /-- What passed between the device and its host meanwhile. -/
  traffic : List Traffic := []

/-- A device that takes and gives characters. -/
class Console (σ : Type) where
  read : σ → Reply σ Int
  /-- A waiting character, if there is one. -/
  poll : σ → Reply σ (Option Int)
  write : Int → σ → Reply σ Unit
  /-- Pushes out what was taken and held back. -/
  flush : σ → Reply σ Unit

end LC3
