import TapeMachine.Tape.Operation

namespace TapeMachine

open Tape (Operation Answer)

def lastWord : Nat := Nat.pow 2 64 - 1

/-- The sum of two words, unless it is too large. -/
def addWords? (a b : Nat) : Option Nat :=
  if a + b ≤ lastWord then some (a + b) else none

/-- The difference of two words, unless it is below zero. -/
def subWords? (a b : Nat) : Option Nat :=
  if b ≤ a then some (a - b) else none

/-- Bytes and the index of the current one. An access outside of the bytes crashes. -/
structure RawTape where
  bytes : Array UInt8
  index : Nat
  deriving DecidableEq

namespace RawTape

def blank : RawTape where
  bytes := Array.replicate 30000 0
  index := 0

def load (m : RawTape) (i : Nat) (next : UInt8 → Answer × RawTape) : Answer × RawTape :=
  match m.bytes[i]? with
  | some b => next b
  | none => (.crashed, m)

def store (m : RawTape) (i : Nat) (b : UInt8) (next : RawTape → Answer × RawTape) : Answer × RawTape :=
  if h : i < m.bytes.size then next ⟨m.bytes.set i b, m.index⟩ else (.crashed, m)

/-- The index `n` bytes away, computed on words, if a byte is there. -/
def target? (m : RawTape) : Direction → Nat → Option Nat
  | .forward, n => (addWords? m.index n).filter (· < m.bytes.size)
  | .backward, n => (subWords? m.index n).filter (· < m.bytes.size)

/-- A transfer writes two bytes. What it has written before a crash would stay. -/
def apply (m : RawTape) : Operation → Answer × RawTape
  | .set b => m.store m.index b fun m => (.done, m)
  | .add n => m.load m.index fun b => m.store m.index (b + UInt8.ofNat (n % 256)) fun m => (.done, m)
  | .sub n => m.load m.index fun b => m.store m.index (b - UInt8.ofNat (n % 256)) fun m => (.done, m)
  | .move d n pc =>
    match m.target? d n with
    | some i => (.done, ⟨m.bytes, i⟩)
    | none => (.failed (.outOfBounds (some pc)), m)
  | .cellAt d n pc =>
    match m.target? d n with
    | some i => (.cell i, m)
    | none => (.failed (.outOfBounds (some pc)), m)
  | .transferTo i =>
    m.load m.index fun b => m.load i fun c => m.store i (c + b) fun m => m.store m.index 0 fun m => (.done, m)

/-- The state after a sequence of operations, whether they are refused or not. -/
def applyAll (m : RawTape) (ops : List Operation) : RawTape :=
  ops.foldl (fun m o => (m.apply o).2) m

end RawTape

def Tape.raw (t : Tape) : RawTape where
  bytes := t.cells.toArray
  index := t.head

end TapeMachine
