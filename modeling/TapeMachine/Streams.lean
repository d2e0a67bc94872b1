import TapeMachine.Failure

namespace TapeMachine

/-- When the streams start to fail, counted in bytes or in flushes. -/
structure Faults where
  readFail : Option Nat := none
  writeFail : Option Nat := none
  /-- From here on a write takes no byte. -/
  writeFull : Option Nat := none
  flushFail : Option Nat := none
  deriving DecidableEq, Repr, Inhabited

structure Streams where
  input : List UInt8
  faults : Faults
  consumed : Nat
  written : Array UInt8
  flushes : Nat
  deriving DecidableEq, Repr, Inhabited

namespace Streams

def start (input : List UInt8) (faults : Faults) : Streams where
  input := input
  faults := faults
  consumed := 0
  written := #[]
  flushes := 0

/-- Whether a fault set to `limit` has begun once `n` bytes or flushes went well. -/
def begun (limit : Option Nat) (n : Nat) : Bool :=
  match limit with
  | some l => l ≤ n
  | none => false

/-- One byte of input. A failing stream fails before the end of the input is noticed. -/
def read (io : Streams) : Except StreamError UInt8 × Streams :=
  if begun io.faults.readFail io.consumed then (.error .readFailed, io)
  else match io.input with
    | [] => (.error .endOfInput, io)
    | b :: rest => (.ok b, { io with input := rest, consumed := io.consumed + 1 })

/-- Offers one byte; the refusal, if any, changes nothing. -/
def write (io : Streams) (b : UInt8) : Option StreamError × Streams :=
  if begun io.faults.writeFail io.written.size then (some .writeFailed, io)
  else if begun io.faults.writeFull io.written.size then (some .nothingWritten, io)
  else (none, { io with written := io.written.push b })

def flush (io : Streams) : Option StreamError × Streams :=
  if begun io.faults.flushFail io.flushes then (some .flushFailed, io)
  else (none, { io with flushes := io.flushes + 1 })

end Streams

end TapeMachine
