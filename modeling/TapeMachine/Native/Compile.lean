import TapeMachine.Lowered
import TapeMachine.Native.Assembler

namespace TapeMachine

open Emitter (Request)

def Basic.requests : Basic → List Request
  | .move d => [.move d 1]
  | .increment => [.add 1]
  | .decrement => [.sub 1]
  | .read => [.read]
  | .write => [.write]

def Lowered.requests : Lowered → List Request
  | .counted (.move d) n => [.move d n]
  | .counted .increment n => [.add n]
  | .counted .decrement n => [.sub n]
  | .counted .read n => List.replicate n .read
  | .counted .write n => List.replicate n .write
  | .clear => [.clear]
  | .scan _ d a => [.scan d a]
  | .transfer _ d a => [.transfer d a]

namespace Native

variable {α : Type}

def requestsAt (requests : α → List Request) (i : Nat) : Token α → List Request
  | .op a => requests a
  | .opening => [.jumpBegin i]
  | .closing => [.jumpEnd i]

/-- Emits tokens from index `i` on and stops at the first failure. -/
def emitFrom (requests : α → List Request) (e : Emitter) (i : Nat) :
    List (Token α) → Except Failure Emitter
  | [] => .ok e
  | t :: ts =>
    match Emitter.emitAll e (requestsAt requests i t) with
    | .ok e' => emitFrom requests e' (i + 1) ts
    | .error f => .error f

def compile (a : Assembler) (requests : α → List Request) (ts : List (Token α)) : Except Failure (Code Native) :=
  match a.start with
  | .error f => .error f
  | .ok e =>
    match emitFrom requests e 0 ts with
    | .ok e' => e'.finish a
    | .error f => .error f

def plainSource (text : String) : List Command :=
  Source.commands text

/-- The lowered program of a source text, with counts of at most 32 bits. -/
def loweredSource (text : String) : Except Failure (List (Token Lowered)) :=
  match Tree.ofSource text with
  | .error u => .error (.unmatchedSource u)
  | .ok t =>
    match t.optimise.lowerWithin? maxAmount with
    | some ts => .ok ts
    | none => .error .offsetTooLarge

def compilePlain (a : Assembler) (commands : List Command) : Except Failure (Code Native) :=
  compile a Basic.requests commands

/-- Idioms are emitted once whatever their count, reads and writes as often as they are counted. -/
def compileLowered (a : Assembler) (ts : List (Token Lowered)) : Except Failure (Code Native) :=
  compile a Lowered.requests ts

def plain (a : Assembler) (text : String) : Except Failure (Code Native) :=
  compilePlain a (plainSource text)

def optimised (a : Assembler) (text : String) : Except Failure (Code Native) :=
  match loweredSource text with
  | .ok ts => compileLowered a ts
  | .error f => .error f

end Native

/-- A tape and streams that outlive the programs run on them. -/
structure Runtime where
  tape : Tape
  io : Streams
  deriving DecidableEq

namespace Runtime

def start (io : Streams) : Runtime where
  tape := .blank
  io := io

/-- Runs emitted code from the first cell of the tape as it was left. -/
def run? (limit : Nat) (code : Code Native) (r : Runtime) : Option (Verdict × Runtime) :=
  match runFor (Native.step code) limit (.start r.tape) r.io with
  | some e => some (e.verdict, ⟨e.config.tape, e.io⟩)
  | none => none

end Runtime

end TapeMachine
