import TapeMachine.Bench.Measure
import TapeMachine.Bench.Store

namespace TapeMachine.Bench

structure Session where
  engines : List String
  input? : Option Path
  iterations : Nat
  outputDir : Path
  programs : List Path
  deriving DecidableEq, Repr

/-- What ends a session early. -/
inductive Trouble where
  | failed (f : Failure)
  /-- A file of the session's own, not one of a report, could not be read. -/
  | unreadable (e : StreamError)
  | crashed
  deriving DecidableEq, Repr

def Trouble.ofVerdict : Verdict → Trouble
  | .failed f => failed f
  | _ => crashed

def runProgram (print : Printer) (s : Session) (engines : List Engine) (input : List UInt8) (title : String)
    (p : Path) : Job (Except Trouble Path) :=
  .fetch p fun
    | .error e => .done (.error (.unreadable e))
    | .ok bytes =>
      match Utf8.strict? bytes with
      | none => .done (.error (.unreadable .notUtf8))
      | some text => do
        match ← measure title text input s.iterations engines with
        | .error v => return .error (.ofVerdict v)
        | .ok r =>
          match ← storeReport print s.outputDir r with
          | .error e => return .error (.failed (.stream e))
          | .ok path => return .ok path

/-- Stops at the first program that is in trouble. -/
def runPrograms (print : Printer) (s : Session) (engines : List Engine) (input : List UInt8) :
    List (String × Path) → Job (Except Trouble Unit)
  | [] => .done (.ok ())
  | (title, p) :: rest => do
    match ← runProgram print s engines input title p with
    | .error t => return .error t
    | .ok _ => runPrograms print s engines input rest

def readInput (input? : Option Path) : Job (Except Trouble (List UInt8)) :=
  match input? with
  | none => .done (.ok [])
  | some p => .fetch p fun
    | .error e => .done (.error (.unreadable e))
    | .ok bytes => .done (.ok bytes)

def Session.run (s : Session) (print : Printer) : Job (Except Trouble Unit) := do
  match Engine.select s.engines with
  | .error f => return .error (.failed f)
  | .ok engines =>
    match ← readInput s.input? with
    | .error t => return .error t
    | .ok input =>
      match titles s.programs with
      | .error f => return .error (.failed f)
      | .ok ts => runPrograms print s engines input (ts.zip s.programs)

end TapeMachine.Bench
