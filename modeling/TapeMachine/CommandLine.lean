import TapeMachine.Arguments
import TapeMachine.Bench.Session

namespace TapeMachine

namespace Failure

/-- The failure as shown in a report: its family and its quoted message. -/
def report : Failure → String
  | stream e => "Io(" ++ Text.quoteReport e.message ++ ")"
  | offsetTooLarge => "TryFromInt(TryFromIntError(PosOverflow))"
  | assembler shown => "Assembler(" ++ Text.quoteReport shown ++ ")"
  | f => "Bf(" ++ Text.quoteReport f.message ++ ")"

end Failure

namespace StreamError

/-- The error of a file as shown in a report, with the kind the system gives it. -/
def report : StreamError → String
  | system e =>
    let fields := ["code: " ++ toString e.code, "kind: " ++ e.kindName,
      "message: " ++ Text.quoteReport e.message]
    "Os \x7b " ++ ", ".intercalate fields ++ " \x7d"
  | e =>
    let kind := match e with
      | notUtf8 => "InvalidData"
      | nulInPath => "InvalidInput"
      | endOfInput => "UnexpectedEof"
      | nothingWritten => "WriteZero"
      | _ => "Other"
    "Error \x7b kind: " ++ kind ++ ", message: " ++ Text.quoteReport e.message ++ " \x7d"

end StreamError

def Bench.Trouble.report? : Bench.Trouble → Option String
  | failed f => some f.report
  | unreadable e => some e.report
  | crashed => none

inductive Tool where
  | engine (e : Engine)
  | bench
  deriving DecidableEq, Repr

namespace Tool

def name : Tool → String
  | engine e => e.name
  | bench => "bench"

def ofName? (s : String) : Option Tool :=
  if s = "bench" then some .bench else (Engine.ofName? s).map .engine

def usage (tool : Tool) : String :=
  let operands := if tool = .bench then "<PROGRAMS>..." else "<FILE>"
  "Usage: " ++ tool.name ++ " [OPTIONS] " ++ operands

end Tool

/-- How a tool ends. -/
structure Outcome where
  exitCode : Nat
  /-- Written to standard output by the tool itself. -/
  printed : String
  /-- The error that is reported on standard error. -/
  report? : Option String
  deriving DecidableEq, Repr

namespace Outcome

def success : Outcome := ⟨0, "", none⟩

def failure (report : String) : Outcome := ⟨1, "", some report⟩

def crash : Outcome := ⟨101, "", none⟩

def ofVerdict : Verdict → Outcome
  | .done => success
  | .failed f => failure f.report
  | .crashed => crash

def ofTrouble (t : Bench.Trouble) : Outcome :=
  match t.report? with
  | some r => failure r
  | none => crash

def ofUsage (tool : Tool) : UsageError → Outcome
  | .versionRequested => ⟨0, tool.name ++ " 0.1.0\n", none⟩
  | .helpRequested => ⟨0, tool.usage ++ "\n", none⟩
  | _ => ⟨2, "", none⟩

end Outcome

def runFile (e : Engine) (a : RunArguments) : Job Outcome :=
  .fetch (.ofString a.file) fun
    | .error err => .done (.failure (Failure.stream err).report)
    | .ok bytes =>
      match Utf8.strict? bytes with
      | none => .done (.failure (Failure.stream .notUtf8).report)
      | some text => .drive e text fun v => .done (.ofVerdict v)

def BenchArguments.session (a : BenchArguments) : Bench.Session where
  engines := a.only
  input? := a.input.map .ofString
  iterations := a.iterations
  outputDir := .ofString a.outputDir
  programs := a.programs.map .ofString

def runBench (print : Printer) (a : BenchArguments) : Job Outcome := do
  match ← a.session.run print with
  | .ok () => return .success
  | .error t => return .ofTrouble t

def Tool.run (tool : Tool) (print : Printer) (arguments : List String) : Job Outcome :=
  match tool with
  | .engine e =>
    match RunArguments.parse arguments with
    | .ok a => runFile e a
    | .error u => .done (.ofUsage tool u)
  | .bench =>
    match BenchArguments.parse arguments with
    | .ok a => runBench print a
    | .error u => .done (.ofUsage tool u)

end TapeMachine
