import TapeMachine.CommandLine

namespace TapeMachine.Console

/-- The errors with a wording of their own, by the system's number. -/
def systemError (code : Nat) (text : String) : SystemError :=
  let known : List SystemError :=
    [.notFound, .alreadyExists, .notADirectory, .isADirectory, .nameTooLong, .permissionDenied]
  (known.find? (·.code == code)).getD (.other code text)

/-- A number that the system may give with a minus sign. -/
def magnitude (c : UInt32) : Nat :=
  if c.toNat < Nat.pow 2 31 then c.toNat else Nat.pow 2 32 - c.toNat

def numbered : IO.Error → Nat × String
  | .alreadyExists _ c d | .noFileOrDirectory _ c d | .invalidArgument _ c d
  | .permissionDenied _ c d | .resourceExhausted _ c d | .inappropriateType _ c d
  | .noSuchThing _ c d | .interrupted _ c d | .otherError c d | .resourceBusy c d
  | .resourceVanished c d | .unsupportedOperation c d | .hardwareFault c d
  | .unsatisfiedConstraints c d | .illegalOperation c d | .protocolError c d
  | .timeExpired c d => (magnitude c, d)
  | .unexpectedEof => (0, "unexpected end of file")
  | .userError d => (0, d)

def attempt {α : Type} (request : IO α) : IO (Except StreamError α) := do
  try
    return .ok (← request)
  catch e =>
    let (code, text) := numbered e
    return .error (.system (systemError code text))

/-- Grants the requests of one instruction on the standard streams. -/
def grant : Action → IO (Except Verdict Config)
  | .resume c => return .ok c
  | .halt _ v => return .error v
  | .read _ granted => do
    let bytes ← (← IO.getStdin).read 1
    match bytes.toList with
    | b :: _ => grant (granted b)
    | [] => return .error (.failed (.stream .endOfInput))
  | .write _ b granted => do
    match ← attempt ((← IO.getStdout).write (ByteArray.empty.push b)) with
    | .ok () => grant (granted ())
    | .error e => return .error (.failed (.stream e))
  | .flush _ granted => do
    match ← attempt (← IO.getStdout).flush with
    | .ok () => grant (granted ())
    | .error e => return .error (.failed (.stream e))

partial def drive (step : Step) (c : Config) : IO Verdict := do
  match ← grant (step c) with
  | .ok c' => drive step c'
  | .error v => return v

/-- More instructions than a run of a lifetime executes. -/
def ample : Nat := Nat.pow 2 62

def perform {α : Type} : Job α → IO α
  | .done a => return a
  | .fetch p next => do
    let bytes ← attempt (IO.FS.readBinFile p.display)
    perform (next (bytes.map ByteArray.toList))
  | .isDirectory p next => do
    -- the entry that a directory holds for itself cannot be created again
    let answer ← attempt (IO.FS.createDir (p ++ [Path.slash, Path.dot] : Path).display)
    perform (next (answer matches .error (.system .alreadyExists)))
  | .makeDirectory p next => do
    perform (next (← attempt (IO.FS.createDir p.display)))
  | .store p content next => do
    perform (next (← attempt (IO.FS.writeBinFile p.display ⟨content.toArray⟩)))
  | .call e text input next => do
    let before ← IO.monoNanosNow
    let v ← IO.lazyPure fun _ => e.verdict? .standard ample text input
    let after ← IO.monoNanosNow
    perform (next (v.getD .crashed) (after - before))
  | .drive e text next => do
    match e.prepare .standard text with
    | .ok step => perform (next (← drive step (.start .blank)))
    | .error f => perform (next (.failed f))

def usage : String :=
  "Usage: TOOL [ARGUMENTS], where TOOL is bench or one of " ++
    ", ".intercalate (Engine.all.map Engine.name)

def run (arguments : List String) : IO UInt32 := do
  match arguments with
  | [] => (← IO.getStderr).putStrLn usage; return 2
  | name :: rest =>
    match Tool.ofName? name with
    | none => (← IO.getStderr).putStrLn usage; return 2
    | some tool =>
      let o ← perform (tool.run Report.print rest)
      (← IO.getStdout).putStr o.printed
      if let some r := o.report? then
        (← IO.getStderr).putStrLn ("Error: " ++ r)
      if o.exitCode = 2 then
        (← IO.getStderr).putStrLn tool.usage
      return UInt32.ofNat o.exitCode

end TapeMachine.Console

def main (arguments : List String) : IO UInt32 :=
  TapeMachine.Console.run arguments
