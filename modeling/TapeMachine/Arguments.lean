namespace TapeMachine

inductive UsageError where
  | missingOperand
  | unknownArgument
  /-- No value, or an empty one where it must not be. -/
  | missingValue
  | badValue
  | repeatedOption
  | unexpectedValue
  | helpRequested
  | versionRequested
  deriving DecidableEq, Repr

/-- Judges a value: the error that refuses it. -/
abbrev Check := String → Option UsageError

inductive OptionKind where
  | help
  | version
  /-- Takes one value, each time it is given. -/
  | value (repeatable : Bool) (check : Check)

structure OptionSpec where
  long : String
  short? : Option Char
  kind : OptionKind

structure ArgumentSpec where
  options : List OptionSpec
  /-- Whether there may be more than one operand. -/
  manyOperands : Bool
  checkOperand : Check

structure ParsedArguments where
  options : List (String × String)
  operands : List String
  deriving DecidableEq, Repr

namespace ParsedArguments

def values (p : ParsedArguments) (long : String) : List String :=
  (p.options.filter (·.1 == long)).map (·.2)

def value? (p : ParsedArguments) (long : String) : Option String :=
  p.options.lookup long

end ParsedArguments

namespace ArgumentSpec

/-- What has been read but not judged yet. -/
inductive Pending where
  | nothing
  | option (long : String) (repeatable : Bool) (check : Check) (value? : Option String)
  | operands (values : List String)

structure State where
  parsed : ParsedArguments
  pending : Pending
  operandBegun : Bool
  /-- Whether two dashes have been passed. -/
  onlyOperands : Bool

def initial : State where
  parsed := ⟨[], []⟩
  pending := .nothing
  operandBegun := false
  onlyOperands := false

def accept (p : ParsedArguments) (long : String) (repeatable : Bool) (check : Check) (v : String) :
    Except UsageError ParsedArguments :=
  if ¬ repeatable ∧ (p.value? long).isSome then .error .repeatedOption
  else match check v with
    | some e => .error e
    | none => .ok { p with options := p.options ++ [(long, v)] }

def settle (spec : ArgumentSpec) (s : State) : Except UsageError State :=
  match s.pending with
  | .nothing => .ok s
  | .option _ _ _ none => .error .missingValue
  | .option long repeatable check (some v) => do
    let p ← accept s.parsed long repeatable check v
    return { s with parsed := p, pending := .nothing }
  | .operands vs =>
    match vs.findSome? spec.checkOperand with
    | some e => .error e
    | none => .ok { s with
        parsed := { s.parsed with operands := s.parsed.operands ++ vs }, pending := .nothing }

/-- An option has been named, with the value written in the same argument if there is one. -/
def takeOption (spec : ArgumentSpec) (s : State) (o : OptionSpec) (attached : Option String) :
    Except UsageError State := do
  let s ← spec.settle s
  match o.kind, attached with
  | .help, _ => .error .helpRequested
  | .version, _ => .error .versionRequested
  | .value repeatable check, some v =>
    let p ← accept s.parsed o.long repeatable check v
    return { s with parsed := p }
  | .value repeatable check, none =>
    return { s with pending := .option o.long repeatable check none }

def takesValue (o : OptionSpec) : Bool :=
  match o.kind with
  | .value _ _ => true
  | _ => false

/-- An argument behind its two dashes. -/
def takeLong (spec : ArgumentSpec) (s : State) (cs : List Char) : Except UsageError State :=
  let name := String.ofList (cs.takeWhile (· ≠ '='))
  let attached := match cs.dropWhile (· ≠ '=') with
    | [] => none
    | _ :: v => some (String.ofList v)
  match spec.options.find? (·.long == name) with
  | none => .error .unknownArgument
  | some o =>
    if attached.isSome ∧ ¬ takesValue o then .error .unexpectedValue
    else spec.takeOption s o attached

/-- An argument behind its single dash: the first option of it decides, as none goes without ending it. -/
def takeShort (spec : ArgumentSpec) (s : State) (c : Char) (rest : List Char) :
    Except UsageError State :=
  match spec.options.find? (·.short? == some c) with
  | none => .error .unknownArgument
  | some o =>
    let attached := match rest with
      | [] => none
      | '=' :: v => some (String.ofList v)
      | v => some (String.ofList v)
    spec.takeOption s o attached

def takeOperand (spec : ArgumentSpec) (s : State) (a : String) : Except UsageError State :=
  match spec.manyOperands, s.pending with
  | true, .operands vs => .ok { s with pending := .operands (vs ++ [a]) }
  | many, _ =>
    if ¬ many ∧ s.operandBegun then .error .unknownArgument
    else do
      let s ← spec.settle s
      return { s with pending := .operands [a], operandBegun := true }

def takePlain (spec : ArgumentSpec) (s : State) (a : String) : Except UsageError State :=
  match s.pending with
  | .option long repeatable check none =>
    .ok { s with pending := .option long repeatable check (some a) }
  | _ => spec.takeOperand s a

def takeOne (spec : ArgumentSpec) (s : State) (a : String) : Except UsageError State :=
  if s.onlyOperands then spec.takeOperand s a
  else match a.toList with
    | ['-', '-'] => .ok { s with onlyOperands := true }
    | '-' :: '-' :: cs => spec.takeLong s cs
    | '-' :: c :: rest => spec.takeShort s c rest
    | _ => spec.takePlain s a

def parse (spec : ArgumentSpec) (arguments : List String) : Except UsageError ParsedArguments := do
  let s ← arguments.foldlM (spec.takeOne) initial
  let s ← spec.settle s
  if s.parsed.operands.isEmpty then .error .missingOperand
  else return s.parsed

end ArgumentSpec

inductive LogLevel where
  | off
  | error
  | warn
  | info
  | debug
  | trace
  deriving DecidableEq, Repr, Inhabited

namespace LogLevel

def all : List LogLevel :=
  [off, error, warn, info, debug, trace]

def name : LogLevel → String
  | off => "OFF"
  | error => "ERROR"
  | warn => "WARN"
  | info => "INFO"
  | debug => "DEBUG"
  | trace => "TRACE"

/-- Levels are named in either case. -/
def ofName? (s : String) : Option LogLevel :=
  all.find? fun l => l.name.toList == s.toList.map Char.toUpper

end LogLevel

/-- A count as written on a command line: digits with a sign or without, at most 32 bits. -/
def parseCount? (s : String) : Option Nat :=
  let digits? (cs : List Char) : Option Nat :=
    if cs ≠ [] ∧ cs.all Char.isDigit then
      some (cs.foldl (fun n c => 10 * n + (c.toNat - '0'.toNat)) 0)
    else none
  match s.toList with
  | '-' :: cs => (digits? cs).filter (· = 0)
  | '+' :: cs => (digits? cs).filter (· < Nat.pow 2 32)
  | cs => (digits? cs).filter (· < Nat.pow 2 32)

namespace Check

def anything : Check := fun _ => none

def nonEmpty : Check := fun v => if v.isEmpty then some .missingValue else none

def count : Check := fun v => if (parseCount? v).isSome then none else some .badValue

def logLevel : Check := fun v => if (LogLevel.ofName? v).isSome then none else some .badValue

end Check

namespace OptionSpec

def help : OptionSpec := ⟨"help", some 'h', .help⟩

def version : OptionSpec := ⟨"version", some 'V', .version⟩

def logLevel : OptionSpec := ⟨"log-level", some 'l', .value false .logLevel⟩

end OptionSpec

structure RunArguments where
  file : String
  logLevel : LogLevel
  deriving DecidableEq, Repr

namespace RunArguments

def spec : ArgumentSpec where
  options := [.logLevel, .help, .version]
  manyOperands := false
  checkOperand := .nonEmpty

def parse (arguments : List String) : Except UsageError RunArguments := do
  let p ← spec.parse arguments
  return {
    file := p.operands.headD ""
    logLevel := ((p.value? "log-level").bind LogLevel.ofName?).getD .warn }

end RunArguments

structure BenchArguments where
  iterations : Nat
  outputDir : String
  input : Option String
  only : List String
  logLevel : LogLevel
  programs : List String
  deriving DecidableEq, Repr

namespace BenchArguments

def spec : ArgumentSpec where
  options := [⟨"iterations", some 'i', .value false .count⟩,
    ⟨"output-dir", some 'o', .value false .nonEmpty⟩, ⟨"input", none, .value false .nonEmpty⟩,
    ⟨"only", none, .value true .anything⟩, .logLevel, .help, .version]
  manyOperands := true
  checkOperand := .nonEmpty

def parse (arguments : List String) : Except UsageError BenchArguments := do
  let p ← spec.parse arguments
  return {
    iterations := ((p.value? "iterations").bind parseCount?).getD 10
    outputDir := (p.value? "output-dir").getD "bench-data"
    input := p.value? "input"
    only := p.values "only"
    logLevel := ((p.value? "log-level").bind LogLevel.ofName?).getD .info
    programs := p.operands }

end BenchArguments

end TapeMachine
