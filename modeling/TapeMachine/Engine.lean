import TapeMachine.Engine.Grouped
import TapeMachine.Engine.Idiomatic
import TapeMachine.Engine.Scanning
import TapeMachine.Engine.Tabled
import TapeMachine.Native.Compile
import TapeMachine.Native.Host

namespace TapeMachine

inductive Engine where
  | scanning
  | tabled
  | grouped
  | idiomatic
  | plainNative
  | idiomaticNative
  deriving DecidableEq, Repr, Inhabited

namespace Engine

/-- All engines, in the order in which they are measured. -/
def all : List Engine :=
  [scanning, tabled, grouped, idiomatic, plainNative, idiomaticNative]

def name : Engine → String
  | scanning => "simpleinterp"
  | tabled => "opinterp"
  | grouped => "opinterp2"
  | idiomatic => "opinterp3"
  | plainNative => "simplejit"
  | idiomaticNative => "opjit"

def ofName? (name : String) : Option Engine :=
  all.find? (·.name == name)

/-- The engines with these names in their order, all of them if there are no names. -/
def select (names : List String) : Except Failure (List Engine) :=
  if names.isEmpty then .ok all
  else names.mapM fun name =>
    match ofName? name with
    | some e => .ok e
    | none => .error (.unknownEngine name)

end Engine

/-- What code is compiled for: the assembler, and the place of the tape in memory. -/
structure Target where
  assembler : Assembler
  layout : Layout

def Target.standard : Target where
  assembler := .willing
  layout := .standard

/-- A program that an engine is ready to run. -/
inductive Ready where
  | stepped (step : Step)
  | compiled (code : Code Native)

def Ready.step : Ready → Step
  | stepped step => step
  | compiled code => Native.step code

/-- Runs the program on a blank tape. Compiled code runs on memory and callbacks. -/
def Ready.run? (target : Target) (limit : Nat) (io : Streams) : Ready → Option Ended
  | stepped step => runFor step limit (.start .blank) io
  | compiled code =>
    match Native.flowFor target.layout code limit (.start .blank) ⟨io, none⟩ with
    | some (c, x, k) => some ⟨(k.report x).1, c, (k.report x).2.io⟩
    | none => none

namespace Engine

/-- Fails before anything is read or written, or makes the source ready to run. -/
def load (e : Engine) (target : Target) (text : String) : Except Failure Ready :=
  match e with
  | scanning => .ok (.stepped (Scanning.step (Source.commands text).toArray))
  | tabled =>
    match TabledProgram.ofCommands (Source.commands text) with
    | .ok p => .ok (.stepped p.step)
    | .error u => .error (.unmatchedCommand u)
  | grouped =>
    match Grouped.ofCommands (Source.commands text) with
    | .ok p => .ok (.stepped (Grouped.step p))
    | .error u => .error (.unmatchedCommand u)
  | idiomatic =>
    match Idiomatic.ofSource text with
    | .ok p => .ok (.stepped (Idiomatic.step p))
    | .error u => .error (.unmatchedSource u)
  | plainNative => (Native.plain target.assembler text).map .compiled
  | idiomaticNative => (Native.optimised target.assembler text).map .compiled

def prepare (e : Engine) (target : Target) (text : String) : Except Failure Step :=
  (e.load target text).map Ready.step

def run? (e : Engine) (target : Target) (limit : Nat) (text : String) (io : Streams) : Option Ended :=
  match e.load target text with
  | .ok r => r.run? target limit io
  | .error f => some ⟨.failed f, .start .blank, io⟩

end Engine

end TapeMachine
