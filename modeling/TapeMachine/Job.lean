import TapeMachine.Engine
import TapeMachine.FileTree

namespace TapeMachine

inductive Job (α : Type) where
  | done (a : α)
  | fetch (p : Path) (next : Except StreamError (List UInt8) → Job α)
  | isDirectory (p : Path) (next : Bool → Job α)
  /-- Creates a directory in one that exists. -/
  | makeDirectory (p : Path) (next : Except StreamError Unit → Job α)
  | store (p : Path) (content : List UInt8) (next : Except StreamError Unit → Job α)
  /-- A run of its own whose output is thrown away; the answer holds the nanoseconds it took. -/
  | call (e : Engine) (text : String) (input : List UInt8) (next : Verdict → Nat → Job α)
  /-- A run on the standard streams. -/
  | drive (e : Engine) (text : String) (next : Verdict → Job α)

namespace Job

variable {α β : Type}

protected def bind (j : Job α) (f : α → Job β) : Job β :=
  match j with
  | done a => f a
  | fetch p next => .fetch p fun r => (next r).bind f
  | isDirectory p next => .isDirectory p fun r => (next r).bind f
  | makeDirectory p next => .makeDirectory p fun r => (next r).bind f
  | store p content next => .store p content fun r => (next r).bind f
  | call e text input next => .call e text input fun v ns => (next v ns).bind f
  | drive e text next => .drive e text fun v => (next v).bind f

instance : Monad Job where
  pure := done
  bind := Job.bind

end Job

/-- A world that is a value: files, standard streams, and the runs whose output was thrown away. -/
structure World where
  files : FileTree
  io : Streams
  calls : Array Engine

/-- The verdict of a run on its own streams that never fail. -/
def Engine.verdict? (e : Engine) (target : Target) (limit : Nat) (text : String) (input : List UInt8) :
    Option Verdict :=
  (e.run? target limit text (.start input {})).map (·.verdict)

/-- Does a job in a world where time stands still. `none` if a run takes more than `limit` instructions. -/
def Job.perform {α : Type} (target : Target) (limit : Nat) : Job α → World → Option (α × World)
  | done a, w => some (a, w)
  | fetch p next, w => (next (w.files.fetch p)).perform target limit w
  | isDirectory p next, w => (next (w.files.isDirectory p)).perform target limit w
  | makeDirectory p next, w =>
    match w.files.makeDirectory p with
    | .ok files => (next (.ok ())).perform target limit { w with files := files }
    | .error e => (next (.error e)).perform target limit w
  | store p content next, w =>
    match w.files.store p content with
    | .ok files => (next (.ok ())).perform target limit { w with files := files }
    | .error e => (next (.error e)).perform target limit w
  | call e text input next, w =>
    match e.verdict? target limit text input with
    | some v => (next v 0).perform target limit { w with calls := w.calls.push e }
    | none => none
  | drive e text next, w =>
    match e.run? target limit text w.io with
    | some r => (next r.verdict).perform target limit { w with io := r.io }
    | none => none

end TapeMachine
