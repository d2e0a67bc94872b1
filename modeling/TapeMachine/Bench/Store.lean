import TapeMachine.Bench.Report
import TapeMachine.Job

namespace TapeMachine.Bench

/-- Goes up to the first path that is a directory or can be made one, and collects the paths before it. -/
def makeFirst (remaining : List Path) : List Path → Job (Except StreamError (List Path))
  | [] => .done (.ok remaining)
  | p :: ps => .makeDirectory p fun
    | .ok () => .done (.ok remaining)
    | .error (.system .notFound) => makeFirst (p :: remaining) ps
    | .error e => .isDirectory p fun there => .done (if there then .ok remaining else .error e)

/-- Creates directories one below the other. Those that were created stay when a later one is refused. -/
def makeEach : List Path → Job (Except StreamError Unit)
  | [] => .done (.ok ())
  | p :: ps => .makeDirectory p fun
    | .ok () => makeEach ps
    | .error e => .isDirectory p fun there =>
      if e = .system .alreadyExists ∧ there then makeEach ps else .done (.error e)

def makeDirectories (p : Path) : Job (Except StreamError Unit) := do
  match ← makeFirst [] p.ancestors with
  | .error e => return .error e
  | .ok remaining => makeEach remaining

def reportPath (dir : Path) (title : String) : Path :=
  dir.join (.ofString (title ++ ".json"))

def storeReport (print : Printer) (dir : Path) (r : Report) : Job (Except StreamError Path) := do
  match ← makeDirectories dir with
  | .error e => return .error e
  | .ok () =>
    let p := reportPath dir r.title
    .store p (print r) fun answer => .done (answer.map fun () => p)

end TapeMachine.Bench
