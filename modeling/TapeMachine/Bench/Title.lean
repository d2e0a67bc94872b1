import TapeMachine.Failure
import TapeMachine.Path

namespace TapeMachine

/-- The title of a program; one whose path names no entry is just a program. -/
def Path.title (p : Path) : String :=
  match p.fileName? with
  | some n => Utf8.lossy (stem n)
  | none => "program"

namespace Title

/-- The titles of `paths` behind those already given, each with its path. -/
def assign (given : List (String × Path)) : List Path → Except Failure (List String)
  | [] => .ok (given.reverse.map (·.1))
  | p :: ps =>
    match given.lookup p.title with
    | some q => .error (.titleCollision q.display p.display p.title)
    | none => assign ((p.title, p) :: given) ps

end Title

/-- The titles of the paths in order, if no two are the same. -/
def titles (paths : List Path) : Except Failure (List String) :=
  Title.assign [] paths

end TapeMachine
