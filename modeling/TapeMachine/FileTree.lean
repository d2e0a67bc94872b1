import TapeMachine.Failure
import TapeMachine.Path

namespace TapeMachine

inductive Entry where
  | file (content : List UInt8)
  | directory
  deriving DecidableEq, Repr

/-- The names that lead from the root to an entry. -/
abbrev Place := List Name

structure FileTree where
  entries : List (Place × Entry)
  /-- Where relative paths start. -/
  workingPlace : Place
  deriving DecidableEq, Repr

namespace FileTree

/-- What a path leads to: an entry, or a place in a directory that holds no entry of that name. -/
inductive Target where
  | existing (p : Place) (e : Entry)
  | absent (p : Place)
  deriving DecidableEq, Repr

def maxNameLength : Nat := 255

def maxPathLength : Nat := 4095

/-- The root is a directory that is not listed. -/
def entryAt (t : FileTree) (p : Place) : Option Entry :=
  if p = [] then some .directory else t.entries.lookup p

def insert (t : FileTree) (p : Place) (e : Entry) : FileTree where
  entries := (p, e) :: t.entries.filter (·.1 ≠ p)
  workingPlace := t.workingPlace

/-- Follows names from a directory. Only the last one may be absent, and only the last one may be a file. -/
def walk (t : FileTree) (dir : Place) : List Name → Except SystemError Target
  | [] => .ok (.existing dir .directory)
  | n :: ns =>
    if n = [Path.dot] then walk t dir ns
    else if n = [Path.dot, Path.dot] then walk t dir.dropLast ns
    else if maxNameLength < n.length then .error .nameTooLong
    else
      let p := dir ++ [n]
      match t.entryAt p with
      | some .directory => walk t p ns
      | some (.file content) => if ns = [] then .ok (.existing p (.file content)) else .error .notADirectory
      | none => if ns = [] then .ok (.absent p) else .error .notFound

/-- What a path leads to. A path that ends in a slash leads to no file. -/
def locate (t : FileTree) (p : Path) : Except StreamError Target :=
  if p.contains 0 then .error .nulInPath
  else if p = [] then .error (.system .notFound)
  else if maxPathLength < p.length then .error (.system .nameTooLong)
  else
    let dir := if p.isAbsolute then [] else t.workingPlace
    match t.walk dir (p.pieces.filter (· ≠ [])) with
    | .error e => .error (.system e)
    | .ok target => .ok target

def endsInSlash (p : Path) : Bool :=
  p.getLast? == some Path.slash

def fetch (t : FileTree) (p : Path) : Except StreamError (List UInt8) :=
  match t.locate p with
  | .error e => .error e
  | .ok (.absent _) => .error (.system .notFound)
  | .ok (.existing _ .directory) => .error (.system .isADirectory)
  | .ok (.existing _ (.file content)) =>
    if endsInSlash p then .error (.system .notADirectory) else .ok content

def store (t : FileTree) (p : Path) (content : List UInt8) : Except StreamError FileTree :=
  match t.locate p with
  | .error e => .error e
  | .ok (.existing _ .directory) => .error (.system .isADirectory)
  | .ok (.existing q (.file _)) =>
    if endsInSlash p then .error (.system .notADirectory) else .ok (t.insert q (.file content))
  | .ok (.absent q) =>
    if endsInSlash p then .error (.system .isADirectory) else .ok (t.insert q (.file content))

def isDirectory (t : FileTree) (p : Path) : Bool :=
  match t.locate p with
  | .ok (.existing _ .directory) => true
  | _ => false

def makeDirectory (t : FileTree) (p : Path) : Except StreamError FileTree :=
  match t.locate p with
  | .error e => .error e
  | .ok (.existing _ _) => .error (.system .alreadyExists)
  | .ok (.absent q) => .ok (t.insert q .directory)

end FileTree

end TapeMachine
