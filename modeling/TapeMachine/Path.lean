import TapeMachine.Text.Utf8

namespace TapeMachine

abbrev Path := List UInt8

/-- A component of a path. -/
abbrev Name := List UInt8

namespace Path

def slash : UInt8 := 47

def dot : UInt8 := 46

/-- The pieces between slashes, one more than there are slashes. -/
def pieces : Path → List Name
  | [] => [[]]
  | b :: bs =>
    if b = slash then [] :: pieces bs
    else match pieces bs with
      | [] => [[b]]
      | n :: ns => (b :: n) :: ns

def ofPieces : List Name → Path
  | [] => []
  | [n] => n
  | n :: ns => n ++ slash :: ofPieces ns

/-- The pieces that lead somewhere. -/
def components (p : Path) : List Name :=
  (pieces p).filter fun n => n ≠ [] ∧ n ≠ [dot]

def isAbsolute (p : Path) : Bool :=
  p.head? == some slash

/-- The last component, if it names an entry. -/
def fileName? (p : Path) : Option Name :=
  match (components p).getLast? with
  | some n => if n = [dot, dot] then none else some n
  | none => none

/-- What stands before the last dot, nothing if there is no dot. -/
def beforeLastDot (n : Name) : Name :=
  ((n.reverse.dropWhile (· ≠ dot)).drop 1).reverse

def stem (n : Name) : Name :=
  let s := beforeLastDot n
  if s = [] then n else s

/-- A path relative to a directory. An absolute one stays as it is. -/
def join (dir p : Path) : Path :=
  if p.isAbsolute then p
  else if dir = [] ∨ dir.getLast? = some slash then dir ++ p
  else dir ++ slash :: p

/-- The path as it is written, then the paths of ever fewer of its leading components. -/
def ancestors (p : Path) : List Path :=
  let names := components p
  let root : Path := if p.isAbsolute then [slash] else []
  let above := (List.range (names.length - 1)).reverse.map fun k => root ++ ofPieces (names.take (k + 1))
  if p = [] then [] else p :: above

/-- For messages: ill-formed pieces are replaced. -/
def display (p : Path) : String :=
  Utf8.lossy p

def ofString (s : String) : Path :=
  Utf8.encode s

theorem pieces_ne_nil (p : Path) : pieces p ≠ [] := by
  cases p with
  | nil => simp [pieces]
  | cons b bs =>
    simp only [pieces]
    split
    · simp
    · split <;> simp

end Path

end TapeMachine
