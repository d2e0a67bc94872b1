import TapeMachine.Code

namespace TapeMachine

/-- An opening bracket that waits for its partner. -/
structure OpenLoop where
  index : Nat
  /-- Where to report the bracket if it stays open. -/
  place : Nat
  deriving DecidableEq, Repr

structure Linker (α : Type) where
  code : Code α
  loops : List OpenLoop
  deriving DecidableEq, Repr

namespace Linker

variable {α : Type}

def empty : Linker α where
  code := #[]
  loops := []

def pushOp (l : Linker α) (a : α) : Linker α :=
  match l with
  | ⟨code, loops⟩ => ⟨code.push (.op a), loops⟩

/-- The jump's destination is filled in when its loop is closed. -/
def openLoop (l : Linker α) (place : Nat) : Linker α :=
  match l with
  | ⟨code, loops⟩ =>
    let here := code.size
    ⟨code.push (.ifZero 0), ⟨here, place⟩ :: loops⟩

def pop : Linker α → Option OpenLoop × Linker α
  | ⟨code, []⟩ => (none, ⟨code, []⟩)
  | ⟨code, o :: loops⟩ => (some o, ⟨code, loops⟩)

def close (l : Linker α) (o : OpenLoop) : Linker α :=
  match l with
  | ⟨code, loops⟩ =>
    let here := code.size
    ⟨(code.setIfInBounds o.index (.ifZero here)).push (.ifNonzero o.index), loops⟩

def closeLoop (l : Linker α) (place : Nat) : Except Unmatched (Linker α) :=
  match l.pop with
  | (none, _) => .error ⟨.closing, place⟩
  | (some o, left) => .ok (left.close o)

def push (l : Linker α) (place : Nat) : Token α → Except Unmatched (Linker α)
  | .op a => .ok (l.pushOp a)
  | .opening => .ok (l.openLoop place)
  | .closing => l.closeLoop place

/-- The linked code, unless a loop is open; then the outermost open one is reported. -/
def finish (l : Linker α) : Except Unmatched (Code α) :=
  match l.loops.getLast? with
  | none => .ok l.code
  | some o => .error ⟨.opening, o.place⟩

/-- How many places a token takes, if an operation `a` takes `width a` of them. -/
def places (width : α → Nat) : Token α → Nat
  | .op a => width a
  | .bracket _ => 1

/-- Links tokens, the first of them at the given place. -/
def pushAll (width : α → Nat) (l : Linker α) (place : Nat) :
    List (Token α) → Except Unmatched (Linker α)
  | [] => .ok l
  | t :: ts =>
    match l.push place t with
    | .ok l' => l'.pushAll width (place + places width t) ts
    | .error u => .error u

end Linker

/-- The code of a program. The first closing bracket without a partner is reported, else the first opening
one, by the number of places before it. -/
def link {α : Type} (width : α → Nat) (ts : List (Token α)) : Except Unmatched (Code α) :=
  match (Linker.empty : Linker α).pushAll width 0 ts with
  | .ok l => l.finish
  | .error u => .error u

end TapeMachine
