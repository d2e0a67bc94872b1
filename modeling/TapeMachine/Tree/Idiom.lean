import TapeMachine.Tree

namespace TapeMachine

/-- Distances are kept in 32 bits. -/
def maxAmount : Nat := Nat.pow 2 32 - 1

/-- The operations of a loop body that holds no loop. -/
def Tree.ops? : Tree → Option (List Op)
  | t => go [] t
where
  go (done : List Op) : Tree → Option (List Op)
    | .nil => some done.reverse
    | .op o r => go (o :: done) r
    | .loop _ _ => none

namespace Idiom

/-- The basic commands that the shapes are made of. -/
abbrev moveOp (d : Direction) : Op := .basic (.move d)

/-- `n` equal moves, 1 or more. -/
def scan? : List Op → Option Op
  | .basic (.move d) :: ops =>
    if ops.all (· = moveOp d) ∧ ops.length + 1 ≤ maxAmount then some (.scan d (ops.length + 1))
    else none
  | _ => none

/-- Increments only or decrements only, 1 or more. -/
def clear? : List Op → Option Op
  | .basic .increment :: ops => if ops.all (· = .basic .increment) then some .clear else none
  | .basic .decrement :: ops => if ops.all (· = .basic .decrement) then some .clear else none
  | _ => none

/-- Moves there, one increment, as many moves back. -/
def roundTrip? : List Op → Option Op
  | .basic (.move d) :: ops =>
    let there := ops.takeWhile (· = moveOp d)
    let amount := there.length + 1
    match ops.drop there.length with
    | .basic .increment :: back =>
      if back.length = amount ∧ back.all (· = moveOp d.opposite) ∧ amount ≤ maxAmount then
        some (.transfer d amount)
      else none
    | _ => none
  | _ => none

/-- A round trip with one decrement before or behind it. -/
def transfer? (ops : List Op) : Option Op :=
  if ops.head? = some (.basic .decrement) then roundTrip? ops.tail
  else if ops.getLast? = some (.basic .decrement) then roundTrip? ops.dropLast
  else none

/-- The operation that replaces a loop with this body, if it is an idiom. -/
def ofOps? (ops : List Op) : Option Op :=
  (scan? ops).or ((clear? ops).or (transfer? ops))

def ofBody? (body : Tree) : Option Op :=
  body.ops?.bind ofOps?

end Idiom

end TapeMachine
