import TapeMachine.Failure
import TapeMachine.Tape

namespace TapeMachine.Tape

inductive Operation where
  | set (b : UInt8)
  | add (n : Nat)
  | sub (n : Nat)
  | move (d : Direction) (n pc : Nat)
  | cellAt (d : Direction) (n pc : Nat)
  | transferTo (target : Nat)
  deriving DecidableEq, Repr

inductive Answer where
  | done
  | cell (index : Nat)
  | failed (e : Failure)
  | crashed
  deriving DecidableEq, Repr

/-- A transfer to a cell that is not on the tape crashes before it changes anything. -/
def apply (t : Tape) : Operation → Answer × Tape
  | .set b => (.done, t.set b)
  | .add n => (.done, t.add n)
  | .sub n => (.done, t.sub n)
  | .move d n pc =>
    match t.move? d n with
    | some u => (.done, u)
    | none => (.failed (.outOfBounds (some pc)), t)
  | .cellAt d n pc =>
    match t.cellAt? d n with
    | some i => (.cell i, t)
    | none => (.failed (.outOfBounds (some pc)), t)
  | .transferTo i => if h : i < 30000 then (.done, t.transferTo ⟨i, h⟩) else (.crashed, t)

def applyAll (t : Tape) (ops : List Operation) : Tape :=
  ops.foldl (fun t o => (t.apply o).2) t

/-- A run of equal cells. -/
structure CellRun where
  start : Nat
  length : Nat
  value : UInt8
  deriving DecidableEq, Repr

/-- Collects the runs of `cells`, the first of which is cell `i`, behind a run that may still grow. -/
def collectRuns (done : Array CellRun) (run : CellRun) (i : Nat) : List UInt8 → Array CellRun
  | [] => done.push run
  | b :: bs =>
    if b = run.value then collectRuns done { run with length := run.length + 1 } (i + 1) bs
    else collectRuns (done.push run) ⟨i, 1, b⟩ (i + 1) bs

/-- The maximal runs of equal cells that are not zero, from left to right. -/
def nonzeroRuns (t : Tape) : List CellRun :=
  (collectRuns #[] ⟨0, 0, 0⟩ 0 t.cells.toList).toList.filter (·.value ≠ 0)

end TapeMachine.Tape
