import TapeMachine.Command

namespace TapeMachine

structure Tape where
  cells : Vector UInt8 30000
  head : Fin 30000
  deriving DecidableEq

def addCount (b : UInt8) (n : Nat) : UInt8 :=
  b + UInt8.ofNat n

def subCount (b : UInt8) (n : Nat) : UInt8 :=
  b - UInt8.ofNat n

namespace Tape

def size : Nat := 30000

def blank : Tape where
  cells := Vector.replicate 30000 0
  head := 0

instance : Inhabited Tape := ⟨blank⟩

def current (t : Tape) : UInt8 :=
  t.cells[t.head]

def set (t : Tape) (b : UInt8) : Tape :=
  match t with
  | ⟨cells, head⟩ => ⟨cells.set head b, head⟩

def add (t : Tape) (n : Nat) : Tape :=
  t.set (addCount t.current n)

def sub (t : Tape) (n : Nat) : Tape :=
  t.set (subCount t.current n)

def rewind (t : Tape) : Tape where
  cells := t.cells
  head := 0

/-- The cell `n` cells away from the head, if it is on the tape. -/
def cellAt? (t : Tape) : Direction → Nat → Option (Fin 30000)
  | .forward, n => if h : t.head + n < 30000 then some ⟨t.head + n, h⟩ else none
  | .backward, n => if n ≤ t.head then some ⟨t.head - n, by omega⟩ else none

def move? (t : Tape) (d : Direction) (n : Nat) : Option Tape :=
  match t.cellAt? d n with
  | some i => some ⟨t.cells, i⟩
  | none => none

/-- Adds the current cell to cell `i`, then clears it. -/
def transferTo (t : Tape) (i : Fin 30000) : Tape :=
  match t with
  | ⟨cells, head⟩ => ⟨(cells.set i (cells[i] + cells[head])).set head 0, head⟩

theorem cellAt?_zero (t : Tape) (d : Direction) : t.cellAt? d 0 = some t.head := by
  cases d <;> simp [cellAt?]

theorem current_set (t : Tape) (b : UInt8) : (t.set b).current = b := by
  simp [current, set]

theorem current_transferTo (t : Tape) (i : Fin 30000) : (t.transferTo i).current = 0 := by
  simp [current, transferTo]

theorem move?_eq_some_iff {t u : Tape} {d : Direction} {n : Nat} :
    t.move? d n = some u ↔ ∃ i, t.cellAt? d n = some i ∧ u = ⟨t.cells, i⟩ := by
  unfold move?
  cases t.cellAt? d n <;> simp [eq_comm]

end Tape

end TapeMachine
