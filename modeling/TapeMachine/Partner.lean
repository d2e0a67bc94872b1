import TapeMachine.Command

namespace TapeMachine

variable {α : Type}

/-- Every bracket has its partner. -/
inductive Balanced : List (Token α) → Prop where
  | nil : Balanced []
  | op (a : α) {rest : List (Token α)} : Balanced rest → Balanced (.op a :: rest)
  | loop {body rest : List (Token α)} :
      Balanced body → Balanced rest → Balanced (.opening :: body ++ .closing :: rest)

/-- The opening bracket at `i` and the closing bracket at `j` belong together. -/
def Partners (ts : List (Token α)) (i j : Nat) : Prop :=
  i < j ∧ ts[i]? = some .opening ∧ ts[j]? = some .closing ∧
    Balanced ((ts.drop (i + 1)).take (j - i - 1))

/-- The first closing bracket from `j` on that ends the loop around `depth` further open ones. -/
def scanForward (code : Array (Token α)) (depth j : Nat) : Option Nat :=
  if h : j < code.size then
    match code[j] with
    | .op _ => scanForward code depth (j + 1)
    | .opening => scanForward code (depth + 1) (j + 1)
    | .closing =>
      match depth with
      | 0 => some j
      | depth + 1 => scanForward code depth (j + 1)
  else none
termination_by code.size - j

/-- The last opening bracket before `i` that starts the loop around `depth` further closed ones. -/
def scanBackward (code : Array (Token α)) (depth : Nat) : Nat → Option Nat
  | 0 => none
  | i + 1 =>
    match code[i]? with
    | some .closing => scanBackward code (depth + 1) i
    | some .opening =>
      match depth with
      | 0 => some i
      | depth + 1 => scanBackward code depth i
    | _ => scanBackward code depth i

/-- The partner of the opening bracket at `i`. -/
def closingOf (code : Array (Token α)) (i : Nat) : Option Nat :=
  scanForward code 0 (i + 1)

/-- The partner of the closing bracket at `j`. -/
def openingOf (code : Array (Token α)) (j : Nat) : Option Nat :=
  scanBackward code 0 j

theorem Balanced.append {xs ys : List (Token α)} (hx : Balanced xs) (hy : Balanced ys) :
    Balanced (xs ++ ys) := by
  induction hx with
  | nil => exact hy
  | op a _ ih => exact .op a ih
  | loop hb _ _ ih =>
    have h := Balanced.loop hb ih
    simpa using h

end TapeMachine
