import TapeMachine.Instruction
import TapeMachine.Partner

namespace TapeMachine

inductive Instr (α : Type) where
  | op (a : α)
  | ifZero (destination : Nat)
  | ifNonzero (destination : Nat)
  deriving DecidableEq, Repr, Inhabited

abbrev Code (α : Type) := Array (Instr α)

/-- The index behind `destination` in code of `size` instructions. A destination outside the code is a 64-bit
word, and nothing is behind the last word. -/
def behind? (size destination : Nat) : Option Nat :=
  if destination < size ∨ destination + 1 < Nat.pow 2 64 then some (destination + 1) else none

theorem behind?_of_lt {size destination : Nat} (h : destination < size) :
    behind? size destination = some (destination + 1) :=
  if_pos (.inl h)

namespace Config

/-- Goes on behind a destination. A jump that nothing is behind crashes. -/
def jump (c : Config) (size destination : Nat) : Action :=
  match behind? size destination with
  | some pc => .resume ⟨pc, c.tape⟩
  | none => .halt c .crashed

def jumpIf (c : Config) (taken : Prop) [Decidable taken] (size destination : Nat) : Action :=
  if taken then c.jump size destination else .resume (c.next c.tape)

end Config

namespace Code

variable {α : Type}

/-- Runs linked code whose operations do `act`. -/
def step (act : α → Config → Action) (code : Code α) : Step := fun c =>
  match code[c.pc]? with
  | none => .halt c .done
  | some (.op a) => act a c
  | some (.ifZero d) => c.jumpIf (c.tape.current = 0) code.size d
  | some (.ifNonzero d) => c.jumpIf (c.tape.current ≠ 0) code.size d

end Code

end TapeMachine
