import TapeMachine.Native

namespace TapeMachine

/-- The assembler that emitted operations are handed to, as far as it can fail: it may not open, and instead of executable
code it may hand itself back. -/
structure Assembler where
  openError? : Option SystemError
  /-- What is shown of the assembler if it does not commit the code. -/
  handedBack? : Code Native → Option String

namespace Assembler

def willing : Assembler where
  openError? := none
  handedBack? := fun _ => none

/-- The assembler opens, and it commits whole operations as long as they are at most `n`. -/
structure Takes (a : Assembler) (n : Nat) : Prop where
  opens : a.openError? = none
  commits : ∀ code : Code Native, code.size ≤ n → (∀ o, .op o ∈ code → o.Encodable) → a.handedBack? code = none

theorem takes_willing (n : Nat) : willing.Takes n where
  opens := rfl
  commits _ _ _ := rfl

theorem Takes.mono {a : Assembler} {m n : Nat} (h : a.Takes n) (hmn : m ≤ n) : a.Takes m where
  opens := h.opens
  commits code hsize := h.commits code (Nat.le_trans hsize hmn)

def start (a : Assembler) : Except Failure Emitter :=
  match a.openError? with
  | none => .ok .empty
  | some e => .error (.stream (.system e))

def commit (a : Assembler) (code : Code Native) : Except Failure (Code Native) :=
  match a.handedBack? code with
  | none => .ok code
  | some shown => .error (.assembler shown)

end Assembler

/-- The code of an emitter without open loops, if the assembler commits it. -/
def Emitter.finish (a : Assembler) (e : Emitter) : Except Failure (Code Native) :=
  match Linker.finish e with
  | .ok code => a.commit code
  | .error u => .error (.unmatchedEmitted u)

end TapeMachine
