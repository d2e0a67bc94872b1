import TapeMachine.Instruction
import TapeMachine.Partner

namespace TapeMachine.Scanning

/-- A jump from the current bracket to its partner, if there is one. -/
def jump (c : Config) (b : Bracket) (partner : Option Nat) : Action :=
  match partner with
  | some i => .resume ⟨i + 1, c.tape⟩
  | none => .halt c (.failed (.unmatchedCommand ⟨b, c.pc⟩))

def step (code : Array Command) : Step := fun c =>
  match code[c.pc]? with
  | none => .halt c .done
  | some (.op b) => b.act c
  | some .opening =>
    if c.tape.current = 0 then jump c .opening (closingOf code c.pc)
    else .resume (c.next c.tape)
  | some .closing =>
    if c.tape.current ≠ 0 then jump c .closing (openingOf code c.pc)
    else .resume (c.next c.tape)

end TapeMachine.Scanning
