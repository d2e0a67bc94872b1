import TapeMachine.Code.Linker

namespace TapeMachine

structure TabledProgram where
  commands : Array Command
  table : Array Nat
  deriving DecidableEq, Repr

/-- The destination of a jump, 0 for an operation. -/
def Instr.destination {α : Type} : Instr α → Nat
  | .op _ => 0
  | .ifZero d => d
  | .ifNonzero d => d

namespace TabledProgram

/-- The partner of every bracket, by index. -/
def jumpTable (commands : List Command) : Except Unmatched (Array Nat) :=
  match link (fun _ => 1) commands with
  | .ok code => .ok (code.map Instr.destination)
  | .error u => .error u

def ofCommands (commands : List Command) : Except Unmatched TabledProgram :=
  match jumpTable commands with
  | .ok table => .ok ⟨commands.toArray, table⟩
  | .error u => .error u

def jump (p : TabledProgram) (c : Config) : Action :=
  match p.table[c.pc]? with
  | some d => c.jump p.commands.size d
  | none => .halt c .crashed

def step (p : TabledProgram) : Step := fun c =>
  match p.commands[c.pc]? with
  | none => .halt c .done
  | some (.op b) => b.act c
  | some .opening => if c.tape.current = 0 then p.jump c else .resume (c.next c.tape)
  | some .closing => if c.tape.current ≠ 0 then p.jump c else .resume (c.next c.tape)

end TabledProgram

end TapeMachine
