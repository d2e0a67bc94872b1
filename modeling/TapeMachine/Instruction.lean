import TapeMachine.Action

namespace TapeMachine

namespace Config

/-- Changes the tape and goes on. -/
def update (c : Config) (f : Tape → Tape) : Action :=
  match c with
  | ⟨pc, t⟩ => .resume ⟨pc + 1, f t⟩

def moveBy (c : Config) (d : Direction) (n : Nat) (refusal : Failure) : Action :=
  match c.tape.move? d n with
  | some t => .resume (c.next t)
  | none => .halt c (.failed refusal)

def readByte (c : Config) : Action :=
  .read c fun b => c.update (·.set b)

/-- Writes the current cell and flushes it. -/
def writeByte (c : Config) : Action :=
  .write c c.tape.current fun _ => .flush c fun _ => .resume (c.next c.tape)

/-- One move of a scan: on a zero cell the scan is over, otherwise it stays on its instruction. -/
def scanBy (c : Config) (d : Direction) (n : Nat) (refusal : Failure) : Action :=
  if c.tape.current = 0 then .resume (c.next c.tape)
  else match c.tape.move? d n with
    | some t => .resume ⟨c.pc, t⟩
    | none => .halt c (.failed refusal)

/-- Adds the current cell to the one `n` cells away and clears it. A zero cell is not looked at further. -/
def transferBy (c : Config) (d : Direction) (n : Nat) (refusal : Failure) : Action :=
  if c.tape.current = 0 then .resume (c.next c.tape)
  else match c.tape.cellAt? d n with
    | some i => c.update (·.transferTo i)
    | none => .halt c (.failed refusal)

/-- The failure of a move off the tape at the current instruction. -/
def outOfBounds (c : Config) : Failure :=
  .outOfBounds (some c.pc)

end Config

def Basic.act (b : Basic) (c : Config) : Action :=
  match b with
  | .move d => c.moveBy d 1 c.outOfBounds
  | .increment => c.update (·.add 1)
  | .decrement => c.update (·.sub 1)
  | .read => c.readByte
  | .write => c.writeByte

end TapeMachine
