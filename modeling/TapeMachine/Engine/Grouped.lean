import TapeMachine.Code.Linker
import TapeMachine.Counted

namespace TapeMachine.Grouped

abbrev Program := Code (Counted Basic)

/-- Brackets without a partner are reported by command. -/
def ofCommands (commands : List Command) : Except Unmatched Program :=
  link Counted.count (foldRuns commands)

/-- Reads `n` bytes and stores the last one, `last` if there is none. -/
def readLast (c : Config) (last : UInt8) : Nat → Action
  | 0 => c.update (·.set last)
  | n + 1 => .read c fun b => readLast c b n

/-- Writes the current cell `n` times, then flushes. -/
def writeAll (c : Config) : Nat → Action
  | 0 => .flush c fun _ => .resume (c.next c.tape)
  | n + 1 => .write c c.tape.current fun _ => writeAll c n

def act (r : Counted Basic) (c : Config) : Action :=
  match r.op with
  | .move d => c.moveBy d r.count c.outOfBounds
  | .increment => c.update (·.add r.count)
  | .decrement => c.update (·.sub r.count)
  | .read => readLast c 0 r.count
  | .write => writeAll c r.count

def step (p : Program) : Step :=
  Code.step act p

end TapeMachine.Grouped
