import TapeMachine.Code.Linker
import TapeMachine.Lowered

namespace TapeMachine.Idiomatic

abbrev Program := Code Lowered

/-- The program of a source text. Linking a printed tree meets no bracket without a partner. -/
def ofSource (text : String) : Except Unmatched Program :=
  match Tree.lowerSource text with
  | .ok ts => link (fun _ => 1) ts
  | .error u => .error u

def readEach (c : Config) : Nat → Action
  | 0 => .resume (c.next c.tape)
  | n + 1 => .read c fun b => readEach ⟨c.pc, c.tape.set b⟩ n

def writeEach (c : Config) : Nat → Action
  | 0 => .resume (c.next c.tape)
  | n + 1 => .write c c.tape.current fun _ => .flush c fun _ => writeEach c n

/-- Scans `n` cells at a time, as often as it is counted. A scan on a zero cell is over, and the next one begins; any
other scan moves, and is taken up again from there. -/
def scanEach (c : Config) (d : Direction) (n : Nat) : Nat → Action
  | 0 => .resume (c.next c.tape)
  | count + 1 =>
    if c.tape.current = 0 then scanEach c d n count
    else match c.tape.move? d n with
      | some t => .resume ⟨c.pc, t⟩
      | none => .halt c (.failed c.outOfBounds)

def transferEach (c : Config) (d : Direction) (n : Nat) : Nat → Action
  | 0 => .resume (c.next c.tape)
  | count + 1 =>
    if c.tape.current = 0 then transferEach c d n count
    else match c.tape.cellAt? d n with
      | some i => transferEach ⟨c.pc, c.tape.transferTo i⟩ d n count
      | none => .halt c (.failed c.outOfBounds)

def act (o : Lowered) (c : Config) : Action :=
  match o with
  | .counted (.move d) n => c.moveBy d n c.outOfBounds
  | .counted .increment n => c.update (·.add n)
  | .counted .decrement n => c.update (·.sub n)
  | .counted .read n => readEach c n
  | .counted .write n => writeEach c n
  | .clear => c.update (·.set 0)
  -- a move goes back to the first of the scans: how many are left does not matter, see `scanEach_succ`
  | .scan count d n => scanEach c d n count
  | .transfer count d n => transferEach c d n count

def step (p : Program) : Step :=
  Code.step act p

section Repeats

variable {c : Config} (d : Direction) (n : Nat)

theorem scanEach_of_zero (hz : c.tape.current = 0) (count : Nat) : scanEach c d n count = .resume (c.next c.tape) := by
  induction count with
  | zero => rfl
  | succ count ih => rw [scanEach, if_pos hz, ih]

theorem transferEach_of_zero (hz : c.tape.current = 0) (count : Nat) :
    transferEach c d n count = .resume (c.next c.tape) := by
  induction count with
  | zero => rfl
  | succ count ih => rw [transferEach, if_pos hz, ih]

/-- Scans after the first one find a zero cell and do nothing. -/
theorem scanEach_succ (c : Config) (count : Nat) : scanEach c d n (count + 1) = c.scanBy d n c.outOfBounds := by
  rw [scanEach, Config.scanBy]
  split
  · exact scanEach_of_zero d n ‹_› count
  · rfl

/-- The first transfer leaves a zero cell, so that the others do nothing. -/
theorem transferEach_succ (c : Config) (count : Nat) :
    transferEach c d n (count + 1) = c.transferBy d n c.outOfBounds := by
  rw [transferEach, Config.transferBy]
  split
  · exact transferEach_of_zero d n ‹_› count
  · cases c.tape.cellAt? d n with
    | none => rfl
    | some i => exact transferEach_of_zero d n (c.tape.current_transferTo i) count

theorem act_scan (count : Nat) : act (.scan (count + 1) d n) = fun c => c.scanBy d n c.outOfBounds :=
  funext fun c => scanEach_succ d n c count

theorem act_transfer (count : Nat) : act (.transfer (count + 1) d n) = fun c => c.transferBy d n c.outOfBounds :=
  funext fun c => transferEach_succ d n c count

end Repeats

end TapeMachine.Idiomatic
