import TapeMachine.Bench.Report
import TapeMachine.Bench.Title
import TapeMachine.Job

namespace TapeMachine.Bench

/-- Runs an engine `n` more times and adds up the nanoseconds. -/
def repeatCall (e : Engine) (text : String) (input : List UInt8) (total : Nat) :
    Nat → Job (Except Verdict Nat)
  | 0 => .done (.ok total)
  | n + 1 => .call e text input fun v ns =>
    match v with
    | .done => repeatCall e text input (total + ns) n
    | v => .done (.error v)

/-- The milliseconds of one of `runs` runs that took `ns` nanoseconds together. -/
def average (ns runs : Nat) : Float :=
  ns.toFloat / 1000000000.0 * 1000.0 / runs.toFloat

/-- An engine is run at least once. -/
def sample (e : Engine) (text : String) (input : List UInt8) (iterations : Nat) :
    Job (Except Verdict Sample) := do
  let runs := max iterations 1
  match ← repeatCall e text input 0 runs with
  | .ok ns => return .ok ⟨e.name, average ns runs⟩
  | .error v => return .error v

/-- Measures the engines behind those already measured. -/
def sampleAll (text : String) (input : List UInt8) (iterations : Nat) (done : List Sample) :
    List Engine → Job (Except Verdict (List Sample))
  | [] => .done (.ok done.reverse)
  | e :: es => do
    match ← sample e text input iterations with
    | .ok s => sampleAll text input iterations (s :: done) es
    | .error v => return .error v

def measure (title text : String) (input : List UInt8) (iterations : Nat) (engines : List Engine) :
    Job (Except Verdict Report) := do
  match ← sampleAll text input iterations [] engines with
  | .ok samples => return .ok ⟨title, samples⟩
  | .error v => return .error v

end TapeMachine.Bench
