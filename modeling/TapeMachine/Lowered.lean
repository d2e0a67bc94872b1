import TapeMachine.Counted
import TapeMachine.Tree.Build
import TapeMachine.Tree.Optimise

namespace TapeMachine

inductive Lowered where
  | counted (b : Basic) (count : Nat)
  | clear
  | scan (count : Nat) (d : Direction) (amount : Nat)
  | transfer (count : Nat) (d : Direction) (amount : Nat)
  deriving DecidableEq, Repr, Inhabited

namespace Lowered

def ofCounted : Counted Op → Lowered
  | ⟨.basic b, n⟩ => .counted b n
  | ⟨.clear, _⟩ => .clear
  | ⟨.scan d a, n⟩ => .scan n d a
  | ⟨.transfer d a, n⟩ => .transfer n d a

end Lowered

namespace Tree

/-- The printed tree with its equal neighbours counted. -/
def runs (t : Tree) : List (Token (Counted Op)) :=
  foldRuns t.print

def lower (t : Tree) : List (Token Lowered) :=
  t.runs.map (Token.map Lowered.ofCounted)

/-- Whether every count is at most `limit`. -/
def countsWithin (limit : Nat) (ts : List (Token (Counted Op))) : Bool :=
  ts.all fun
    | .op r => r.count ≤ limit
    | .bracket _ => true

/-- The lowered program if no run of equal neighbours is longer than `limit`. -/
def lowerWithin? (limit : Nat) (t : Tree) : Option (List (Token Lowered)) :=
  let runs := t.runs
  if countsWithin limit runs then some (runs.map (Token.map Lowered.ofCounted)) else none

def lowerSource (text : String) : Except Unmatched (List (Token Lowered)) :=
  match ofSource text with
  | .ok t => .ok t.optimise.lower
  | .error u => .error u

end Tree

end TapeMachine
