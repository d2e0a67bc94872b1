import TapeMachine.Command

namespace TapeMachine

inductive Op where
  | basic (b : Basic)
  /-- Sets the current cell to zero. -/
  | clear
  /-- Moves by `amount` until the current cell is zero. -/
  | scan (d : Direction) (amount : Nat)
  /-- Adds the current cell to the one `amount` away and clears it. -/
  | transfer (d : Direction) (amount : Nat)
  deriving DecidableEq, Repr, Inhabited

/-- A sequence of nodes: empty, an operation and the rest, or a loop and the rest. -/
inductive Tree where
  | nil
  | op (o : Op) (rest : Tree)
  | loop (body rest : Tree)
  deriving DecidableEq, Repr, Inhabited

namespace Tree

def append : Tree → Tree → Tree
  | nil, u => u
  | op o r, u => op o (r.append u)
  | loop b r, u => loop b (r.append u)

/-- The nodes of the first tree in reverse order, then the second tree. Loop bodies keep their order. -/
def reverseOnto : Tree → Tree → Tree
  | nil, u => u
  | op o r, u => reverseOnto r (op o u)
  | loop b r, u => reverseOnto r (loop b u)

def reverse (t : Tree) : Tree :=
  t.reverseOnto nil

/-- Nodes, of loop bodies too, and one for each sequence. -/
def size : Tree → Nat
  | nil => 1
  | op _ r => r.size + 1
  | loop b r => b.size + r.size + 1

/-- The printed form, a loop between brackets. -/
def tokens : Tree → List (Token Op)
  | nil => []
  | op o r => .op o :: r.tokens
  | loop b r => .opening :: b.tokens ++ .closing :: r.tokens

/-- Appends the printed form of a tree and then, behind a closing bracket each, of `outer`. -/
def printOnto (done : Array (Token Op)) : Tree → List Tree → Array (Token Op)
  | nil, [] => done
  | nil, r :: outer => printOnto (done.push .closing) r outer
  | op o r, outer => printOnto (done.push (.op o)) r outer
  | loop b r, outer => printOnto (done.push .opening) b (r :: outer)
termination_by t outer => t.size + outer.foldr (fun u n => u.size + n) 0
decreasing_by all_goals simp [size]; try omega

/-- The printed form, computed with a stack of its own. -/
def print (t : Tree) : List (Token Op) :=
  (printOnto #[] t []).toList

theorem toList_printOnto (done : Array (Token Op)) (t : Tree) (outer : List Tree) :
    (printOnto done t outer).toList =
      done.toList ++ t.tokens ++ outer.flatMap fun r => .closing :: r.tokens := by
  fun_induction printOnto done t outer with
  | case1 => simp [tokens]
  | case2 _ _ _ ih => simp [ih, tokens]
  | case3 _ _ _ _ ih => simp [ih, tokens]
  | case4 _ _ _ _ ih => simp [ih, tokens]

theorem print_eq_tokens (t : Tree) : t.print = t.tokens := by
  simp [print, toList_printOnto]

end Tree

end TapeMachine
