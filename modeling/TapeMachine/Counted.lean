import TapeMachine.Command

namespace TapeMachine

/-- An operation that is to be done `count` times. -/
structure Counted (α : Type) where
  op : α
  count : Nat
  deriving DecidableEq, Repr, Inhabited

variable {α : Type}

def Token.expand : Token (Counted α) → List (Token α)
  | .op r => List.replicate r.count (.op r.op)
  | .bracket b => [.bracket b]

/-- Folds tokens behind `done`, with the run that has begun but may still grow. -/
def foldOnto [DecidableEq α] (done : Array (Token (Counted α))) :
    Option (Counted α) → List (Token α) → Array (Token (Counted α))
  | none, [] => done
  | some r, [] => done.push (.op r)
  | none, .op a :: ts => foldOnto done (some ⟨a, 1⟩) ts
  | some r, .op a :: ts =>
    if a = r.op then foldOnto done (some ⟨a, r.count + 1⟩) ts
    else foldOnto (done.push (.op r)) (some ⟨a, 1⟩) ts
  | none, .bracket b :: ts => foldOnto (done.push (.bracket b)) none ts
  | some r, .bracket b :: ts => foldOnto ((done.push (.op r)).push (.bracket b)) none ts

def foldRuns [DecidableEq α] (ts : List (Token α)) : List (Token (Counted α)) :=
  (foldOnto #[] none ts).toList

theorem flatMap_expand_foldOnto [DecidableEq α] (ts : List (Token α))
    (done : Array (Token (Counted α))) (run : Option (Counted α)) :
    (foldOnto done run ts).toList.flatMap Token.expand =
      done.toList.flatMap Token.expand ++
        (run.toList.flatMap fun r => List.replicate r.count (.op r.op)) ++ ts := by
  fun_induction foldOnto done run ts with
  | case1 => simp
  | case2 => simp [Token.expand]
  | case3 _ _ _ ih => simp [ih]
  | case4 _ _ _ ih => simp [ih, List.replicate_succ', List.append_assoc]
  | case5 _ _ _ _ _ ih => simp [ih, Token.expand]
  | case6 _ _ _ ih => simp [ih, Token.expand]
  | case7 _ _ _ _ ih => simp [ih, Token.expand]

/-- Folding loses nothing. -/
theorem flatMap_expand_foldRuns [DecidableEq α] (ts : List (Token α)) :
    (foldRuns ts).flatMap Token.expand = ts := by
  simp [foldRuns, flatMap_expand_foldOnto]

end TapeMachine
