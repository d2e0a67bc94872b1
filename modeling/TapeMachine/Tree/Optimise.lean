import TapeMachine.Tree.Idiom

namespace TapeMachine.Tree

/-- A loop whose body is done, in front of the rest. An idiom becomes its operation. -/
def consLoop (body rest : Tree) : Tree :=
  match Idiom.ofBody? body with
  | some o => .op o rest
  | none => .loop body rest

/-- Replaces the idioms in the body of every loop first, then the loop. -/
def replaceIdioms : Tree → Tree
  | nil => nil
  | op o r => op o r.replaceIdioms
  | loop b r => consLoop b.replaceIdioms r.replaceIdioms

/-- A loop whose body is being done: its siblings that are done in reverse, and those still to do. -/
structure Suspended where
  before : Tree
  rest : Tree

/-- Replaces the idioms of a tree behind the reversed nodes `done`, then those of what was suspended. -/
def optimiseOnto (done : Tree) : Tree → List Suspended → Tree
  | nil, [] => done.reverse
  | nil, s :: outer => optimiseOnto (consLoop done.reverse s.before) s.rest outer
  | op o r, outer => optimiseOnto (op o done) r outer
  | loop b r, outer => optimiseOnto nil b (⟨done, r⟩ :: outer)
termination_by t outer => t.size + outer.foldr (fun s n => s.rest.size + n) 0
decreasing_by all_goals simp [size]; try omega

def optimise (t : Tree) : Tree :=
  optimiseOnto nil t []

/-- Wraps a body that is done into the loops around it, each with its siblings. -/
def wrap (body : Tree) : List Suspended → Tree
  | [] => body
  | s :: outer => wrap (s.before.reverseOnto (consLoop body s.rest.replaceIdioms)) outer

theorem reverseOnto_consLoop (body before rest : Tree) :
    (consLoop body before).reverseOnto rest = before.reverseOnto (consLoop body rest) := by
  unfold consLoop
  split <;> rfl

theorem optimiseOnto_eq_wrap (done t : Tree) (outer : List Suspended) :
    optimiseOnto done t outer = wrap (done.reverseOnto t.replaceIdioms) outer := by
  fun_induction optimiseOnto done t outer with
  | case1 => rfl
  | case2 done s outer ih => rw [ih, reverseOnto_consLoop]; rfl
  | case3 done o r outer ih => rw [ih]; rfl
  | case4 done b r outer ih => rw [ih]; rfl

theorem optimise_eq_replaceIdioms (t : Tree) : t.optimise = t.replaceIdioms := by
  rw [optimise, optimiseOnto_eq_wrap]; rfl

end TapeMachine.Tree
