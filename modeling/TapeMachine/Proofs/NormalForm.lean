import TapeMachine.Proofs.Parse
import TapeMachine.Proofs.Shape

namespace TapeMachine

open Idiom

theorem Idiom.Shape.unique {ops : List Op} {o o' : Op} (h : Shape ops o) (h' : Shape ops o') : o = o' := by
  have ho := ofOps?_eq_some_iff.mpr h
  have ho' := ofOps?_eq_some_iff.mpr h'
  exact Option.some.inj (ho.symm.trans ho')

namespace Tree

variable {t u b r : Tree} {ops : List Op} {o : Op}

/-- The tree is the body of an idiom. -/
def IsShape (t : Tree) : Prop :=
  ∃ ops o, t = straight ops ∧ Shape ops o

/-- The rewriting of a tree. The body of a loop is rewritten first; if it then is of one of the shapes, the loop becomes
the operation of this shape. -/
inductive Rewrites : Tree → Tree → Prop where
  | nil : Rewrites nil nil
  | op (o : Op) {r r' : Tree} : Rewrites r r' → Rewrites (op o r) (op o r')
  | idiom {b r r' : Tree} {ops : List Op} {o : Op} : Rewrites b (straight ops) → Shape ops o → Rewrites r r' →
      Rewrites (loop b r) (op o r')
  | kept {b b' r r' : Tree} : Rewrites b b' → ¬ b'.IsShape → Rewrites r r' → Rewrites (loop b r) (loop b' r')

/-- No loop has a body of one of the shapes. -/
def Normal : Tree → Prop
  | nil => True
  | op _ r => r.Normal
  | loop b r => ¬ b.IsShape ∧ b.Normal ∧ r.Normal

theorem block_eq_ofOps_iff : t.block = .ofOps ops ↔ t = straight ops := by
  constructor
  · intro h
    have hblock : t.block = (straight ops).block := h.trans (block_straight ops).symm
    apply tokens_injective
    rw [← tokens_block, ← tokens_block, hblock]
  · rintro rfl
    exact block_straight ops

theorem straight_injective {ops' : List Op} (h : straight ops = straight ops') : ops = ops' := by
  induction ops generalizing ops' with
  | nil =>
    cases ops' with
    | nil => rfl
    | cons => cases h
  | cons o ops ih =>
    cases ops' with
    | nil => cases h
    | cons o' ops' =>
      obtain ⟨rfl, hrest⟩ := Tree.op.inj h
      rw [ih hrest]

theorem consLoop_of_shape (h : Shape ops o) (r : Tree) : consLoop (straight ops) r = op o r := by
  rcases consLoop_cases (straight ops) r with ⟨-, hnone⟩ | ⟨ops', o', hops, hshape, heq⟩
  · exact absurd h (hnone ops o (block_straight ops))
  · obtain rfl := straight_injective (block_eq_ofOps_iff.mp hops)
    rw [heq, hshape.unique h]

theorem consLoop_of_not_isShape (h : ¬ b.IsShape) (r : Tree) : consLoop b r = loop b r := by
  rcases consLoop_cases b r with ⟨heq, -⟩ | ⟨ops, o, hops, hshape, -⟩
  · exact heq
  · exact absurd ⟨ops, o, block_eq_ofOps_iff.mp hops, hshape⟩ h

theorem rewrites_replaceIdioms (t : Tree) : t.Rewrites t.replaceIdioms := by
  induction t with
  | nil => exact .nil
  | op o r ih => exact .op o ih
  | loop b r ihb ihr =>
    rw [replaceIdioms]
    by_cases h : b.replaceIdioms.IsShape
    · obtain ⟨ops, o, hb, hshape⟩ := h
      rw [hb] at ihb ⊢
      rw [consLoop_of_shape hshape]
      exact .idiom ihb hshape ihr
    · rw [consLoop_of_not_isShape h]
      exact .kept ihb h ihr

theorem Rewrites.eq_replaceIdioms (h : Rewrites t u) : u = t.replaceIdioms := by
  induction h with
  | nil => rfl
  | op o _ ih => rw [replaceIdioms, ih]
  | idiom _ hshape _ ihb ihr => rw [replaceIdioms, ← ihb, ← ihr, consLoop_of_shape hshape]
  | kept _ hkept _ ihb ihr => rw [replaceIdioms, ← ihb, ← ihr, consLoop_of_not_isShape hkept]

theorem optimise_eq_iff_rewrites : t.optimise = u ↔ Rewrites t u := by
  rw [optimise_eq_replaceIdioms]
  constructor
  · rintro rfl
    exact t.rewrites_replaceIdioms
  · exact fun h => h.eq_replaceIdioms.symm

theorem Rewrites.normal (h : Rewrites t u) : u.Normal := by
  induction h with
  | nil => trivial
  | op _ _ ih => exact ih
  | idiom _ _ _ _ ihr => exact ihr
  | kept _ hkept _ ihb ihr => exact ⟨hkept, ihb, ihr⟩

theorem Normal.rewrites (h : t.Normal) : Rewrites t t := by
  induction t with
  | nil => exact .nil
  | op o r ih => exact .op o (ih h)
  | loop b r ihb ihr => exact .kept (ihb h.2.1) h.1 (ihr h.2.2)

end Tree

/-- Optimising a tree is rewriting it from the inside out. Exactly the loops of one of the shapes are replaced, and what
comes out is a normal form. -/
theorem optimise_reaches_normal_form (t : Tree) :
    (∀ u, t.optimise = u ↔ t.Rewrites u) ∧ t.optimise.Normal ∧ t.optimise.optimise = t.optimise := by
  have hrewrites : t.Rewrites t.optimise := Tree.optimise_eq_iff_rewrites.mp rfl
  have hnormal := hrewrites.normal
  exact ⟨fun u => Tree.optimise_eq_iff_rewrites, hnormal, Tree.optimise_eq_iff_rewrites.mpr hnormal.rewrites⟩

end TapeMachine
