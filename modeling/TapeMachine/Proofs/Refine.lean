import TapeMachine.Proofs.Meaning

namespace TapeMachine

/-- Whatever the first meaning does the second one does too: it passes with the same tape and streams, or is
left by a related exit. Exits in `away` answer everything. -/
structure Refines (like : Exit → Exit → Prop) (away : Exit → Prop) (A B : Meaning) : Prop where
  passed : ∀ {r r'}, A r (.passed r') → B r (.passed r') ∨ ∃ y, away y ∧ B r (.left y)
  left : ∀ {r x}, A r (.left x) → ∃ y, (like x y ∨ away y) ∧ B r (.left y)

def Exit.none : Exit → Prop := fun _ => False

/-- The exits at a watched place. -/
def Exit.IsMet : Exit → Prop
  | .ended _ => False
  | .met _ _ => True

def Matched (like : Exit → Exit → Prop) (A B : Meaning) : Prop :=
  ∀ r, (∃ r', A r (.passed r') ∧ B r (.passed r')) ∨ ∃ x y, like x y ∧ A r (.left x) ∧ B r (.left y)

theorem Matched.symm {like : Exit → Exit → Prop} {A B : Meaning} (h : Matched like A B) :
    Matched (fun y x => like x y) B A := by
  intro r
  rcases h r with ⟨r', ha, hb⟩ | ⟨x, y, hxy, ha, hb⟩
  · exact .inl ⟨r', hb, ha⟩
  · exact .inr ⟨y, x, hxy, hb, ha⟩

theorem Matched.refines {like : Exit → Exit → Prop} {away : Exit → Prop} {A B : Meaning}
    (h : Matched like A B) (hA : A.Unique) : Refines like away A B := by
  constructor
  · intro r r' ha
    rcases h r with ⟨r'', ha', hb⟩ | ⟨x, y, -, ha', -⟩
    · obtain rfl := Passage.passed.inj (hA _ _ _ ha ha')
      exact .inl hb
    · cases hA _ _ _ ha ha'
  · intro r x ha
    rcases h r with ⟨r'', ha', -⟩ | ⟨x', y, hxy, ha', hb⟩
    · cases hA _ _ _ ha ha'
    · obtain rfl := Passage.left.inj (hA _ _ _ ha ha')
      exact ⟨y, .inl hxy, hb⟩

namespace Refines

variable {like like' : Exit → Exit → Prop} {away : Exit → Prop} {A B C A' B' : Meaning}

theorem mono (h : Refines like away A B) (hl : ∀ x y, like x y → like' x y) :
    Refines like' away A B := by
  refine ⟨h.passed, fun hx => ?_⟩
  obtain ⟨y, hy, hb⟩ := h.left hx
  exact ⟨y, hy.imp_left (hl _ y), hb⟩

theorem trans {like'' : Exit → Exit → Prop} (h : Refines like Exit.none A B)
    (h' : Refines like' away B C) (hl : ∀ x y z, like x y → like' y z → like'' x z) :
    Refines like'' away A C := by
  constructor
  · intro r r' ha
    rcases h.passed ha with hb | ⟨y, hy, -⟩
    · exact h'.passed hb
    · exact hy.elim
  · intro r x ha
    obtain ⟨y, hxy | hy, hb⟩ := h.left ha
    · obtain ⟨z, hz, hc⟩ := h'.left hb
      exact ⟨z, hz.imp_left (hl x y z hxy), hc⟩
    · exact hy.elim

theorem skip : Refines like away Meaning.skip Meaning.skip :=
  ⟨fun h => .inl h, fun h => by cases h⟩

theorem seq (h : Refines like away A A') (h' : Refines like away B B') :
    Refines like away (A.seq B) (A'.seq B') := by
  constructor
  · intro r r' hab
    cases hab with
    | pass ha hb =>
      rcases h.passed ha with ha' | ⟨y, hy, ha'⟩
      · rcases h'.passed hb with hb' | ⟨y, hy, hb'⟩
        · exact .inl (.pass ha' hb')
        · exact .inr ⟨y, hy, .pass ha' hb'⟩
      · exact .inr ⟨y, hy, .leave ha'⟩
  · intro r x hab
    cases hab with
    | pass ha hb =>
      rcases h.passed ha with ha' | ⟨y, hy, ha'⟩
      · obtain ⟨y, hy, hb'⟩ := h'.left hb
        exact ⟨y, hy, .pass ha' hb'⟩
      · exact ⟨y, .inr hy, .leave ha'⟩
    | leave ha =>
      obtain ⟨y, hy, ha'⟩ := h.left ha
      exact ⟨y, hy, .leave ha'⟩

theorem answer_rounds (h : Refines like away A B) {r : Runtime} {o : Passage} (ho : A.rounds r o) :
    B.rounds r o ∧ (∃ r', o = .passed r') ∨
      ∃ y, (away y ∨ ∃ x, o = .left x ∧ like x y) ∧ B.rounds r (.left y) := by
  induction ho with
  | done hz => exact .inl ⟨.done hz, _, rfl⟩
  | leave hn ha =>
    obtain ⟨y, hy, hb⟩ := h.left ha
    exact .inr ⟨y, hy.symm.imp_right fun hl => ⟨_, rfl, hl⟩, .leave hn hb⟩
  | again hn ha _ ih =>
    rcases h.passed ha with hb | ⟨y, hy, hb⟩
    · rcases ih with ⟨hr, hp⟩ | ⟨y, hy, hr⟩
      · exact .inl ⟨.again hn hb hr, hp⟩
      · exact .inr ⟨y, hy, .again hn hb hr⟩
    · exact .inr ⟨y, .inl hy, .leave hn hb⟩

theorem rounds (h : Refines like away A B) : Refines like away A.rounds B.rounds := by
  constructor
  · intro r r' ha
    rcases h.answer_rounds ha with ⟨hb, -⟩ | ⟨y, hy | ⟨x, hx, -⟩, hb⟩
    · exact .inl hb
    · exact .inr ⟨y, hy, hb⟩
    · cases hx
  · intro r x ha
    rcases h.answer_rounds ha with ⟨-, r', hr'⟩ | ⟨y, hy | ⟨x', hx', hl⟩, hb⟩
    · cases hr'
    · exact ⟨y, .inr hy, hb⟩
    · cases hx'
      exact ⟨y, .inl hl, hb⟩

theorem watched (h : Refines like away A B) {seen seen' : Tape → Prop} {i j : Nat}
    (hs : ∀ t, seen t → seen' t) (hm : ∀ c c' io, c.tape = c'.tape → like (.met c io) (.met c' io)) :
    Refines like away (A.watched seen i) (B.watched seen' j) := by
  constructor
  · intro r r' ha
    cases ha with
    | run ha =>
      rcases h.passed ha with hb | ⟨y, hy, hb⟩
      · exact .inl (.run hb)
      · exact .inr ⟨y, hy, .run hb⟩
  · intro r x ha
    cases ha with
    | met hr => exact ⟨.met ⟨j, r.tape⟩ r.io, .inl (hm _ _ _ rfl), .met (hs _ hr)⟩
    | run ha =>
      obtain ⟨y, hy, hb⟩ := h.left ha
      exact ⟨y, hy, .run hb⟩

end Refines

variable {α β : Type} {act : α → Config → Action} {act' : β → Config → Action} {w : Watch α}
  {w' : Watch β} {like : Exit → Exit → Prop} {away : Exit → Prop}

/-- Blocks that are built alike refine each other wherever they are placed, if their segments do. -/
theorem Block.Related.refines {seg kept : Block α → Block β → Prop} {b : Block α} {b' : Block β}
    (h : Related seg kept b b')
    (hs : ∀ s s', seg s s' → ∀ i j, Refines like away (s.meaning act w i) (s'.meaning act' w' j))
    (hk : ∀ c c', kept c c' → ∀ t, w.loop c.tokens t → w'.loop c'.tokens t)
    (hm : ∀ c c' io, c.tape = c'.tape → like (.met c io) (.met c' io)) (i j : Nat) :
    Refines like away (b.meaning act w i) (b'.meaning act' w' j) := by
  induction h generalizing i j with
  | nil => exact .skip
  | segment hseg _ ih =>
    rw [meaning_append, meaning_append]
    exact (hs _ _ hseg i j).seq (ih _ _)
  | loop hkept _ _ ihb ihr =>
    rw [meaning, meaning]
    exact ((ihb _ _).rounds.watched (hk _ _ hkept) hm).seq (ihr _ _)

theorem Refines.finish (hd : ∀ n m t io, like (.ended ⟨.done, ⟨n, t⟩, io⟩) (.ended ⟨.done, ⟨m, t⟩, io⟩)) (n m : Nat) :
    Refines like away (Block.finish n) (Block.finish m) := by
  constructor
  · intro r r' hp
    cases hp
  · intro r x hf
    cases hf
    exact ⟨_, .inl (hd _ _ _ _), rfl⟩

theorem Block.Leaves.refine {b : Block α} {b' : Block β} {r : Runtime} {x : Exit}
    (hx : b.Leaves act w r x) (h : Refines like away (b.meaning act w 0) (b'.meaning act' w' 0))
    (hd : ∀ n m t io, like (.ended ⟨.done, ⟨n, t⟩, io⟩) (.ended ⟨.done, ⟨m, t⟩, io⟩)) :
    ∃ y, (like x y ∨ away y) ∧ b'.Leaves act' w' r y :=
  (h.seq (.finish hd b.length b'.length)).left hx

end TapeMachine
