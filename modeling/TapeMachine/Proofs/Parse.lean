import TapeMachine.Proofs.Block
import TapeMachine.Tree.Build

namespace TapeMachine

namespace Tree

theorem tokens_reverseOnto (t u : Tree) : (t.reverseOnto u).tokens = t.reverse.tokens ++ u.tokens := by
  induction t generalizing u with
  | nil => rfl
  | op o r ih =>
    have hnil : (op o r).reverse.tokens = r.reverse.tokens ++ [.op o] := ih (op o nil)
    rw [reverseOnto, ih, hnil]
    simp [tokens]
  | loop b r _ ih =>
    have hnil : (loop b r).reverse.tokens = r.reverse.tokens ++ (loop b nil).tokens := ih (loop b nil)
    rw [reverseOnto, ih, hnil]
    simp [tokens]

theorem balanced_tokens (t : Tree) : Balanced t.tokens := by
  rw [← t.tokens_block]
  exact t.block.balanced_tokens

theorem tokens_injective {t u : Tree} (h : t.tokens = u.tokens) : t = u := by
  induction t generalizing u with
  | nil =>
    cases u with
    | nil => rfl
    | op => cases h
    | loop => cases h
  | op o r ih =>
    cases u with
    | nil => cases h
    | op o' r' =>
      simp only [tokens, List.cons.injEq, Token.op.injEq] at h
      rw [h.1, ih h.2]
    | loop => cases h
  | loop b r ihb ihr =>
    cases u with
    | nil => cases h
    | op => cases h
    | loop b' r' =>
      simp only [tokens, List.cons_append, List.cons.injEq, true_and] at h
      obtain ⟨hb, hr⟩ := b.balanced_tokens.append_closing_inj b'.balanced_tokens h
      rw [ihb hb, ihr hr]

/-- The tokens in front of the innermost open loop's body. -/
def opened : List Pending → List (Token Op)
  | [] => []
  | p :: outer => opened outer ++ p.before.reverse.tokens ++ [.opening]

/-- What was read so far and what is still to be read make up the tree. -/
theorem tokens_of_buildOnto {ts : List (Located Op)} {done t : Tree} {outer : List Pending}
    (h : buildOnto done outer ts = .ok t) :
    t.tokens = opened outer ++ done.reverse.tokens ++ ts.map Located.token := by
  fun_induction buildOnto done outer ts with
  | case1 done =>
    cases h
    simp [opened]
  | case2 => cases h
  | case3 done outer i o ts ih =>
    have hdone : (op o done).reverse.tokens = done.reverse.tokens ++ [.op o] :=
      tokens_reverseOnto done (op o nil)
    rw [ih h, hdone]
    simp
  | case4 done outer i ts ih =>
    rw [ih h, opened]
    simp [reverse, reverseOnto, tokens]
  | case5 => cases h
  | case6 done i ts p outer ih =>
    have hdone : (loop done.reverse p.before).reverse.tokens =
        p.before.reverse.tokens ++ (loop done.reverse nil).tokens :=
      tokens_reverseOnto p.before (loop done.reverse nil)
    rw [ih h, hdone, opened]
    simp [tokens]

theorem buildOnto_isOk_iff {ts : List (Located Op)} {done : Tree} {outer : List Pending} :
    (∃ t, buildOnto done outer ts = .ok t) ↔ closes outer.length (ts.map Located.token) = true := by
  fun_induction buildOnto done outer ts with
  | case1 => simp [closes]
  | case2 => simp [closes]
  | case3 _ _ _ _ _ ih => rw [ih]; rfl
  | case4 _ _ _ _ ih => rw [ih]; rfl
  | case5 => simp [closes]
  | case6 _ _ _ _ _ ih => rw [ih]; rfl

theorem ofLocated_isOk_iff {ts : List (Located Op)} :
    (∃ t, ofLocated ts = .ok t) ↔ Balanced (ts.map Located.token) :=
  buildOnto_isOk_iff.trans balanced_iff_closes.symm

/-- Building and printing are inverse to each other. -/
theorem ofLocated_eq_ok_iff {ts : List (Located Op)} {t : Tree} :
    ofLocated ts = .ok t ↔ t.tokens = ts.map Located.token := by
  constructor
  · intro h
    have ht := tokens_of_buildOnto h
    exact ht
  · intro h
    obtain ⟨u, hu⟩ := ofLocated_isOk_iff.mpr (h ▸ t.balanced_tokens)
    have htokens := tokens_of_buildOnto hu
    rw [hu, tokens_injective (h.trans htokens.symm)]

theorem map_token_ofSource (text : String) :
    ((Source.located text).map fun l => (⟨l.place, l.token.map .basic⟩ : Located Op)).map Located.token =
      (Source.commands text).map (Token.map Op.basic) := by
  rw [← Source.map_token_located, List.map_map, List.map_map]
  rfl

theorem ofSource_eq_ok_iff {text : String} {t : Tree} :
    ofSource text = .ok t ↔ t.tokens = (Source.commands text).map (Token.map .basic) := by
  rw [ofSource, ofLocated_eq_ok_iff, map_token_ofSource]

theorem ofSource_isOk_iff {text : String} :
    (∃ t, ofSource text = .ok t) ↔ Balanced (Source.commands text) := by
  rw [← balanced_map Op.basic, ← map_token_ofSource, ← ofLocated_isOk_iff]
  rfl

end Tree

end TapeMachine
