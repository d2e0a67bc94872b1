import TapeMachine.Proofs.Checker
import TapeMachine.Proofs.Parse

namespace TapeMachine

/-- The characters that are commands. -/
def Command.characters : List Char :=
  ['>', '<', '+', '-', ',', '.', '[', ']']

def Source.stripped (text : String) : String :=
  String.ofList (text.toList.filter (· ∈ Command.characters))

namespace Tree

/-- Trees of basic commands and loops, without idioms. -/
inductive Plain : Tree → Prop where
  | nil : Plain nil
  | op (b : Basic) {r : Tree} : Plain r → Plain (op (.basic b) r)
  | loop {b r : Tree} : Plain b → Plain r → Plain (loop b r)

/-- The characters of a tree. Idioms have none. -/
def characters : Tree → List Char
  | nil => []
  | op (.basic b) r => b.toChar :: r.characters
  | op _ r => r.characters
  | loop b r => '[' :: b.characters ++ ']' :: r.characters

def text (t : Tree) : String :=
  String.ofList t.characters

end Tree

section Characters

variable {c : Char} {cs : List Char} {k : Command}

theorem Command.toChar_mem (k : Command) : k.toChar ∈ characters := by
  rcases k with b | b
  · rcases b with d | _ | _ | _ | _
    · cases d <;> decide
    all_goals decide
  · cases b <;> decide

theorem Command.ofChar?_eq_none_iff : ofChar? c = none ↔ c ∉ characters := by
  constructor
  · intro h hmem
    simp only [characters, List.mem_cons, List.not_mem_nil, or_false] at hmem
    rcases hmem with rfl | rfl | rfl | rfl | rfl | rfl | rfl | rfl <;> cases h
  · intro h
    cases hc : ofChar? c with
    | none => rfl
    | some k =>
      have hk := k.toChar_mem
      rw [toChar_of_ofChar? hc] at hk
      exact absurd hk h

theorem Command.toChar_injective {k k' : Command} (h : k.toChar = k'.toChar) : k = k' := by
  have hk := ofChar?_toChar k
  rw [h, ofChar?_toChar] at hk
  exact (Option.some.inj hk).symm

theorem Command.map_toChar_injective {ks ls : List Command} (h : ks.map toChar = ls.map toChar) : ks = ls :=
  (List.map_inj_right fun _ _ => toChar_injective).mp h

theorem map_toChar_filterMap (cs : List Char) :
    (cs.filterMap Command.ofChar?).map Command.toChar = cs.filter (· ∈ Command.characters) := by
  induction cs with
  | nil => rfl
  | cons c cs ih =>
    cases hc : Command.ofChar? c with
    | none =>
      have hmem := Command.ofChar?_eq_none_iff.mp hc
      rw [List.filterMap_cons_none hc, ih, List.filter_cons_of_neg (by simpa using hmem)]
    | some k =>
      have hk := Command.toChar_of_ofChar? hc
      have hmem : c ∈ Command.characters := hk ▸ k.toChar_mem
      rw [List.filterMap_cons_some hc, List.map_cons, ih, hk, List.filter_cons_of_pos (by simpa using hmem)]

theorem Source.stripped_eq (text : String) :
    stripped text = String.ofList ((commands text).map Command.toChar) := by
  rw [commands, map_toChar_filterMap, stripped]

end Characters

namespace Tree

variable {t : Tree} {ks : List Command}

theorem Plain.exists_commands (h : t.Plain) : ∃ ks : List Command, t.tokens = ks.map (Token.map .basic) := by
  induction h with
  | nil => exact ⟨[], rfl⟩
  | op b _ ih =>
    obtain ⟨ks, hks⟩ := ih
    exact ⟨.op b :: ks, by rw [tokens, hks]; rfl⟩
  | loop _ _ ihb ihr =>
    obtain ⟨ks, hks⟩ := ihb
    obtain ⟨ls, hls⟩ := ihr
    exact ⟨.opening :: ks ++ .closing :: ls, by rw [tokens, hks, hls]; simp [Token.map]⟩

theorem plain_of_tokens (h : t.tokens = ks.map (Token.map .basic)) :
    t.Plain ∧ t.characters = ks.map Command.toChar := by
  induction t generalizing ks with
  | nil =>
    have hks : ks = [] := List.map_eq_nil_iff.mp h.symm
    rw [hks]
    exact ⟨.nil, rfl⟩
  | op o r ih =>
    obtain ⟨k, ls, rfl, hk, hls⟩ := List.map_eq_cons_iff.mp h.symm
    cases k with
    | bracket => cases hk
    | op b =>
      cases hk
      obtain ⟨hplain, hchars⟩ := ih hls.symm
      exact ⟨.op b hplain, by rw [characters, hchars]; rfl⟩
  | loop b r ihb ihr =>
    obtain ⟨k, ls, rfl, hk, hls⟩ := List.map_eq_cons_iff.mp h.symm
    obtain ⟨bs, ls, rfl, hbs, hls⟩ := List.map_eq_append_iff.mp hls
    obtain ⟨k', rs, rfl, hk', hrs⟩ := List.map_eq_cons_iff.mp hls
    cases k with
    | op => cases hk
    | bracket =>
      cases k' with
      | op => cases hk'
      | bracket =>
        cases hk
        cases hk'
        obtain ⟨hplain, hchars⟩ := ihb hbs.symm
        obtain ⟨hplain', hchars'⟩ := ihr hrs.symm
        refine ⟨.loop hplain hplain', ?_⟩
        rw [characters, hchars, hchars', List.map_cons, List.map_append, List.map_cons]
        rfl

theorem plain_of_source {text : String} (h : ofSource text = .ok t) : t.Plain ∧ t.text = Source.stripped text := by
  obtain ⟨hplain, hchars⟩ := plain_of_tokens (ofSource_eq_ok_iff.mp h)
  exact ⟨hplain, by rw [Tree.text, hchars, Source.stripped_eq]⟩

theorem Plain.ofSource_eq {text : String} (h : t.Plain) (htext : Source.stripped text = t.text) :
    ofSource text = .ok t := by
  obtain ⟨ks, hks⟩ := h.exists_commands
  obtain ⟨-, hchars⟩ := plain_of_tokens hks
  rw [Source.stripped_eq, Tree.text, hchars] at htext
  have hcommands := Command.map_toChar_injective (String.ofList_injective htext)
  rw [ofSource_eq_ok_iff, hcommands, hks]

/-- There are no comments in what a tree is printed as. -/
theorem Plain.stripped_text (h : t.Plain) : Source.stripped t.text = t.text := by
  obtain ⟨ks, hks⟩ := h.exists_commands
  obtain ⟨-, hchars⟩ := plain_of_tokens hks
  rw [Source.stripped, Tree.text, String.toList_ofList, hchars, List.filter_eq_self.mpr]
  intro c hc
  obtain ⟨k, -, rfl⟩ := List.mem_map.mp hc
  exact decide_eq_true k.toChar_mem

end Tree

/-- Reading and printing are inverse to each other. A text is read if all its brackets have partners; the tree is
printed as the text without its comments; every plain tree is read back from every text that it is the printed form
of, up to comments; so texts make equal trees if they differ in comments only. -/
theorem reading_inverts_printing :
    (∀ text, (∃ t, Tree.ofSource text = .ok t) ↔ ∀ b i, ¬ Lone (Source.commands text) b i) ∧
      (∀ text t, Tree.ofSource text = .ok t → t.Plain ∧ t.text = Source.stripped text) ∧
      (∀ t : Tree, t.Plain → Tree.ofSource t.text = .ok t ∧
        ∀ text, Source.stripped text = t.text → Tree.ofSource text = .ok t) ∧
      ∀ text text' t t', Tree.ofSource text = .ok t → Tree.ofSource text' = .ok t' →
        (t = t' ↔ Source.stripped text = Source.stripped text') := by
  refine ⟨?_, fun text t => Tree.plain_of_source, ?_, ?_⟩
  · intro text
    rw [Tree.ofSource_isOk_iff, balanced_iff_not_lone]
  · intro t ht
    exact ⟨ht.ofSource_eq ht.stripped_text, fun text => ht.ofSource_eq⟩
  · intro text text' t t' h h'
    obtain ⟨hplain, htext⟩ := Tree.plain_of_source h
    obtain ⟨-, htext'⟩ := Tree.plain_of_source h'
    constructor
    · rintro rfl
      exact htext.symm.trans htext'
    · intro heq
      have hread := hplain.ofSource_eq (heq.symm.trans htext.symm)
      exact Except.ok.inj (hread.symm.trans h')

theorem reading_inverts_printing_commented :
    Tree.ofSource "count down: [ - ] then [ , [ . ] ]" =
      .ok (.loop (.op (.basic .decrement) .nil)
        (.loop (.op (.basic .read) (.loop (.op (.basic .write) .nil) .nil)) .nil)) := by
  obtain ⟨-, -, hplain, -⟩ := reading_inverts_printing
  refine (hplain _ ?_).2 _ (by decide)
  exact .loop (.op .decrement .nil) (.loop (.op .read (.loop (.op .write .nil) .nil)) .nil)

end TapeMachine
