import TapeMachine.Proofs.Jumps
import TapeMachine.Proofs.Printing
import TapeMachine.Proofs.Regroup
import TapeMachine.Proofs.Runs

namespace TapeMachine

section Expansion

variable {α : Type} {ts : List (Token (Counted α))} {b : Bracket} {i j m n : Nat}

theorem firstCommand_cons (t : Token (Counted α)) (ts : List (Token (Counted α))) (i : Nat) :
    firstCommand (t :: ts) (i + 1) = t.expand.length + firstCommand ts i := by
  rw [firstCommand, List.take_succ_cons, List.flatMap_cons, List.length_append, firstCommand]

/-- A bracket is not counted, so that it is an instruction of its own. -/
theorem exists_firstCommand_eq (h : (ts.flatMap Token.expand)[m]? = some (.bracket b)) :
    ∃ i, ts[i]? = some (.bracket b) ∧ firstCommand ts i = m := by
  induction ts generalizing m with
  | nil => cases h
  | cons t ts ih =>
    rw [List.flatMap_cons] at h
    rcases getElem?_append_cases h with hhere | ⟨k, rfl, hk⟩
    · cases t with
      | op r =>
        have hmem := List.eq_of_mem_replicate (List.mem_of_getElem? hhere)
        cases hmem
      | bracket b' =>
        cases m with
        | zero =>
          cases hhere
          exact ⟨0, rfl, rfl⟩
        | succ m => cases hhere
    · obtain ⟨i, hi, hfirst⟩ := ih hk
      exact ⟨i + 1, hi, by rw [firstCommand_cons, hfirst]⟩

/-- The loops of what is counted are the loops of the counted tokens. -/
theorem partners_expand_iff (hb : Balanced ts) : Partners (ts.flatMap Token.expand) m n ↔
    ∃ i j, Partners ts i j ∧ firstCommand ts i = m ∧ firstCommand ts j = n := by
  constructor
  · intro h
    obtain ⟨i, hi, hm⟩ := exists_firstCommand_eq h.2.1
    obtain ⟨j, hj⟩ := (hb.partnered hi).of_opening hi
    have hexpand := hj.expand
    rw [hm] at hexpand
    exact ⟨i, j, hj, hm, hexpand.unique h⟩
  · rintro ⟨i, j, hp, rfl, rfl⟩
    exact hp.expand

theorem Links.ifZero_iff {ts : List (Token α)} {code : Code α} (h : Links ts code) (hb : Balanced ts) :
    code[i]? = some (.ifZero j) ↔ Partners ts i j :=
  ⟨h.partners_of_ifZero hb, h.opening⟩

end Expansion

namespace Grouped

/-- The characters of the commands that the code stands for: an operation as often as it is counted, a jump as its
bracket. -/
def text (p : Program) : String :=
  String.ofList ((p.tokens.flatMap Token.expand).map Command.toChar)

/-- The code stands for the commands of the source text in their order, with every run counted in full. Its jumps hold
each other, and they are the brackets that are partners in the text. -/
structure Encodes (p : Program) (source : String) : Prop where
  text : text p = Source.stripped source
  count : ∀ {i : Nat} {r : Counted Basic}, p[i]? = some (.op r) → 0 < r.count
  apart : ∀ {i : Nat} {r s : Counted Basic}, p[i]? = some (.op r) → p[i + 1]? = some (.op s) → r.op ≠ s.op
  paired : Paired p
  loops : ∀ {m n : Nat}, Partners (Source.commands source) m n ↔
    ∃ i j, p[i]? = some (.ifZero j) ∧ firstCommand p.tokens i = m ∧ firstCommand p.tokens j = n

variable {source : String} {p : Program}

theorem tokens_of_ofCommands {cs : List Command} (h : ofCommands cs = .ok p) : p.tokens = foldRuns cs :=
  (links_of_link h).tokens_eq (balanced_of_link h)

theorem text_of_ofCommands (h : ofCommands (Source.commands source) = .ok p) : text p = Source.stripped source := by
  rw [text, tokens_of_ofCommands h, flatMap_expand_foldRuns, Source.stripped_eq]

theorem token_of_getElem? {i : Nat} {x : Instr (Counted Basic)} (h : p[i]? = some x) :
    p.tokens[i]? = some x.token := by
  rw [Code.getElem?_tokens, h]
  rfl

theorem encodes_of_ofCommands (h : ofCommands (Source.commands source) = .ok p) : Encodes p source := by
  have hlinks := links_of_link h
  have hb := balanced_of_link h
  have htokens := tokens_of_ofCommands h
  have hcanonical : Canonical p.tokens := htokens ▸ canonical_foldRuns _
  refine ⟨text_of_ofCommands h, ?_, ?_, hlinks.paired hb, ?_⟩
  · intro i r hi
    exact hcanonical.count_pos (List.mem_of_getElem? (token_of_getElem? hi))
  · intro i r s hi hs
    exact hcanonical.op_ne (token_of_getElem? hi) (token_of_getElem? hs)
  · intro m n
    have hexpand := partners_expand_iff (m := m) (n := n) hb
    rw [flatMap_expand_foldRuns] at hexpand
    simp only [hexpand, hlinks.ifZero_iff hb, htokens]

end Grouped

namespace Source

variable {text text' : String}

/-- Comments apart, texts are equal if their commands are. -/
theorem stripped_eq_iff : stripped text = stripped text' ↔ commands text = commands text' := by
  rw [stripped_eq, stripped_eq]
  constructor
  · intro h
    exact Command.map_toChar_injective (String.ofList_injective h)
  · intro h
    rw [h]

end Source

/-- A text whose brackets all have partners is encoded without loss, and in one way only: another text has the same
code exactly if it has the same command characters in the same order. -/
theorem grouping_encodes {text : String} (hb : Balanced (Source.commands text)) :
    (∃ p, Grouped.ofCommands (Source.commands text) = .ok p ∧ Grouped.Encodes p text) ∧
      ∀ text', Grouped.ofCommands (Source.commands text) = Grouped.ofCommands (Source.commands text') ↔
        Source.stripped text = Source.stripped text' := by
  obtain ⟨p, hp⟩ := link_of_balanced Counted.count (Block.balanced_foldRuns hb)
  refine ⟨⟨p, hp, Grouped.encodes_of_ofCommands hp⟩, fun text' => ⟨fun heq => ?_, fun heq => ?_⟩⟩
  · have hp' : Grouped.ofCommands (Source.commands text') = .ok p := heq.symm.trans hp
    rw [← Grouped.text_of_ofCommands hp, Grouped.text_of_ofCommands hp']
  · rw [Source.stripped_eq_iff.mp heq]

/-- A run between two brackets, and the same run where a comment is in the way. -/
theorem grouping_encodes_commented :
    Grouped.Encodes #[.ifZero 4, .ifZero 3, .op ⟨.move .backward, 3⟩, .ifNonzero 1, .ifNonzero 0, .op ⟨.write, 2⟩]
        "[[<<<]].." ∧
      Grouped.ofCommands (Source.commands "[[<<<]]..") = Grouped.ofCommands (Source.commands "[[<!<<]]. .") := by
  have hcode : Grouped.ofCommands (Source.commands "[[<<<]]..") =
      .ok #[.ifZero 4, .ifZero 3, .op ⟨.move .backward, 3⟩, .ifNonzero 1, .ifNonzero 0, .op ⟨.write, 2⟩] := rfl
  obtain ⟨⟨p, hp, hencodes⟩, hsame⟩ := @grouping_encodes "[[<<<]].." (by decide)
  cases hp.symm.trans hcode
  exact ⟨hencodes, (hsame "[[<!<<]]. .").mpr (by decide)⟩

end TapeMachine
