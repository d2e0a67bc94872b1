import TapeMachine.Proofs.Jumps
import TapeMachine.Proofs.Optimiser
import TapeMachine.Proofs.Runs
import TapeMachine.Proofs.Size

namespace TapeMachine

open Block Idiom

namespace Lowered

def op : Lowered → Op
  | counted b _ => .basic b
  | clear => .clear
  | scan _ d n => .scan d n
  | transfer _ d n => .transfer d n

/-- A clear has no count and is done once. -/
def count : Lowered → Nat
  | counted _ n => n
  | clear => 1
  | scan n _ _ => n
  | transfer n _ _ => n

def ops (o : Lowered) : List Op :=
  List.replicate o.count o.op

theorem op_ofCounted (r : Counted Op) : (ofCounted r).op = r.op := by
  obtain ⟨o, n⟩ := r
  cases o <;> rfl

theorem count_ofCounted {r : Counted Op} (h : r.op ≠ .clear) : (ofCounted r).count = r.count := by
  obtain ⟨o, n⟩ := r
  cases o with
  | clear => exact absurd rfl h
  | _ => rfl

theorem count_ofCounted_clear {r : Counted Op} (h : r.op = .clear) : (ofCounted r).count = 1 := by
  obtain ⟨o, n⟩ := r
  cases h
  rfl

theorem count_ofCounted_pos {r : Counted Op} (h : 0 < r.count) : 0 < (ofCounted r).count := by
  by_cases hr : r.op = .clear
  · rw [count_ofCounted_clear hr]
    exact Nat.one_pos
  · rw [count_ofCounted hr]
    exact h

end Lowered

/-- Idioms reach another cell. -/
def Op.Proper : Op → Prop
  | scan _ n => 0 < n
  | transfer _ n => 0 < n
  | _ => True

/-- Lowered code in which nothing is done zero times, no idiom stays where it is and no instruction could be joined
with the one behind it. -/
structure Tight (p : Idiomatic.Program) : Prop where
  count : ∀ {i : Nat} {o : Lowered}, p[i]? = some (.op o) → 0 < o.count
  proper : ∀ {i : Nat} {o : Lowered}, p[i]? = some (.op o) → o.op.Proper
  apart : ∀ {i : Nat} {o o' : Lowered}, p[i]? = some (.op o) → p[i + 1]? = some (.op o') → o.op ≠ o'.op

section Clears

variable {t : Token Op} {ts : List (Token Op)}

/-- Leaves one of several clears in a row. -/
def mergeClears : List (Token Op) → List (Token Op)
  | [] => []
  | t :: ts =>
    if t = .op .clear ∧ ts.head? = some (.op .clear) then mergeClears ts else t :: mergeClears ts

theorem mergeClears_cons (h : t ≠ .op .clear ∨ ts.head? ≠ some (.op .clear)) :
    mergeClears (t :: ts) = t :: mergeClears ts := by
  rw [mergeClears, if_neg]
  rintro ⟨ht, hts⟩
  rcases h with h | h
  · exact h ht
  · exact h hts

theorem mergeClears_replicate (h : t ≠ .op .clear) (n : Nat) :
    mergeClears (List.replicate n t ++ ts) = List.replicate n t ++ mergeClears ts := by
  induction n with
  | zero => rfl
  | succ n ih => rw [List.replicate_succ, List.cons_append, mergeClears_cons (.inl h), ih, List.cons_append]

theorem mergeClears_clears (h : ts.head? ≠ some (.op .clear)) (n : Nat) :
    mergeClears (List.replicate (n + 1) (.op .clear) ++ ts) = .op .clear :: mergeClears ts := by
  induction n with
  | zero => exact mergeClears_cons (.inr h)
  | succ n ih =>
    have hhead : (List.replicate (n + 1) (Token.op Op.clear) ++ ts).head? = some (.op .clear) := by
      rw [List.replicate_succ, List.cons_append, List.head?_cons]
    rw [List.replicate_succ, List.cons_append, mergeClears, if_pos ⟨rfl, hhead⟩, ih]

/-- Lowered runs stand for what the runs stand for, but for clears that are done again. -/
theorem Canonical.flatMap_lowered {rs : List (Token (Counted Op))} (h : Canonical rs) :
    (rs.map (Token.map Lowered.ofCounted)).flatMap (bindToken Lowered.ops) = mergeClears (rs.flatMap Token.expand) := by
  induction h with
  | nil => rfl
  | @bracket b rs _ ih =>
    rw [List.map_cons, List.flatMap_cons, ih, List.flatMap_cons, Token.expand, List.singleton_append,
      mergeClears_cons (.inl (by simp))]
    rfl
  | @run r rs hpos hhead hrs ih =>
    have hrest : (rs.flatMap Token.expand).head? ≠ some (.op r.op) := by
      intro heq
      obtain ⟨n, hn⟩ := hrs.head?_flatMap_expand heq
      exact hhead n hn
    rw [List.map_cons, List.flatMap_cons, ih, List.flatMap_cons, Token.expand, Token.map, bindToken, Lowered.ops,
      List.map_replicate, Lowered.op_ofCounted]
    by_cases hclear : r.op = .clear
    · obtain ⟨n, hn⟩ := Nat.exists_eq_succ_of_ne_zero (Nat.ne_of_gt hpos)
      rw [hclear] at hrest
      rw [Lowered.count_ofCounted_clear hclear, hclear, hn, mergeClears_clears hrest]
      rfl
    · rw [Lowered.count_ofCounted hclear, mergeClears_replicate (by simpa using hclear)]

end Clears

section Tree

variable {t : Tree}

theorem Tree.runs_eq (t : Tree) : t.runs = foldRuns t.tokens := by
  rw [Tree.runs, Tree.print_eq_tokens]

theorem Tree.flatMap_lower (t : Tree) : t.lower.flatMap (bindToken Lowered.ops) = mergeClears t.tokens := by
  rw [Tree.lower, Tree.runs_eq, (canonical_foldRuns t.tokens).flatMap_lowered, flatMap_expand_foldRuns]

theorem Tree.exists_run_of_lower {i : Nat} {o : Lowered} (h : t.lower[i]? = some (.op o)) :
    ∃ r, (foldRuns t.tokens)[i]? = some (.op r) ∧ o = Lowered.ofCounted r := by
  rw [Tree.lower, List.getElem?_map, Tree.runs_eq, Option.map_eq_some_iff] at h
  obtain ⟨c, hc, hco⟩ := h
  cases c with
  | op r =>
    cases hco
    exact ⟨r, hc, rfl⟩
  | bracket => cases hco

theorem Idiom.Shape.proper {ops : List Op} {o : Op} (h : Shape ops o) : o.Proper := by
  cases h with
  | scan _ hn => exact hn
  | clear => trivial
  | countFirst _ hn => exact hn
  | countLast _ hn => exact hn

theorem Tree.proper_optimise (h : ∀ o, .op o ∈ t.tokens → o.Proper) {o : Op} (ho : .op o ∈ t.optimise.tokens) :
    o.Proper := by
  rw [optimise_eq_replaceIdioms] at ho
  rcases op_replaceIdioms_cases ho with hmem | ⟨ops, hshape, -⟩
  · exact h o hmem
  · exact hshape.proper

theorem Tree.lowerWithin?_eq_some {limit : Nat}
    (h : ∀ o n, List.replicate n (.op o) <:+: t.tokens → n ≤ limit) : t.lowerWithin? limit = some t.lower := by
  rw [Tree.lowerWithin?, if_pos]
  · rfl
  · rw [Tree.runs_eq]
    exact Tree.countsWithin_iff.mpr (count_le_iff.mpr h)

theorem Tree.lowerWithin?_eq_none {limit n : Nat} {o : Op} (h : List.replicate n (.op o) <:+: t.tokens)
    (hn : limit < n) : t.lowerWithin? limit = none := by
  rw [Tree.lowerWithin?, if_neg]
  rw [Tree.runs_eq, Tree.countsWithin_iff, count_le_iff]
  intro hall
  have hle := hall o n h
  omega

theorem Tree.ofSource_replicate (n : Nat) : Tree.ofSource (String.ofList (List.replicate n '+')) =
    .ok (straight (List.replicate n (.basic .increment))) := by
  have hcommand : Command.ofChar? '+' = some (.op .increment) := rfl
  rw [ofSource_eq_ok_iff, ← tokens_block, block_straight, tokens_ofOps, Source.commands, String.toList_ofList,
    List.filterMap_replicate_of_some hcommand, List.map_replicate, List.map_replicate]
  rfl

end Tree

section Source

variable {text : String} {t : Tree} (ht : Tree.ofSource text = .ok t)

include ht

theorem tight_of_tokens {p : Idiomatic.Program} (hp : p.tokens = t.optimise.lower) : Tight p := by
  have exists_run : ∀ {i : Nat} {o : Lowered}, p[i]? = some (.op o) →
      ∃ r, (foldRuns t.optimise.tokens)[i]? = some (.op r) ∧ o = Lowered.ofCounted r := by
    intro i o hi
    apply Tree.exists_run_of_lower
    rw [← hp, Code.getElem?_tokens, hi]
    rfl
  have hcanonical := canonical_foldRuns t.optimise.tokens
  constructor
  · intro i o hi
    obtain ⟨r, hr, rfl⟩ := exists_run hi
    exact Lowered.count_ofCounted_pos (hcanonical.count_pos (List.mem_of_getElem? hr))
  · intro i o hi
    obtain ⟨r, hr, rfl⟩ := exists_run hi
    rw [Lowered.op_ofCounted]
    have hmem := hcanonical.op_mem_expand (List.mem_of_getElem? hr)
    rw [flatMap_expand_foldRuns] at hmem
    refine Tree.proper_optimise (fun o ho => ?_) hmem
    obtain ⟨b, rfl⟩ := Tree.exists_basic ht ho
    trivial
  · intro i o o' hi hi'
    obtain ⟨r, hr, rfl⟩ := exists_run hi
    obtain ⟨r', hr', rfl⟩ := exists_run hi'
    rw [Lowered.op_ofCounted, Lowered.op_ofCounted]
    exact hcanonical.op_ne hr hr'

/-- Lowering for the interpreter and for the compiler. The interpreter's code is paired and tight and stands for the
optimised tree, with several clears in a row done once. The compiler's program is the same without the destinations
if no stretch of equal operations is longer than what 32 bits hold, and is refused otherwise. -/
theorem lowerings_agree :
    ∃ p, Idiomatic.ofSource text = .ok p ∧ Paired p ∧ Tight p ∧
      p.tokens.flatMap (bindToken Lowered.ops) = mergeClears t.optimise.tokens ∧
      ((∀ o n, List.replicate n (.op o) <:+: t.optimise.tokens → n ≤ maxAmount) →
        Native.loweredSource text = .ok p.tokens) ∧
      ∀ o n, List.replicate n (.op o) <:+: t.optimise.tokens → maxAmount < n →
        Native.loweredSource text = .error .offsetTooLarge := by
  obtain ⟨p, hp, hlinks⟩ := exists_idiomatic ht
  have hb := t.balanced_lower_optimise
  have htokens := hlinks.tokens_eq hb
  refine ⟨p, hp, hlinks.paired hb, tight_of_tokens ht htokens, ?_, ?_, ?_⟩
  · rw [htokens, Tree.flatMap_lower]
  · intro hshort
    simp only [Native.loweredSource, ht, Tree.lowerWithin?_eq_some hshort, htokens]
  · intro o n hlong hn
    simp only [Native.loweredSource, ht, Tree.lowerWithin?_eq_none hlong hn]

end Source

theorem lowerings_agree_nested :
    (∃ p, Idiomatic.ofSource "[-][-]>>[.[>]]" = .ok p ∧ Paired p ∧ Tight p ∧
      p.tokens.flatMap (bindToken Lowered.ops) =
        [.op .clear, .op (moveOp .forward), .op (moveOp .forward), .opening, .op (.basic .write),
          .op (.scan .forward 1), .closing] ∧
      Native.loweredSource "[-][-]>>[.[>]]" = .ok p.tokens) ∧
      ∀ n, maxAmount < n →
        Native.loweredSource (String.ofList (List.replicate n '+')) = .error .offsetTooLarge := by
  constructor
  · have hsource : Tree.ofSource "[-][-]>>[.[>]]" = .ok (.loop (.op (.basic .decrement) .nil)
        (.loop (.op (.basic .decrement) .nil) (.op (moveOp .forward) (.op (moveOp .forward)
          (.loop (.op (.basic .write) (.loop (.op (moveOp .forward) .nil) .nil)) .nil))))) :=
      Tree.ofSource_eq_ok_iff.mpr rfl
    obtain ⟨p, hp, hpaired, htight, hexpand, hshort, -⟩ := lowerings_agree hsource
    rw [Tree.optimise_eq_replaceIdioms] at hexpand hshort
    refine ⟨p, hp, hpaired, htight, hexpand, hshort fun o n hin => ?_⟩
    have hlen := hin.length_le
    rw [List.length_replicate] at hlen
    exact Nat.le_trans hlen (by decide)
  · intro n hn
    obtain ⟨-, -, -, -, -, -, hlong⟩ := lowerings_agree (Tree.ofSource_replicate n)
    have htokens : (Tree.straight (List.replicate n (.basic .increment))).optimise.tokens =
        List.replicate n (.op (.basic .increment)) := by
      rw [Tree.optimise_eq_replaceIdioms, Tree.replaceIdioms_of_block_eq (Tree.block_straight _), ← Tree.tokens_block,
        Tree.block_straight, tokens_ofOps, List.map_replicate]
    refine hlong (.basic .increment) n ?_ hn
    exact htokens ▸ List.infix_rfl

end TapeMachine
