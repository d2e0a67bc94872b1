import TapeMachine.Proofs.Checker
import TapeMachine.Proofs.Lockstep
import TapeMachine.Proofs.Session

namespace TapeMachine

open Source

/-- The text is refused, and the streams are left as they are. -/
structure Engine.Rejects (e : Engine) (target : Target) (text : String) (f : Failure) : Prop where
  prepare : e.prepare target text = .error f
  finishes : ∀ io x, e.Finishes target text io x ↔ x = ⟨.failed f, .start .blank, io⟩

theorem Engine.rejects_of_prepare {e : Engine} {target : Target} {text : String} {f : Failure}
    (h : e.prepare target text = .error f) : e.Rejects target text f := by
  refine ⟨h, fun io x => ?_⟩
  simp only [Finishes, run?_of_error h, Option.some.injEq, exists_const, eq_comm]

/-- The engines reject the text for brackets of one kind: those that count commands for the one at command `n`, those
that build a tree for the one at byte `p`. Only the plain compiler opens the assembler before it looks at brackets. -/
structure Rejected (target : Target) (text : String) (b : Bracket) (n p : Nat) : Prop where
  tabled : Engine.tabled.Rejects target text (.unmatchedCommand ⟨b, n⟩)
  grouped : Engine.grouped.Rejects target text (.unmatchedCommand ⟨b, n⟩)
  plainNative : target.assembler.openError? = none → Engine.plainNative.Rejects target text (.unmatchedEmitted ⟨b, n⟩)
  idiomatic : Engine.idiomatic.Rejects target text (.unmatchedSource ⟨b, p⟩)
  idiomaticNative : Engine.idiomaticNative.Rejects target text (.unmatchedSource ⟨b, p⟩)

section Text

variable {target : Target} {text : String} {b : Bracket} {n p : Nat}

theorem rejected_of_errors (hlink : link (fun _ => 1) (commands text) = .error ⟨b, n⟩)
    (hfold : link Counted.count (foldRuns (commands text)) = .error ⟨b, n⟩)
    (hplain : target.assembler.openError? = none →
      Native.compilePlain target.assembler (commands text) = .error (.unmatchedEmitted ⟨b, n⟩))
    (htree : Tree.ofSource text = .error ⟨b, p⟩) : Rejected target text b n p := by
  refine ⟨?_, ?_, fun ha => ?_, ?_, ?_⟩ <;> apply Engine.rejects_of_prepare
  · simp only [Engine.prepare, Engine.load, TabledProgram.ofCommands, TabledProgram.jumpTable, hlink]
    rfl
  · simp only [Engine.prepare, Engine.load, Grouped.ofCommands, hfold]
    rfl
  · simp only [Native.prepare_plainNative, Native.plain, Native.plainSource, hplain ha]
    rfl
  · simp only [Engine.prepare, Engine.load, Idiomatic.ofSource, Tree.lowerSource, htree]
    rfl
  · simp only [Native.prepare_idiomaticNative, Native.optimised, Native.loweredSource, htree]
    rfl

/-- The folded commands are checked like the commands themselves. -/
theorem openPlaces_foldRuns (cs : List Command) :
    openPlaces [] (locate Counted.count 0 (foldRuns cs)) = openPlaces [] (locate single 0 cs) := by
  rw [openPlaces_locate_count, flatMap_expand_foldRuns]

theorem Tree.ofSource_of_error (h : openPlaces [] (located text) = .error p) :
    ofSource text = .error ⟨.closing, p⟩ :=
  buildOnto_of_error ((openPlaces_map Op.basic [] (located text)).trans h)

theorem Tree.ofSource_of_open {ps : List Nat} (h : openPlaces [] (located text) = .ok (p :: ps)) :
    ofSource text = .error ⟨.opening, p⟩ :=
  buildOnto_of_open ((openPlaces_map Op.basic [] (located text)).trans h)

theorem rejected_closing (target : Target) {i : Nat} (h : Lone (commands text) .closing i) :
    ∃ n p, IsFirst (Lone (commands text) .closing) n ∧ CommandAt text n p ∧ Rejected target text .closing n p := by
  rcases openPlaces_cases (commands text) with ⟨n, hn, hplaces⟩ | ⟨is, his, -⟩
  · have hlt := (List.getElem?_eq_some_iff.mp hn.1.1).1
    have hindex := hplaces _ (map_token_locate single 0 _)
    rw [placeAt_locate_single hlt, Nat.zero_add] at hindex
    have htree := Tree.ofSource_of_error (hplaces _ (map_token_located text))
    exact ⟨n, _, hn, commandAt_placeAt hlt, rejected_of_errors (link_of_error hindex)
      (link_of_error (openPlaces_foldRuns _ ▸ hindex)) (fun ha => Native.compilePlain_of_error ha hindex) htree⟩
  · cases (his.lone_iff.mp h).1

theorem rejected_opening (target : Target) (hclosing : ∀ i, ¬ Lone (commands text) .closing i) {i : Nat}
    (h : Lone (commands text) .opening i) :
    ∃ n m p, IsFirst (Lone (commands text) .opening) n ∧ IsLast (Lone (commands text) .opening) m ∧
      CommandAt text m p ∧ Rejected target text .opening n p := by
  rcases openPlaces_cases (commands text) with ⟨n, hn, -⟩ | ⟨is, his, hplaces⟩
  · exact absurd hn.1 (hclosing n)
  · have hi := (his.lone_iff.mp h).2
    have hindex := hplaces _ (map_token_locate single 0 _)
    have hself : is.map (placeAt (locate single 0 (commands text))) = is.map id := by
      apply List.map_congr_left
      intro k hk
      rw [placeAt_locate_single (his.lt_length hk), Nat.zero_add, id]
    rw [hself, List.map_id] at hindex
    obtain ⟨n, hn⟩ := Option.isSome_iff_exists.mp (List.getLast?_isSome.mpr (List.ne_nil_of_mem hi))
    cases is with
    | nil => cases hi
    | cons m is =>
      have htree := Tree.ofSource_of_open (hplaces _ (map_token_located text))
      exact ⟨n, m, _, his.isFirst_getLast hn, his.isLast_head,
        commandAt_placeAt (his.lt_length List.mem_cons_self), rejected_of_errors (link_of_open hindex hn)
        (link_of_open (openPlaces_foldRuns _ ▸ hindex) hn) (fun ha => Native.compilePlain_of_open ha hindex hn) htree⟩

end Text

/-- A text whose brackets all have partners is accepted, and compiled if the assembler takes code that is not longer.
Otherwise it is rejected before anything is read or written: for the first closing bracket without a partner, or else for an
opening one without a partner, the first one where commands are counted, the last one where a tree is built. -/
theorem brackets_checked (target : Target) (text : String) :
    ((∀ b i, ¬ Lone (commands text) b i) →
      (∃ p, TabledProgram.ofCommands (commands text) = .ok p) ∧ (∃ p, Grouped.ofCommands (commands text) = .ok p) ∧
      (∃ p, Idiomatic.ofSource text = .ok p) ∧
      (text.length ≤ maxOffset → (∃ ts, Native.loweredSource text = .ok ts) ∧
        (target.assembler.Takes text.length → ∃ code, Native.plain target.assembler text = .ok code))) ∧
    ((∃ i, Lone (commands text) .closing i) →
      ∃ n p, IsFirst (Lone (commands text) .closing) n ∧ CommandAt text n p ∧ Rejected target text .closing n p) ∧
    ((∀ i, ¬ Lone (commands text) .closing i) → (∃ i, Lone (commands text) .opening i) →
      ∃ n m p, IsFirst (Lone (commands text) .opening) n ∧ IsLast (Lone (commands text) .opening) m ∧
        CommandAt text m p ∧ Rejected target text .opening n p) ∧
    ∀ n, (Failure.unmatchedCommand ⟨.opening, n⟩).message = s!"unmatched '[' at pc={n}" ∧
      (Failure.unmatchedEmitted ⟨.opening, n⟩).message = s!"Unmatched opening '[' at position {n}." ∧
      (Failure.unmatchedSource ⟨.opening, n⟩).message = s!"Unmatched '[' at index {n}." := by
  refine ⟨?_, fun ⟨i, hi⟩ => rejected_closing target hi, fun hclosing ⟨i, hi⟩ => rejected_opening target hclosing hi,
    fun n => ⟨rfl, rfl, rfl⟩⟩
  intro h
  have hb := balanced_iff_not_lone.mpr h
  obtain ⟨t, ht⟩ := Tree.ofSource_isOk_iff.mpr hb
  obtain ⟨p, hp, -⟩ := exists_idiomatic ht
  refine ⟨TabledProgram.ofCommands_of_balanced hb, link_of_balanced _ (Block.balanced_foldRuns hb), ⟨p, hp⟩, ?_⟩
  intro hlen
  refine ⟨⟨_, Native.loweredSource_eq ht hlen⟩, fun htakes => ?_⟩
  exact (Native.compilePlain_isOk_iff (htakes.mono (Source.length_commands_le text))).mpr hb

/-- Two brackets stay open, behind a character of two bytes. -/
theorem brackets_checked_two : ∃ n m p, IsFirst (Lone (commands "é[+[") .opening) n ∧
    IsLast (Lone (commands "é[+[") .opening) m ∧ CommandAt "é[+[" m p ∧ Rejected .standard "é[+[" .opening n p ∧
    n = 0 ∧ m = 2 ∧ p = 4 := by
  have hopens : Opens (commands "é[+[") [2, 0] := by
    have hfirst : Opens ([] ++ .opening :: [.op Basic.increment]) [0] :=
      .opening (.balanced .nil) (.op _ .nil)
    exact hfirst.snoc_opening
  have hopening : ∀ k, Lone (commands "é[+[") .opening k ↔ k = 2 ∨ k = 0 := by
    intro k
    rw [hopens.lone_iff]
    simp
  obtain ⟨-, -, hreport, -⟩ := brackets_checked .standard "é[+["
  obtain ⟨n, m, p, hn, hm, hp, hrejected⟩ := hreport (fun i hi => by cases (hopens.lone_iff.mp hi).1)
    ⟨0, (hopening 0).mpr (.inr rfl)⟩
  have hn0 : n = 0 := Nat.le_zero.mp (hn.2 0 ((hopening 0).mpr (.inr rfl)))
  have hm2 : m = 2 := by
    have hle := hm.2 2 ((hopening 2).mpr (.inl rfl))
    have hmem := (hopening m).mp hm.1
    omega
  have hp4 : Failure.unmatchedSource ⟨.opening, 4⟩ = .unmatchedSource ⟨.opening, p⟩ := by
    have h : Engine.idiomatic.prepare .standard "é[+[" = .error (.unmatchedSource ⟨.opening, 4⟩) := rfl
    exact Except.error.inj (h.symm.trans hrejected.idiomatic.prepare)
  cases hp4
  exact ⟨n, m, 4, hn, hm, hp, hrejected, hn0, hm2, rfl⟩

end TapeMachine
