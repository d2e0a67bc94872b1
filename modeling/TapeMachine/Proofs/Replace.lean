import TapeMachine.Proofs.Fold
import TapeMachine.Proofs.Loop

namespace TapeMachine

open Meaning Block Idiom

/-- The loop would count past zero for ever: it is uniform, and no number of its rounds clears the cell. -/
def Endless (body : List (Token Op)) (t : Tape) : Prop :=
  ∃ n, Uniform body n ∧ ¬ Nat.gcd n 256 ∣ t.current.toNat

namespace Watch

def endless : Watch Op where
  op _ _ := False
  loop := Endless

def clearing : Watch Op where
  op o t := o = .clear ∧ t.current ≠ 0
  loop _ _ := False

theorem idle_clearing : clearing.Idle where
  basic _ _ h := by cases h.1
  zero _ _ hz h := h.2 hz
  loop _ _ h := h

end Watch

theorem uniform_ofOps {ops : List Op} {n : Nat} (h : Uniform (ofOps ops).tokens n) : Shape ops .clear := by
  obtain ⟨hn, b, hb, hops⟩ := h
  have hops' : ops.map Token.op = (List.replicate n (Op.basic b)).map Token.op := by
    rw [← tokens_ofOps, hops, List.map_replicate]
  rw [List.map_inj_right fun _ _ h => Token.op.inj h] at hops'
  rw [hops']
  exact .clear hb hn

/-- Only a clear replaces a loop that may not end. -/
theorem Idiom.Shape.eq_clear {ops : List Op} {o : Op} (h : Shape ops o) {t : Tape}
    (he : Endless (ofOps ops).tokens t) : o = .clear ∧ t.current ≠ 0 := by
  obtain ⟨n, hu, hd⟩ := he
  constructor
  · have hclear := ofOps?_eq_some_iff.mpr (uniform_ofOps hu)
    exact Option.some.inj ((ofOps?_eq_some_iff.mpr h).symm.trans hclear)
  · intro hz
    rw [hz] at hd
    exact hd (Nat.dvd_zero _)

section Forward

variable {away : Exit → Prop}

theorem refines_rounds {ops : List Op} {o : Op} (h : Shape ops o) (i j : Nat) :
    Refines (Exit.Alike Tape.OneMore) away (rounds ((ofOps ops).meaning Op.act .endless i))
      (instruction o.act (Watch.clearing.op o) j) := by
  have hu : ((ofOps ops).meaning Op.act .endless i).Unique := meaning_ofOps_unique ops (fun _ _ _ h => h) i
  cases h with
  | scan d hn =>
    exact ((matched_scan hn (.moves _ d _ i)).refines hu.rounds).mono fun _ _ =>
      Exit.Alike.mono fun _ _ => Tape.SameCells.oneMore
  | countFirst d hn => exact (matched_transfer hn (.countFirst _ d _ i)).refines hu.rounds
  | countLast d hn => exact (matched_transfer hn (.countLast _ d hn i)).refines hu.rounds
  | @clear b n hb =>
    obtain ⟨m, -, hA⟩ := Does.steps Tape.SameCells .endless hb n i
    constructor
    · intro r r' hr
      obtain ⟨hp, -⟩ := of_rounds_add hA hu hr
      cases hp
      exact .inl (.pass rfl)
    · intro r x hr
      obtain ⟨hp, -⟩ := of_rounds_add hA hu hr
      cases hp

theorem Block.Replaced.refines {s s' : Block Op} (h : Replaced s s') (i j : Nat) :
    Refines (Exit.Alike Tape.OneMore) away (s.meaning Op.act .endless i) (s'.meaning Op.act .clearing j) := by
  cases h with
  | same o =>
    rw [meaning_op_nil, meaning_op_nil]
    exact (Refines.instruction (ActAlike.idiomatic _ i j) fun _ => False.elim).mono fun _ _ =>
      Exit.Alike.mono fun _ _ h => Tape.SameCells.oneMore (congrArg Tape.cells h)
  | @idiom ops o hshape =>
    rw [meaning_loop_nil, meaning_op_nil]
    have hrounds : Refines (Exit.Alike Tape.OneMore) away _ _ := refines_rounds hshape (i + 1) j
    constructor
    · intro r r' ha
      cases ha with
      | run ha => exact hrounds.passed ha
    · intro r x ha
      cases ha with
      | met hm => exact ⟨.met ⟨j, r.tape⟩ r.io, .inl ⟨rfl, rfl⟩, .met (hshape.eq_clear hm)⟩
      | run ha => exact hrounds.left ha

end Forward

section Backward

theorem Matched.refines_watched {A B : Meaning} {like : Exit → Exit → Prop} {away : Exit → Prop} {seen : Tape → Prop}
    {i : Nat} (h : Matched like A B) (hB : B.Unique) : Refines (fun _ _ => True) away B (watched seen i A) := by
  have hr : Refines (fun y x => like x y) away B A := h.symm.refines hB
  constructor
  · intro r r' hb
    rcases hr.passed hb with ha | ⟨y, hy, ha⟩
    · exact .inl (.run ha)
    · exact .inr ⟨y, hy, .run ha⟩
  · intro r x hb
    obtain ⟨y, -, ha⟩ := hr.left hb
    exact ⟨y, .inl trivial, .run ha⟩

/-- Unless the loop would not end, it does what replaces it. -/
theorem refines_watched_rounds {ops : List Op} {o : Op} (h : Shape ops o) (i j : Nat) :
    Refines (fun _ _ => True) Exit.IsMet (instruction o.act (Watch.nothing.op o) j)
      (watched (Watch.endless.loop (ofOps ops).tokens) i (rounds ((ofOps ops).meaning Op.act .endless (i + 1)))) := by
  have hu : (instruction o.act (Watch.nothing.op o) j).Unique := instruction_unique fun _ h => h
  cases h with
  | scan d hn => exact (matched_scan hn (.moves _ d _ _)).refines_watched hu
  | countFirst d hn => exact (matched_transfer hn (.countFirst _ d _ _)).refines_watched hu
  | countLast d hn => exact (matched_transfer hn (.countLast _ d hn _)).refines_watched hu
  | @clear b n hb hn =>
    obtain ⟨m, hgcd, hA⟩ := Does.steps Tape.SameCells .endless hb n (i + 1)
    have hstep : ∀ r : Runtime, (Op.clear.act ⟨j, r.tape⟩).perform r.io = .resume ⟨j + 1, r.tape.set 0⟩ r.io :=
      fun _ => rfl
    constructor
    · intro r r' ha
      cases (instruction_of_resume (hstep r) id).mp ha
      by_cases hd : Nat.gcd n 256 ∣ r.tape.current.toNat
      · exact .inl (.run (rounds_add hA (hgcd ▸ hd)))
      · have huniform : Uniform (ofOps (List.replicate n (Op.basic b))).tokens n :=
          ⟨hn, b, hb, by rw [tokens_ofOps, List.map_replicate]⟩
        exact .inr ⟨.met ⟨i, r.tape⟩ r.io, trivial, .met ⟨n, huniform, hd⟩⟩
    · intro r x ha
      cases (instruction_of_resume (hstep r) id).mp ha

theorem Block.Replaced.refines_symm {s s' : Block Op} (h : Replaced s s') (i j : Nat) :
    Refines (fun _ _ => True) Exit.IsMet (s'.meaning Op.act .nothing j) (s.meaning Op.act .endless i) := by
  cases h with
  | same o =>
    rw [meaning_op_nil, meaning_op_nil]
    exact (Refines.instruction (ActAlike.idiomatic _ j i) fun _ h => h).mono fun _ _ _ => trivial
  | idiom hshape =>
    rw [meaning_loop_nil, meaning_op_nil]
    exact refines_watched_rounds hshape i j

end Backward

namespace Tree

/-- The program that is run of an optimised tree: its idioms replaced and its equal neighbours counted. -/
def program (t : Tree) : Block (Counted Op) :=
  t.optimise.block.fold

theorem tokens_program (t : Tree) : t.program.tokens = t.optimise.runs := by
  rw [program, tokens_fold, tokens_block, runs, print_eq_tokens]

theorem lower_optimise (t : Tree) : t.optimise.lower = t.program.tokens.map (Token.map Lowered.ofCounted) := by
  rw [tokens_program, lower]

theorem balanced_lower_optimise (t : Tree) : Balanced t.optimise.lower := by
  rw [lower_optimise]
  exact (balanced_map _ _).mpr t.program.balanced_tokens

/-- However the run of a tree is left, so is the run of its optimised program. -/
theorem leaves_program {t : Tree} {r : Runtime} {x : Exit} (h : t.block.Leaves Op.act .endless r x) :
    ∃ y, x.Alike Tape.OneMore y ∧ t.program.Leaves Counted.act Watch.clearing.counted r y := by
  have hreplace : Refines (Exit.Alike Tape.OneMore) Exit.none (t.block.meaning Op.act .endless 0)
      (t.replaceIdioms.block.meaning Op.act .clearing 0) := by
    refine t.related_replaceIdioms.refines (fun _ _ hs => hs.refines) ?_ (fun _ _ _ h => ⟨h, rfl⟩) 0 0
    intro c c' hk t h
    obtain ⟨n, hu, -⟩ := h
    exact absurd hu (hk n)
  have hfold : Refines (Exit.Alike Tape.SameCells) Exit.none (t.replaceIdioms.block.meaning Op.act .clearing 0)
      (t.replaceIdioms.block.fold.meaning Counted.act Watch.clearing.counted 0) :=
    (related_fold _).refines
      (fun _ _ hs => hs.refines Watch.idle_clearing) (fun _ _ _ _ h => h) (fun _ _ _ h => ⟨h, rfl⟩) 0 0
  have htotal : Refines (Exit.Alike Tape.OneMore) Exit.none _ _ := hreplace.trans hfold fun _ _ _ h h' =>
    h.trans h' fun _ _ _ => Tape.OneMore.trans_sameCells
  obtain ⟨y, hy | hy, hl⟩ := h.refine htotal .done
  · rw [program, optimise_eq_replaceIdioms]
    exact ⟨y, hy, hl⟩
  · exact hy.elim

/-- If the run of an optimised program ends, so does the run of the tree, unless it comes to a loop that would
not end. -/
theorem leaves_of_program {t : Tree} {r : Runtime} {y : Exit} (h : t.program.Leaves Counted.act .nothing r y) :
    ∃ x, t.block.Leaves Op.act .endless r x := by
  have hreplace : Refines (fun _ _ => True) Exit.IsMet (t.replaceIdioms.block.meaning Op.act .nothing 0)
      (t.block.meaning Op.act .endless 0) :=
    t.related_replaceIdioms.symm.refines (fun _ _ hs i j => hs.refines_symm j i) (fun _ _ _ _ h => h.elim)
      (fun _ _ _ _ => trivial) 0 0
  have hfold : Refines (fun _ _ => True) Exit.none (t.replaceIdioms.block.fold.meaning Counted.act .nothing 0)
      (t.replaceIdioms.block.meaning Op.act .nothing 0) :=
    (related_fold _).symm.refines
      (fun _ _ hs i j => (hs.refines_symm j i).mono fun _ _ _ => trivial) (fun _ _ _ _ h => h)
      (fun _ _ _ _ => trivial) 0 0
  rw [program, optimise_eq_replaceIdioms] at h
  have htotal := hfold.trans hreplace fun _ _ _ _ _ => trivial
  obtain ⟨x, -, hl⟩ := h.refine htotal fun _ _ _ _ => trivial
  exact ⟨x, hl⟩

end Tree

end TapeMachine
