import TapeMachine.Counted
import TapeMachine.Proofs.Repeat

namespace TapeMachine

section Structure

variable {α : Type} [DecidableEq α]

theorem toList_foldOnto (done : Array (Token (Counted α))) (run : Option (Counted α)) (ts : List (Token α)) :
    (foldOnto done run ts).toList = done.toList ++ (foldOnto #[] run ts).toList := by
  have append : ∀ (xs : List (Token (Counted α))) (done : Array (Token (Counted α))) (run : Option (Counted α)),
      (foldOnto (xs.toArray ++ done) run ts).toList = xs ++ (foldOnto done run ts).toList := by
    intro xs done run
    fun_induction foldOnto done run ts with
    | case1 => simp [foldOnto]
    | case2 => simp [foldOnto]
    | case3 _ _ _ ih => rw [foldOnto, ih]
    | case4 _ _ _ ih => rw [foldOnto, if_pos rfl, ih]
    | case5 _ _ _ _ hne ih => rw [foldOnto, if_neg hne, ← Array.append_push, ih]
    | case6 _ _ _ ih => rw [foldOnto, ← Array.append_push, ih]
    | case7 _ _ _ _ ih => rw [foldOnto, ← Array.append_push, ← Array.append_push, ih]
  have happ := append done.toList #[] run
  simpa using happ

theorem foldOnto_append_bracket (run : Option (Counted α)) (xs ys : List (Token α)) (b : Bracket) :
    (foldOnto #[] run (xs ++ .bracket b :: ys)).toList =
      (foldOnto #[] run xs).toList ++ .bracket b :: (foldOnto #[] none ys).toList := by
  have general : ∀ done : Array (Token (Counted α)), (foldOnto done run (xs ++ .bracket b :: ys)).toList =
      (foldOnto done run xs).toList ++ .bracket b :: (foldOnto #[] none ys).toList := by
    intro done
    fun_induction foldOnto done run xs with
    | case1 => rw [List.nil_append, foldOnto, toList_foldOnto]; simp
    | case2 => rw [List.nil_append, foldOnto, toList_foldOnto]; simp
    | case3 _ _ _ ih => rw [List.cons_append, foldOnto, ih]
    | case4 _ _ _ ih => rw [List.cons_append, foldOnto, if_pos rfl, ih]
    | case5 _ _ _ _ hne ih => rw [List.cons_append, foldOnto, if_neg hne, ih]
    | case6 _ _ _ ih => rw [List.cons_append, foldOnto, ih]
    | case7 _ _ _ _ ih => rw [List.cons_append, foldOnto, ih]
  exact general #[]

namespace Block

def foldBehind : Option (Counted α) → Block α → Block (Counted α)
  | none, nil => nil
  | some r, nil => op r nil
  | none, op a b => foldBehind (some ⟨a, 1⟩) b
  | some r, op a b =>
    if a = r.op then foldBehind (some ⟨a, r.count + 1⟩) b else op r (foldBehind (some ⟨a, 1⟩) b)
  | none, loop b c => loop (foldBehind none b) (foldBehind none c)
  | some r, loop b c => op r (loop (foldBehind none b) (foldBehind none c))

def fold (b : Block α) : Block (Counted α) :=
  b.foldBehind none

theorem tokens_foldBehind (run : Option (Counted α)) (b : Block α) :
    (b.foldBehind run).tokens = (foldOnto #[] run b.tokens).toList := by
  fun_induction foldBehind run b with
  | case1 => rfl
  | case2 => rfl
  | case3 a b ih => rw [ih, tokens, foldOnto]
  | case4 => rw [tokens, foldOnto, if_pos rfl]; assumption
  | case5 _ _ _ hne ih => rw [tokens, ih, tokens, foldOnto, if_neg hne, toList_foldOnto (#[].push _)]; rfl
  | case6 b c ihb ihc =>
    rw [tokens, ihb, ihc, tokens, foldOnto, toList_foldOnto (#[].push _), foldOnto_append_bracket]
    rfl
  | case7 r b c ihb ihc =>
    rw [tokens, tokens, ihb, ihc, tokens, foldOnto, toList_foldOnto (Array.push _ _), foldOnto_append_bracket]
    rfl

theorem tokens_fold (b : Block α) : b.fold.tokens = foldRuns b.tokens :=
  tokens_foldBehind none b

theorem balanced_foldRuns {ts : List (Token α)} (hb : Balanced ts) : Balanced (foldRuns ts) := by
  obtain ⟨b, rfl⟩ := exists_tokens_eq hb
  rw [← tokens_fold]
  exact b.fold.balanced_tokens

/-- An operation that is repeated, and the counted operation. -/
inductive Run : Block α → Block (Counted α) → Prop where
  | intro (a : α) (n : Nat) : 0 < n → Run (ofOps (List.replicate n a)) (op ⟨a, n⟩ nil)

def begun : Option (Counted α) → Block α
  | none => nil
  | some r => ofOps (List.replicate r.count r.op)

theorem related_foldBehind (run : Option (Counted α)) (hrun : ∀ r, run = some r → 0 < r.count) (b : Block α) :
    Related Run (fun _ _ => True) ((begun run).append b) (b.foldBehind run) := by
  have one : ∀ (a : α) r, some (⟨a, 1⟩ : Counted α) = some r → 0 < r.count := by
    intro a r h
    obtain ⟨⟩ := h
    exact Nat.one_pos
  fun_induction foldBehind run b with
  | case1 => exact .nil
  | case2 r => exact .segment (Run.intro r.op r.count (hrun r rfl)) .nil
  | case3 a b ih => exact ih (one a)
  | case4 r b ih =>
    have hgrow := ih (by rintro s ⟨⟩; exact Nat.succ_pos _)
    rw [begun, List.replicate_succ', ofOps_append, append_assoc] at hgrow
    exact hgrow
  | case5 r a b _ ih => exact .segment (Run.intro r.op r.count (hrun r rfl)) (ih (one a))
  | case6 b c ihb ihc =>
    exact .loop trivial (ihb fun _ h => by cases h) (ihc fun _ h => by cases h)
  | case7 r b c ihb ihc =>
    exact .segment (Run.intro r.op r.count (hrun r rfl))
      (.loop trivial (ihb fun _ h => by cases h) (ihc fun _ h => by cases h))

theorem related_fold (b : Block α) : Related Run (fun _ _ => True) b b.fold :=
  related_foldBehind none (fun _ h => by cases h) b

end Block

end Structure

section Behaviour

variable {w : Watch Op} {s : Block Op} {s' : Block (Counted Op)}

def Counted.act (r : Counted Op) : Config → Action :=
  Idiomatic.act (Lowered.ofCounted r)

def Watch.counted (w : Watch Op) : Watch (Counted Op) where
  op r := w.op r.op
  loop _ _ := False

/-- Only idioms at cells that are not zero are looked for. -/
structure Watch.Idle (w : Watch Op) : Prop where
  basic : ∀ b t, ¬ w.op (.basic b) t
  zero : ∀ o t, t.current = 0 → ¬ w.op o t
  loop : ∀ ts t, ¬ w.loop ts t

theorem Watch.idle_nothing : Watch.nothing.Idle where
  basic _ _ h := h
  zero _ _ _ h := h
  loop _ _ h := h

namespace Block

theorem Run.refines {away : Exit → Prop} (hw : w.Idle) (h : Run s s') (i j : Nat) :
    Refines (Exit.Alike Tape.SameCells) away (s.meaning Op.act w i) (s'.meaning Counted.act w.counted j) := by
  obtain ⟨o, n, hn⟩ := h
  rw [meaning_op_nil]
  cases hb : o with
  | basic b =>
    refine (matched_replicate (ActAlike.basic b) w _ n i j).refines ?_
    exact meaning_ofOps_unique _ (fun a ha t => by rw [List.eq_of_mem_replicate ha]; exact hw.basic b t) i
  | _ =>
    rw [← hb]
    have ho : ∀ b, o ≠ .basic b := by
      intro b h
      cases hb.symm.trans h
    obtain ⟨m, rfl⟩ := Nat.exists_eq_succ_of_ne_zero (Nat.ne_of_gt hn)
    rw [meaning_replicate ho (hw.zero o), Counted.act, act_ofCounted ho]
    exact (Refines.instruction (ActAlike.idiomatic _ i j) fun _ h => h).mono fun _ _ =>
      Exit.Alike.mono fun _ _ h => congrArg Tape.cells h

theorem Run.refines_symm {away : Exit → Prop} (h : Run s s') (i j : Nat) :
    Refines (Exit.Alike Tape.SameCells) away (s'.meaning Counted.act .nothing j) (s.meaning Op.act .nothing i) := by
  obtain ⟨o, n, hn⟩ := h
  rw [meaning_op_nil]
  cases hb : o with
  | basic b =>
    have hm := matched_replicate (ActAlike.basic b) .nothing (fun _ => False) n i j
    exact (hm.symm.refines (Meaning.instruction_unique fun _ h => h)).mono fun _ _ =>
      Exit.Alike.symm fun _ _ => Tape.SameCells.symm
  | _ =>
    rw [← hb]
    have ho : ∀ b, o ≠ .basic b := by
      intro b h
      cases hb.symm.trans h
    obtain ⟨m, rfl⟩ := Nat.exists_eq_succ_of_ne_zero (Nat.ne_of_gt hn)
    rw [meaning_replicate ho fun _ _ h => h, Counted.act, act_ofCounted ho]
    exact (Refines.instruction (ActAlike.idiomatic _ j i) fun _ h => h).mono fun _ _ =>
      Exit.Alike.mono fun _ _ h => congrArg Tape.cells h

/-- Folding neither adds an end nor loses one. -/
theorem refines_fold (b : Block Op) : Refines (Exit.Alike Tape.SameCells) Exit.none (b.meaning Op.act .nothing 0)
    (b.fold.meaning Counted.act .nothing 0) :=
  (related_fold b).refines (fun _ _ hs => hs.refines Watch.idle_nothing) (fun _ _ _ _ h => h)
    (fun _ _ _ h => ⟨h, rfl⟩) 0 0

theorem refines_of_fold (b : Block Op) :
    Refines (Exit.Alike Tape.SameCells) Exit.none (b.fold.meaning Counted.act .nothing 0)
    (b.meaning Op.act .nothing 0) :=
  (related_fold b).symm.refines (fun _ _ hs i j => hs.refines_symm j i) (fun _ _ _ _ h => h)
    (fun _ _ _ h => ⟨h, rfl⟩) 0 0

end Block

end Behaviour

end TapeMachine
