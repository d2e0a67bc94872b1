import TapeMachine.Proofs.Alike
import TapeMachine.Proofs.Cells
import TapeMachine.Proofs.Machine

namespace TapeMachine

open Meaning Block

def Op.act (o : Op) (c : Config) : Action :=
  Idiomatic.act (Lowered.ofCounted ⟨o, 1⟩) c

theorem Op.act_scan (d : Direction) (n : Nat) (c : Config) : (scan d n).act c = c.scanBy d n c.outOfBounds :=
  Idiomatic.scanEach_succ d n c 0

theorem Op.act_transfer (d : Direction) (n : Nat) (c : Config) : (transfer d n).act c = c.transferBy d n c.outOfBounds :=
  Idiomatic.transferEach_succ d n c 0

theorem fitsAt_op (o : Op) (c : Config) : (o.act c).FitsAt c c.outOfBounds :=
  fitsAt_idiomatic (Lowered.ofCounted ⟨o, 1⟩) c

theorem ActAlike.basic (b : Basic) : ActAlike (Op.basic b).act (Idiomatic.act (.counted b 1)) :=
  .idiomatic (.counted b 1)

variable {α : Type} {act : α → Config → Action}

theorem perform_counted_zero (b : Basic) (j : Nat) (t : Tape) (io : Streams) :
    (Idiomatic.act (.counted b 0) ⟨j, t⟩).perform io = .resume ⟨j + 1, t⟩ io := by
  cases b with
  | move d => simp only [Idiomatic.act, Config.moveBy, Tape.move?_zero]; rfl
  | increment => simp only [Idiomatic.act, Config.update, Tape.add_zero]; rfl
  | decrement => simp only [Idiomatic.act, Config.update, Tape.sub_zero]; rfl
  | read => rfl
  | write => rfl

/-- A counted instruction does its operation once, and then what the instruction with one less does. -/
theorem perform_counted_succ (b : Basic) (n j : Nat) (t : Tape) (io : Streams) :
    (∃ t' io', (Idiomatic.act (.counted b 1) ⟨j, t⟩).perform io = .resume ⟨j + 1, t'⟩ io' ∧
      Reply.Alike Tape.SameCells j j ((Idiomatic.act (.counted b n) ⟨j, t'⟩).perform io')
        ((Idiomatic.act (.counted b (n + 1)) ⟨j, t⟩).perform io)) ∨
    ∃ c v io', (Idiomatic.act (.counted b 1) ⟨j, t⟩).perform io = .halt c v io' ∧
      (Idiomatic.act (.counted b (n + 1)) ⟨j, t⟩).perform io = .halt c v io' := by
  have self : ∀ t io, Reply.Alike Tape.SameCells j j ((Idiomatic.act (.counted b n) ⟨j, t⟩).perform io)
      ((Idiomatic.act (.counted b n) ⟨j, t⟩).perform io) := by
    intro t io
    refine (ActAlike.idiomatic (.counted b n) j j t io).mono ?_
    rintro t u rfl
    rfl
  cases b with
  | move d =>
    simp only [Idiomatic.act, Config.moveBy]
    rw [Nat.add_comm n, Tape.move?_add]
    cases hm : t.move? d 1 with
    | none => exact .inr ⟨_, _, _, rfl, rfl⟩
    | some u =>
      refine .inl ⟨u, io, rfl, ?_⟩
      simp only [Option.bind_some]
      cases u.move? d n with
      | some u' => exact .next _ _
      | none => exact .halt ⟨rfl, rfl, fun h => absurd rfl h, fun _ => (Tape.SameCells.of_move? hm).symm⟩
  | increment =>
    refine .inl ⟨t.add 1, io, rfl, ?_⟩
    have hs := self (t.add 1) io
    simp only [Idiomatic.act, Config.update, Tape.add_add, Nat.add_comm 1] at hs ⊢
    exact hs
  | decrement =>
    refine .inl ⟨t.sub 1, io, rfl, ?_⟩
    have hs := self (t.sub 1) io
    simp only [Idiomatic.act, Config.update, Tape.sub_sub, Nat.add_comm 1] at hs ⊢
    exact hs
  | read =>
    simp only [Idiomatic.act, Idiomatic.readEach, Action.perform]
    cases hr : io.read with
    | mk x io' =>
      cases x with
      | error e => exact .inr ⟨_, _, _, rfl, rfl⟩
      | ok b => exact .inl ⟨t.set b, io', rfl, self (t.set b) io'⟩
  | write =>
    simp only [Idiomatic.act, Idiomatic.writeEach, Action.perform]
    cases hw : io.write t.current with
    | mk x io' =>
      cases x with
      | some e => exact .inr ⟨_, _, _, rfl, rfl⟩
      | none =>
        cases hf : io'.flush with
        | mk y io'' =>
          cases y with
          | some e => exact .inr ⟨⟨j, t⟩, .failed (.stream e), io'', by simp [hf], by simp [hf]⟩
          | none =>
            refine .inl ⟨t, io'', by simp [hf]; rfl, ?_⟩
            simp only [hf]
            exact self t io''

/-- The repeated operation and the counted instruction have related outcomes. The induction is on the count,
from the side of the first operation. -/
theorem replicate_outcome {a : α} {b : Basic} (h : ActAlike (act a) (Idiomatic.act (.counted b 1)))
    (w : Watch α) (n i j : Nat) (t : Tape) (io : Streams) :
    (∃ t' io', (Idiomatic.act (.counted b n) ⟨j, t⟩).perform io = .resume ⟨j + 1, t'⟩ io' ∧
      (ofOps (List.replicate n a)).meaning act w i ⟨t, io⟩ (.passed ⟨t', io'⟩)) ∨
    ∃ e c v io', (Idiomatic.act (.counted b n) ⟨j, t⟩).perform io = .halt c v io' ∧
      Exit.Alike Tape.SameCells (.ended e) (.ended ⟨v, c, io'⟩) ∧
      (ofOps (List.replicate n a)).meaning act w i ⟨t, io⟩ (.left (.ended e)) := by
  induction n generalizing i t io with
  | zero => exact .inl ⟨t, io, perform_counted_zero b j t io, rfl⟩
  | succ n ih =>
    have ha := h i j t io
    generalize hp : (act a ⟨i, t⟩).perform io = p at ha
    rcases perform_counted_succ b n j t io with ⟨t', io', hb, hn⟩ | ⟨c, v, io', hb, hn⟩
    · rw [hb] at ha
      cases ha with
      | next =>
        rcases ih (i + 1) t' io' with ⟨t'', io'', hb', hm⟩ | ⟨e, c, v, io'', hb', he, hm⟩
        · rw [hb'] at hn
          generalize hq : (Idiomatic.act (.counted b (n + 1)) ⟨j, t⟩).perform io = q at hn
          cases hn with
          | next => exact .inl ⟨t'', io'', rfl, .pass (.pass hp) hm⟩
        · rw [hb'] at hn
          generalize hq : (Idiomatic.act (.counted b (n + 1)) ⟨j, t⟩).perform io = q at hn
          cases hn with
          | @halt _ c' _ v' _ io' he' =>
            have hs : Exit.Alike Tape.SameCells (.ended ⟨v, c, io''⟩) (.ended ⟨v', c', io'⟩) := he'
            exact .inr ⟨e, c', v', io', rfl, he.trans hs fun _ _ _ => Tape.SameCells.trans, .pass (.pass hp) hm⟩
    · rw [hb] at ha
      cases ha with
      | @halt c' _ v' _ io'' _ he =>
        refine .inr ⟨_, c, v, io', hn, ?_, .leave (.leave hp)⟩
        exact Exit.Alike.mono (x := .ended ⟨v', c', io''⟩) (y := .ended ⟨v, c, io'⟩)
          (fun _ _ h => congrArg Tape.cells h) he

theorem matched_replicate {a : α} {b : Basic} (h : ActAlike (act a) (Idiomatic.act (.counted b 1)))
    (w : Watch α) (seen : Tape → Prop) (n i j : Nat) :
    Matched (Exit.Alike Tape.SameCells) ((ofOps (List.replicate n a)).meaning act w i)
      (instruction (Idiomatic.act (.counted b n)) seen j) := by
  intro r
  rcases replicate_outcome h w n i j r.tape r.io with ⟨t, io, hp, hm⟩ | ⟨e, c, v, io, hp, he, hm⟩
  · exact .inl ⟨⟨t, io⟩, hm, .pass hp⟩
  · exact .inr ⟨.ended e, _, he, hm, .leave hp⟩

theorem current_of_resume {o : Op} (ho : ∀ b, o ≠ .basic b) {i : Nat} {t u : Tape} {io io' : Streams}
    (h : (o.act ⟨i, t⟩).perform io = .resume ⟨i + 1, u⟩ io') : u.current = 0 := by
  cases o with
  | basic b => exact absurd rfl (ho b)
  | clear =>
    cases h
    exact Tape.current_set _ _
  | scan d n =>
    rw [Op.act_scan, Config.scanBy] at h
    by_cases hz : t.current = 0
    · simp only [hz, if_true] at h
      cases h
      exact hz
    · simp only [hz, if_false] at h
      cases hm : t.move? d n with
      | some t' => simp [hm, Action.perform] at h
      | none => simp [hm, Action.perform] at h
  | transfer d n =>
    rw [Op.act_transfer, Config.transferBy] at h
    by_cases hz : t.current = 0
    · simp only [hz, if_true] at h
      cases h
      exact hz
    · simp only [hz, if_false] at h
      cases hc : t.cellAt? d n with
      | some k =>
        simp only [hc] at h
        cases h
        exact Tape.current_transferTo _ _
      | none => simp [hc, Action.perform] at h

theorem current_of_passed {o : Op} (ho : ∀ b, o ≠ .basic b) {seen : Tape → Prop} {i : Nat} {r r' : Runtime}
    (h : instruction o.act seen i r (.passed r')) : r'.tape.current = 0 := by
  generalize hp : Passage.passed r' = p at h
  induction h with
  | met => cases hp
  | leave => cases hp
  | again _ _ ih => exact ih hp
  | pass hr =>
    cases hp
    exact current_of_resume ho hr

theorem perform_of_zero {o : Op} (ho : ∀ b, o ≠ .basic b) {i : Nat} {t : Tape} (hz : t.current = 0) (io : Streams) :
    (o.act ⟨i, t⟩).perform io = .resume ⟨i + 1, t⟩ io := by
  cases o with
  | basic b => exact absurd rfl (ho b)
  | clear =>
    show Reply.resume ⟨i + 1, t.set 0⟩ io = _
    rw [Tape.set_zero_of_zero hz]
  | scan d n =>
    rw [Op.act_scan, Config.scanBy, if_pos hz]
    rfl
  | transfer d n =>
    rw [Op.act_transfer, Config.transferBy, if_pos hz]
    rfl

theorem seq_eq_left {A B : Meaning} (h : ∀ r r', A r (.passed r') → ∀ o, B r' o ↔ o = .passed r') :
    seq A B = A := by
  funext r o
  apply propext
  constructor
  · intro hs
    cases hs with
    | pass ha hb =>
      cases (h _ _ ha _).mp hb
      exact ha
    | leave ha => exact ha
  · intro ha
    cases o with
    | passed r' => exact .pass ha ((h _ _ ha _).mpr rfl)
    | left x => exact .leave ha

/-- An idiom that is repeated is that idiom. -/
theorem meaning_replicate {o : Op} (ho : ∀ b, o ≠ .basic b) {w : Watch Op}
    (hw : ∀ t, t.current = 0 → ¬ w.op o t) (n i : Nat) :
    (ofOps (List.replicate (n + 1) o)).meaning Op.act w i = instruction o.act (w.op o) i := by
  have idle : ∀ k r, r.tape.current = 0 → ∀ m p,
      (ofOps (List.replicate m o)).meaning Op.act w k r p ↔ p = .passed r := by
    intro k r hz m p
    induction m generalizing k with
    | zero => exact Iff.rfl
    | succ m ih =>
      have hstep := @instruction_of_resume o.act (w.op o) k r
      constructor
      · intro h
        cases h with
        | pass ha hb =>
          cases (hstep (perform_of_zero ho hz _) (hw _ hz)).mp ha
          exact (ih _).mp hb
        | leave ha => cases (hstep (perform_of_zero ho hz _) (hw _ hz)).mp ha
      · intro hp
        exact .pass ((hstep (perform_of_zero ho hz _) (hw _ hz)).mpr rfl) ((ih _).mpr hp)
  exact seq_eq_left fun r r' ha p => idle _ r' (current_of_passed ho ha) n p

theorem act_ofCounted {o : Op} (ho : ∀ b, o ≠ .basic b) (n : Nat) :
    Idiomatic.act (Lowered.ofCounted ⟨o, n + 1⟩) = o.act := by
  cases o with
  | basic b => exact absurd rfl (ho b)
  | clear => rfl
  | scan d a => exact (Idiomatic.act_scan d a n).trans (Idiomatic.act_scan d a 0).symm
  | transfer d a => exact (Idiomatic.act_transfer d a n).trans (Idiomatic.act_transfer d a 0).symm

end TapeMachine
