import TapeMachine.Native.Compile
import TapeMachine.Proofs.Block
import TapeMachine.Proofs.Run

namespace TapeMachine

/-- Control is behind a block, or the run is left in it. -/
inductive Passage where
  | passed (r : Runtime)
  | left (x : Exit)

abbrev Meaning := Runtime → Passage → Prop

namespace Meaning

def skip : Meaning := fun r o => o = .passed r

/-- The second part starts where the first one passes. -/
inductive seq (A B : Meaning) : Meaning where
  | pass {r r' : Runtime} {o : Passage} : A r (.passed r') → B r' o → seq A B r o
  | leave {r : Runtime} {x : Exit} : A r (.left x) → seq A B r (.left x)

/-- The body again and again while the current cell is not zero. -/
inductive rounds (A : Meaning) : Meaning where
  | done {r : Runtime} : r.tape.current = 0 → rounds A r (.passed r)
  | leave {r : Runtime} {x : Exit} : r.tape.current ≠ 0 → A r (.left x) → rounds A r (.left x)
  | again {r r' : Runtime} {o : Passage} : r.tape.current ≠ 0 → A r (.passed r') →
      rounds A r' o → rounds A r o

/-- The run may be met at index `i` before the meaning takes effect. -/
inductive watched (seen : Tape → Prop) (i : Nat) (A : Meaning) : Meaning where
  | met {r : Runtime} : seen r.tape → watched seen i A r (.left (.met ⟨i, r.tape⟩ r.io))
  | run {r : Runtime} {o : Passage} : A r o → watched seen i A r o

/-- The instruction at index `i`, which may be done several times before control goes on. -/
inductive instruction (f : Config → Action) (seen : Tape → Prop) (i : Nat) : Meaning where
  | met {r : Runtime} : seen r.tape → instruction f seen i r (.left (.met ⟨i, r.tape⟩ r.io))
  | pass {r : Runtime} {t : Tape} {io : Streams} :
      (f ⟨i, r.tape⟩).perform r.io = .resume ⟨i + 1, t⟩ io → instruction f seen i r (.passed ⟨t, io⟩)
  | leave {r : Runtime} {c : Config} {v : Verdict} {io : Streams} :
      (f ⟨i, r.tape⟩).perform r.io = .halt c v io →
        instruction f seen i r (.left (.ended ⟨v, c, io⟩))
  | again {r : Runtime} {t : Tape} {io : Streams} {o : Passage} :
      (f ⟨i, r.tape⟩).perform r.io = .resume ⟨i, t⟩ io → instruction f seen i ⟨t, io⟩ o →
        instruction f seen i r o

def Unique (A : Meaning) : Prop := ∀ r o o', A r o → A r o' → o = o'

/-- The passage that comes of one when the meaning follows. -/
def followed : Passage → Meaning → Passage → Prop
  | .passed r, A, o => A r o
  | .left x, _, o => o = .left x

theorem seq_iff {A B : Meaning} {r : Runtime} {o : Passage} :
    seq A B r o ↔ ∃ p, A r p ∧ followed p B o := by
  constructor
  · intro h
    cases h with
    | pass ha hb => exact ⟨_, ha, hb⟩
    | leave ha => exact ⟨_, ha, rfl⟩
  · intro h
    obtain ⟨p, ha, hb⟩ := h
    cases p with
    | passed r' => exact .pass ha hb
    | left x => cases hb; exact .leave ha

theorem seq.imp_right {A B C : Meaning} {r : Runtime} {o : Passage} (h : seq A B r o)
    (hBC : ∀ {r o}, B r o → C r o) : seq A C r o := by
  cases h with
  | pass ha hb => exact .pass ha (hBC hb)
  | leave ha => exact .leave ha

@[simp]
theorem skip_seq (A : Meaning) : seq skip A = A := by
  funext r o
  apply propext
  constructor
  · intro h
    cases h with
    | pass h h' => cases h; exact h'
    | leave h => cases h
  · exact .pass rfl

@[simp]
theorem seq_skip (A : Meaning) : seq A skip = A := by
  funext r o
  apply propext
  constructor
  · intro h
    cases h with
    | pass h h' => cases h'; exact h
    | leave h => exact h
  · intro h
    cases o with
    | passed r' => exact .pass h rfl
    | left x => exact .leave h

theorem seq_assoc (A B C : Meaning) : seq (seq A B) C = seq A (seq B C) := by
  funext r o
  apply propext
  constructor
  · intro h
    cases h with
    | pass h h' =>
      cases h with
      | pass ha hb => exact .pass ha (.pass hb h')
    | leave h =>
      cases h with
      | pass ha hb => exact .pass ha (.leave hb)
      | leave ha => exact .leave ha
  · intro h
    cases h with
    | pass ha h =>
      cases h with
      | pass hb hc => exact .pass (.pass ha hb) hc
      | leave hb => exact .leave (.pass ha hb)
    | leave ha => exact .leave (.leave ha)

theorem Unique.seq {A B : Meaning} (hA : A.Unique) (hB : B.Unique) : (A.seq B).Unique := by
  intro r o o' h h'
  cases h with
  | pass ha hb =>
    cases h' with
    | pass ha' hb' =>
      obtain rfl := Passage.passed.inj (hA _ _ _ ha ha')
      exact hB _ _ _ hb hb'
    | leave ha' => cases hA _ _ _ ha ha'
  | leave ha =>
    cases h' with
    | pass ha' hb' => cases hA _ _ _ ha ha'
    | leave ha' => exact hA _ _ _ ha ha'

theorem Unique.rounds {A : Meaning} (hA : A.Unique) : A.rounds.Unique := by
  intro r o o' h
  induction h with
  | done hz =>
    intro h'
    cases h' with
    | done => rfl
    | leave hn => exact absurd hz hn
    | again hn => exact absurd hz hn
  | leave hn ha =>
    intro h'
    cases h' with
    | done hz => exact absurd hz hn
    | leave _ ha' => exact hA _ _ _ ha ha'
    | again _ ha' => cases hA _ _ _ ha ha'
  | again hn ha _ ih =>
    intro h'
    cases h' with
    | done hz => exact absurd hz hn
    | leave _ ha' => cases hA _ _ _ ha ha'
    | again _ ha' hr =>
      obtain rfl := Passage.passed.inj (hA _ _ _ ha ha')
      exact ih hr

theorem Unique.watched {A : Meaning} (hA : A.Unique) {seen : Tape → Prop} (hs : ∀ t, ¬ seen t) (i : Nat) :
    (A.watched seen i).Unique := by
  intro r o o' h h'
  cases h with
  | met hm => exact absurd hm (hs _)
  | run ha =>
    cases h' with
    | met hm => exact absurd hm (hs _)
    | run ha' => exact hA _ _ _ ha ha'

/-- Where the first part passes, the second part goes on alone. -/
theorem Unique.seq_iff {A B : Meaning} (hA : A.Unique) {r r' : Runtime} (ha : A r (.passed r')) {o : Passage} :
    A.seq B r o ↔ B r' o := by
  constructor
  · intro h
    cases h with
    | pass ha' hb =>
      obtain rfl := Passage.passed.inj (hA _ _ _ ha ha')
      exact hb
    | leave ha' => cases hA _ _ _ ha ha'
  · exact .pass ha

/-- Rounds are left from a round. -/
theorem rounds.exists_left {A : Meaning} {r : Runtime} {x : Exit} (h : A.rounds r (.left x)) :
    ∃ r', A r' (.left x) := by
  generalize ho : Passage.left x = o at h
  induction h with
  | done => cases ho
  | leave _ ha =>
    cases ho
    exact ⟨_, ha⟩
  | again _ _ _ ih => exact ih ho

section Instruction

variable {f : Config → Action} {seen : Tape → Prop} {i : Nat} {r : Runtime} {o : Passage}

theorem instruction_of_resume {t : Tape} {io : Streams}
    (h : (f ⟨i, r.tape⟩).perform r.io = .resume ⟨i + 1, t⟩ io) (hs : ¬ seen r.tape) :
    instruction f seen i r o ↔ o = .passed ⟨t, io⟩ := by
  constructor
  · intro ho
    cases ho with
    | met hm => exact absurd hm hs
    | pass h' => cases h.symm.trans h'; rfl
    | leave h' => cases h.symm.trans h'
    | again h' => simp [h] at h'
  · rintro rfl
    exact .pass h

theorem instruction_of_halt {c : Config} {v : Verdict} {io : Streams}
    (h : (f ⟨i, r.tape⟩).perform r.io = .halt c v io) (hs : ¬ seen r.tape) :
    instruction f seen i r o ↔ o = .left (.ended ⟨v, c, io⟩) := by
  constructor
  · intro ho
    cases ho with
    | met hm => exact absurd hm hs
    | pass h' => cases h.symm.trans h'
    | leave h' => cases h.symm.trans h'; rfl
    | again h' => cases h.symm.trans h'
  · rintro rfl
    exact .leave h

theorem instruction_unique (hs : ∀ t, ¬ seen t) : (instruction f seen i).Unique := by
  intro r o o' h
  induction h with
  | met hm => exact absurd hm (hs _)
  | pass h => exact fun h' => ((instruction_of_resume h (hs _)).mp h').symm
  | leave h => exact fun h' => ((instruction_of_halt h (hs _)).mp h').symm
  | again h _ ih =>
    intro h'
    cases h' with
    | met hm => exact absurd hm (hs _)
    | pass h' => simp [h] at h'
    | leave h' => cases h.symm.trans h'
    | again h' h'' =>
      cases h.symm.trans h'
      exact ih h''

/-- Where an instruction is left by an end, it halts there the last time it is done. -/
theorem instruction.exists_halt {e : Ended} (h : instruction f seen i r (.left (.ended e))) :
    ∃ r' : Runtime, (f ⟨i, r'.tape⟩).perform r'.io = .halt e.config e.verdict e.io := by
  generalize ho : Passage.left (.ended e) = o at h
  induction h with
  | met => cases ho
  | pass => cases ho
  | again _ _ ih => exact ih ho
  | @leave r _ _ _ hp =>
    cases ho
    exact ⟨r, hp⟩

end Instruction

end Meaning

open Meaning

variable {α : Type}

/-- Which operations and which loops are looked for, the loops by the tokens of their bodies. -/
structure Watch (α : Type) where
  op : α → Tape → Prop
  loop : List (Token α) → Tape → Prop

def Watch.nothing : Watch α where
  op _ _ := False
  loop _ _ := False

namespace Block

/-- What a block does whose first token has index `i`. -/
def meaning (act : α → Config → Action) (w : Watch α) : Nat → Block α → Meaning
  | _, nil => skip
  | i, op a r => seq (instruction (act a) (w.op a) i) (meaning act w (i + 1) r)
  | i, loop b r =>
    seq (watched (w.loop b.tokens) i (rounds (meaning act w (i + 1) b)))
      (meaning act w (i + b.length + 2) r)

variable {act : α → Config → Action} {w : Watch α}

theorem meaning_append (b c : Block α) (i : Nat) :
    (b.append c).meaning act w i = seq (b.meaning act w i) (c.meaning act w (i + b.length)) := by
  induction b generalizing i with
  | nil => simp [append, meaning, length]
  | op a r ih =>
    rw [append, meaning, ih, meaning, seq_assoc, length, Nat.add_assoc, Nat.add_comm 1]
  | loop b r _ ih =>
    rw [append, meaning, ih, meaning, seq_assoc, length]
    congr 3
    omega

theorem meaning_op_nil (a : α) (i : Nat) :
    (op a nil).meaning act w i = instruction (act a) (w.op a) i :=
  seq_skip _

theorem meaning_loop_nil (b : Block α) (i : Nat) :
    (loop b nil).meaning act w i =
      watched (w.loop b.tokens) i (rounds (b.meaning act w (i + 1))) :=
  seq_skip _

theorem meaning_ofOps_unique (as : List α) (hw : ∀ a ∈ as, ∀ t, ¬ w.op a t) (i : Nat) :
    ((ofOps as).meaning act w i).Unique := by
  induction as generalizing i with
  | nil =>
    intro r o o' h h'
    exact h.trans h'.symm
  | cons a as ih =>
    exact (instruction_unique (hw a (by simp))).seq (ih (fun a' ha' => hw a' (by simp [ha'])) _)

/-- If nothing is looked for, a block does one thing. -/
theorem meaning_unique (b : Block α) (i : Nat) : (b.meaning act .nothing i).Unique := by
  induction b generalizing i with
  | nil =>
    intro r o o' h h'
    exact h.trans h'.symm
  | op a r ih => exact (instruction_unique fun _ h => h).seq (ih _)
  | loop b r ihb ihr => exact ((ihb _).rounds.watched (fun _ h => h) i).seq (ihr _)

def finish (n : Nat) : Meaning := fun r o => o = .left (.ended ⟨.done, ⟨n, r.tape⟩, r.io⟩)

def Leaves (act : α → Config → Action) (w : Watch α) (b : Block α) (r : Runtime) (x : Exit) : Prop :=
  seq (b.meaning act w 0) (finish b.length) r (.left x)

end Block

end TapeMachine
