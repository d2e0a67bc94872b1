import TapeMachine.Proofs.Block
import TapeMachine.Tree.Optimise

namespace TapeMachine

namespace Idiom

/-- `n` moves one way, an increment and as many moves back. -/
def roundTrip (d : Direction) (n : Nat) : List Op :=
  List.replicate n (moveOp d) ++ .basic .increment :: List.replicate n (moveOp d.opposite)

/-- A command that changes the current cell by one. -/
def IsStep (b : Basic) : Prop := b = .increment ∨ b = .decrement

/-- The bodies of idioms and the operations that replace them. -/
inductive Shape : List Op → Op → Prop where
  | scan (d : Direction) {n : Nat} : 0 < n → n ≤ maxAmount →
      Shape (List.replicate n (moveOp d)) (.scan d n)
  | clear {b : Basic} {n : Nat} : IsStep b → 0 < n → Shape (List.replicate n (.basic b)) .clear
  | countFirst (d : Direction) {n : Nat} : 0 < n → n ≤ maxAmount →
      Shape (.basic .decrement :: roundTrip d n) (.transfer d n)
  | countLast (d : Direction) {n : Nat} : 0 < n → n ≤ maxAmount →
      Shape (roundTrip d n ++ [.basic .decrement]) (.transfer d n)

theorem all_eq_iff {ops : List Op} {o : Op} :
    ops.all (· = o) = true ↔ ops = List.replicate ops.length o := by
  simp [List.eq_replicate_iff]

theorem scan?_eq_some_iff {ops : List Op} {o : Op} :
    scan? ops = some o ↔
      ∃ d n, 0 < n ∧ n ≤ maxAmount ∧ ops = List.replicate n (moveOp d) ∧ o = .scan d n := by
  constructor
  · intro h
    unfold scan? at h
    split at h
    · rename_i d rest
      split at h
      · rename_i hall
        cases h
        refine ⟨d, rest.length + 1, Nat.succ_pos _, hall.2, ?_, rfl⟩
        rw [List.replicate_succ, ← all_eq_iff.mp hall.1]
      · cases h
    · cases h
  · intro h
    obtain ⟨d, n, hn, hle, rfl, rfl⟩ := h
    obtain ⟨m, rfl⟩ := Nat.exists_eq_succ_of_ne_zero (Nat.ne_of_gt hn)
    simp [List.replicate_succ, scan?, hle]

theorem clear?_eq_some_iff {ops : List Op} {o : Op} :
    clear? ops = some o ↔
      ∃ b n, IsStep b ∧ 0 < n ∧ ops = List.replicate n (.basic b) ∧ o = .clear := by
  constructor
  · intro h
    unfold clear? at h
    split at h
    · rename_i rest
      split at h
      · rename_i hall
        cases h
        refine ⟨.increment, rest.length + 1, .inl rfl, Nat.succ_pos _, ?_, rfl⟩
        rw [List.replicate_succ, ← all_eq_iff.mp hall]
      · cases h
    · rename_i rest
      split at h
      · rename_i hall
        cases h
        refine ⟨.decrement, rest.length + 1, .inr rfl, Nat.succ_pos _, ?_, rfl⟩
        rw [List.replicate_succ, ← all_eq_iff.mp hall]
      · cases h
    · cases h
  · intro h
    obtain ⟨b, n, hb, hn, rfl, rfl⟩ := h
    obtain ⟨m, rfl⟩ := Nat.exists_eq_succ_of_ne_zero (Nat.ne_of_gt hn)
    rcases hb with rfl | rfl <;> simp [List.replicate_succ, clear?]

theorem roundTrip?_eq_some_iff {ops : List Op} {o : Op} :
    roundTrip? ops = some o ↔
      ∃ d n, 0 < n ∧ n ≤ maxAmount ∧ ops = roundTrip d n ∧ o = .transfer d n := by
  constructor
  · intro h
    unfold roundTrip? at h
    split at h
    · rename_i d rest
      simp only at h
      split at h
      · rename_i back hback
        split at h
        · rename_i hall
          obtain ⟨hlen, hall, hle⟩ := hall
          cases h
          have hthere : rest.takeWhile (· = moveOp d) =
              List.replicate (rest.takeWhile (· = moveOp d)).length (moveOp d) :=
            all_eq_iff.mp List.all_takeWhile
          have hrest : rest = rest.takeWhile (· = moveOp d) ++ .basic .increment :: back := by
            rw [← hback]
            exact (List.prefix_iff_eq_append.mp (List.takeWhile_prefix _)).symm
          refine ⟨d, _, Nat.succ_pos _, hle, ?_, rfl⟩
          rw [roundTrip, Nat.succ_eq_add_one, ← hlen, ← all_eq_iff.mp hall, hlen, List.replicate_succ, ← hthere,
            List.cons_append, ← hrest]
        · cases h
      · cases h
    · cases h
  · intro h
    obtain ⟨d, n, hn, hle, rfl, rfl⟩ := h
    obtain ⟨m, rfl⟩ := Nat.exists_eq_succ_of_ne_zero (Nat.ne_of_gt hn)
    have hthere : (List.replicate m (moveOp d) ++
        .basic .increment :: List.replicate (m + 1) (moveOp d.opposite)).takeWhile (· = moveOp d) =
        List.replicate m (moveOp d) := by
      rw [List.takeWhile_append_of_pos (by simp)]
      simp [moveOp]
    simp only [roundTrip, List.replicate_succ, List.cons_append, roundTrip?]
    simp only [← List.replicate_succ, hthere, List.length_replicate]
    simp [hle]

theorem transfer?_eq_some_iff {ops : List Op} {o : Op} :
    transfer? ops = some o ↔ ∃ d n, 0 < n ∧ n ≤ maxAmount ∧ o = .transfer d n ∧
      (ops = .basic .decrement :: roundTrip d n ∨ ops = roundTrip d n ++ [.basic .decrement]) := by
  constructor
  · intro h
    unfold transfer? at h
    split at h
    · rename_i hhead
      obtain ⟨d, n, hn, hle, htail, rfl⟩ := roundTrip?_eq_some_iff.mp h
      refine ⟨d, n, hn, hle, rfl, .inl ?_⟩
      obtain ⟨rest, rfl⟩ := List.head?_eq_some_iff.mp hhead
      rw [← htail, List.tail_cons]
    · split at h
      · rename_i hlast
        obtain ⟨d, n, hn, hle, hinit, rfl⟩ := roundTrip?_eq_some_iff.mp h
        refine ⟨d, n, hn, hle, rfl, .inr ?_⟩
        obtain ⟨init, rfl⟩ := List.getLast?_eq_some_iff.mp hlast
        rw [← hinit, List.dropLast_concat]
      · cases h
  · intro h
    obtain ⟨d, n, hn, hle, rfl, rfl | rfl⟩ := h
    · exact roundTrip?_eq_some_iff.mpr ⟨d, n, hn, hle, rfl, rfl⟩
    · obtain ⟨m, rfl⟩ := Nat.exists_eq_succ_of_ne_zero (Nat.ne_of_gt hn)
      have hhead : (roundTrip d (m + 1) ++ [Op.basic .decrement]).head? ≠ some (.basic .decrement) := by
        simp [roundTrip, List.replicate_succ]
      rw [transfer?, if_neg hhead, if_pos (by simp), List.dropLast_concat]
      exact roundTrip?_eq_some_iff.mpr ⟨d, m + 1, hn, hle, rfl, rfl⟩

theorem scan?_eq_none {ops : List Op} {b : Basic} (hb : IsStep b) (h : .basic b ∈ ops) : scan? ops = none := by
  refine Option.eq_none_iff_forall_ne_some.mpr fun o ho => ?_
  obtain ⟨d, n, -, -, rfl, -⟩ := scan?_eq_some_iff.mp ho
  have hd := List.eq_of_mem_replicate h
  rcases hb with rfl | rfl <;> cases hd

theorem clear?_eq_none {ops : List Op} {d : Direction} (h : moveOp d ∈ ops) : clear? ops = none := by
  refine Option.eq_none_iff_forall_ne_some.mpr fun o ho => ?_
  obtain ⟨b, n, hb, -, rfl, -⟩ := clear?_eq_some_iff.mp ho
  have hd := List.eq_of_mem_replicate h
  rcases hb with rfl | rfl <;> cases hd

/-- The recogniser finds exactly the shapes. -/
theorem ofOps?_eq_some_iff {ops : List Op} {o : Op} : ofOps? ops = some o ↔ Shape ops o := by
  rw [ofOps?, Option.or_eq_some_iff, Option.or_eq_some_iff]
  constructor
  · intro hs
    rcases hs with h | ⟨-, h | ⟨-, h⟩⟩
    · obtain ⟨d, n, hn, hle, rfl, rfl⟩ := scan?_eq_some_iff.mp h
      exact .scan d hn hle
    · obtain ⟨b, n, hb, hn, rfl, rfl⟩ := clear?_eq_some_iff.mp h
      exact .clear hb hn
    · obtain ⟨d, n, hn, hle, rfl, rfl | rfl⟩ := transfer?_eq_some_iff.mp h
      · exact .countFirst d hn hle
      · exact .countLast d hn hle
  · have mem : ∀ (d : Direction) {n : Nat}, 0 < n → moveOp d ∈ roundTrip d n ∧ .basic .increment ∈ roundTrip d n := by
      intro d n hn
      simp [roundTrip, Nat.ne_of_gt hn]
    intro h
    cases h with
    | scan d hn hle => exact .inl (scan?_eq_some_iff.mpr ⟨d, _, hn, hle, rfl, rfl⟩)
    | @clear b n hb hn =>
      have hmem : Op.basic b ∈ List.replicate n (.basic b) := by simp [Nat.ne_of_gt hn]
      exact .inr ⟨scan?_eq_none hb hmem, .inl (clear?_eq_some_iff.mpr ⟨b, n, hb, hn, rfl, rfl⟩)⟩
    | countFirst d hn hle =>
      have hmem := mem d hn
      refine .inr ⟨scan?_eq_none (.inl rfl) (List.mem_cons_of_mem _ hmem.2), .inr ⟨?_, ?_⟩⟩
      · exact clear?_eq_none (List.mem_cons_of_mem _ hmem.1)
      · exact transfer?_eq_some_iff.mpr ⟨d, _, hn, hle, rfl, .inl rfl⟩
    | countLast d hn hle =>
      have hmem := mem d hn
      refine .inr ⟨scan?_eq_none (.inl rfl) (List.mem_append_left _ hmem.2), .inr ⟨?_, ?_⟩⟩
      · exact clear?_eq_none (List.mem_append_left _ hmem.1)
      · exact transfer?_eq_some_iff.mpr ⟨d, _, hn, hle, rfl, .inr rfl⟩

/-- A body that is a shape has basic commands only, and what replaces it is none. -/
theorem Shape.basic {ops : List Op} {o : Op} (h : Shape ops o) :
    (∀ a ∈ ops, ∃ b, a = .basic b) ∧ ∀ b, o ≠ .basic b := by
  have trip : ∀ d n, ∀ a ∈ roundTrip d n, ∃ b, a = Op.basic b := by
    intro d n a ha
    simp only [roundTrip, List.mem_append, List.mem_cons, List.mem_replicate] at ha
    rcases ha with ⟨-, rfl⟩ | rfl | ⟨-, rfl⟩
    · exact ⟨_, rfl⟩
    · exact ⟨_, rfl⟩
    · exact ⟨_, rfl⟩
  cases h with
  | scan d => exact ⟨fun a ha => ⟨_, List.eq_of_mem_replicate ha⟩, fun _ h => by cases h⟩
  | clear => exact ⟨fun a ha => ⟨_, List.eq_of_mem_replicate ha⟩, fun _ h => by cases h⟩
  | countFirst d =>
    refine ⟨fun a ha => ?_, fun _ h => by cases h⟩
    rcases List.mem_cons.mp ha with rfl | ha
    · exact ⟨_, rfl⟩
    · exact trip _ _ a ha
  | countLast d =>
    refine ⟨fun a ha => ?_, fun _ h => by cases h⟩
    rcases List.mem_append.mp ha with ha | ha
    · exact trip _ _ a ha
    · exact ⟨_, List.mem_singleton.mp ha⟩

end Idiom

open Idiom

namespace Tree

theorem ops?_eq_some_iff {t : Tree} {ops : List Op} : t.ops? = some ops ↔ t.block = .ofOps ops := by
  have general : ∀ (t : Tree) (done ops : List Op),
      ops?.go done t = some ops ↔ ∃ rest, ops = done.reverse ++ rest ∧ t.block = .ofOps rest := by
    intro t
    induction t with
    | nil =>
      intro done ops
      simp only [ops?.go, Option.some.injEq, block]
      constructor
      · rintro rfl
        exact ⟨[], (List.append_nil _).symm, rfl⟩
      · intro h
        obtain ⟨rest, rfl, hr⟩ := h
        cases rest with
        | nil => exact (List.append_nil _).symm
        | cons => cases hr
    | op o r ih =>
      intro done ops
      rw [ops?.go, ih]
      constructor
      · intro h
        obtain ⟨rest, rfl, hr⟩ := h
        exact ⟨o :: rest, by simp, by rw [block, hr, Block.ofOps]⟩
      · intro h
        obtain ⟨rest, rfl, hr⟩ := h
        cases rest with
        | nil => cases hr
        | cons o' rest =>
          simp only [block, Block.ofOps, Block.op.injEq] at hr
          obtain ⟨rfl, hr⟩ := hr
          exact ⟨rest, by simp, hr⟩
    | loop b r =>
      intro done ops
      simp only [ops?.go, block]
      constructor
      · intro h
        cases h
      · intro h
        obtain ⟨rest, -, hr⟩ := h
        cases rest <;> cases hr
  rw [ops?, general]
  simp

theorem append_consLoop (b r u : Tree) : (consLoop b r).append u = consLoop b (r.append u) := by
  unfold consLoop
  split <;> rfl

theorem replaceIdioms_append (t u : Tree) : (t.append u).replaceIdioms = t.replaceIdioms.append u.replaceIdioms := by
  induction t with
  | nil => rfl
  | op o r ih => rw [append, replaceIdioms, ih, replaceIdioms, append]
  | loop b r _ ih => rw [append, replaceIdioms, ih, replaceIdioms, append_consLoop]

theorem replaceIdioms_of_block_eq {t : Tree} {ops : List Op} (h : t.block = .ofOps ops) :
    t.replaceIdioms = t := by
  induction t generalizing ops with
  | nil => rfl
  | op o r ih =>
    cases ops with
    | nil => cases h
    | cons o' ops =>
      simp only [block, Block.ofOps, Block.op.injEq] at h
      rw [replaceIdioms, ih h.2]
  | loop b r => cases ops <;> cases h

/-- A loop is kept, or it is a shape and is replaced. -/
theorem consLoop_cases (b r : Tree) :
    (consLoop b r = .loop b r ∧ ∀ ops o, b.block = .ofOps ops → ¬ Shape ops o) ∨
      ∃ ops o, b.block = .ofOps ops ∧ Shape ops o ∧ consLoop b r = .op o r := by
  unfold consLoop
  split
  · rename_i o ho
    obtain ⟨ops, hops, hshape⟩ := Option.bind_eq_some_iff.mp ho
    exact .inr ⟨ops, o, ops?_eq_some_iff.mp hops, ofOps?_eq_some_iff.mp hshape, rfl⟩
  · rename_i hnone
    refine .inl ⟨rfl, fun ops o hops hshape => ?_⟩
    rw [Idiom.ofBody?, ops?_eq_some_iff.mpr hops, Option.bind_some, ofOps?_eq_some_iff.mpr hshape] at hnone
    cases hnone

/-- Replacing leaves a trace: where only basic commands are left, nothing was replaced. -/
theorem eq_of_replaceIdioms_eq {t : Tree} {ops : List Op} (h : t.replaceIdioms.block = .ofOps ops)
    (hb : ∀ a ∈ ops, ∃ b, a = .basic b) : t.replaceIdioms = t := by
  induction t generalizing ops with
  | nil => rfl
  | op o r ih =>
    cases ops with
    | nil => cases h
    | cons o' ops =>
      simp only [replaceIdioms, block, Block.ofOps, Block.op.injEq] at h
      rw [replaceIdioms, ih h.2 fun a ha => hb a (List.mem_cons_of_mem _ ha)]
  | loop b r _ _ =>
    rw [replaceIdioms] at h
    rcases consLoop_cases b.replaceIdioms r.replaceIdioms with ⟨heq, -⟩ | ⟨body, o, -, hshape, heq⟩
    · rw [heq] at h
      cases ops <;> cases h
    · rw [heq] at h
      cases ops with
      | nil => cases h
      | cons o' ops =>
        simp only [block, Block.ofOps, Block.op.injEq] at h
        obtain ⟨c, hc⟩ := hb o' List.mem_cons_self
        exact absurd (h.1.trans hc) (hshape.basic.2 c)

end Tree

namespace Block

/-- A loop body of one step or more, all of them equal. -/
def Uniform (body : List (Token Op)) (n : Nat) : Prop :=
  0 < n ∧ ∃ b, IsStep b ∧ body = List.replicate n (.op (.basic b))

/-- Parts of a program without the loops that are kept, before and after idioms are replaced. -/
inductive Replaced : Block Op → Block Op → Prop where
  | same (o : Op) : Replaced (op o nil) (op o nil)
  | idiom {ops : List Op} {o : Op} : Shape ops o → Replaced (loop (ofOps ops) nil) (op o nil)

/-- Loops that are kept are not uniform. -/
def Kept (b _ : Block Op) : Prop :=
  ∀ n, ¬ Uniform b.tokens n

theorem eq_ofOps_of_tokens_eq {α : Type} {b : Block α} {as : List α} (h : b.tokens = as.map .op) : b = ofOps as := by
  induction b generalizing as with
  | nil =>
    cases as with
    | nil => rfl
    | cons => cases h
  | op a r ih =>
    cases as with
    | nil => cases h
    | cons a' as =>
      simp only [tokens, List.map_cons, List.cons.injEq, Token.op.injEq] at h
      rw [h.1, ih h.2, ofOps]
  | loop b r => cases as <;> cases h

end Block

open Block in
theorem Tree.related_replaceIdioms (t : Tree) : Related Replaced Kept t.block t.replaceIdioms.block := by
  induction t with
  | nil => exact .nil
  | op o r ih => exact .segment (Replaced.same o) ih
  | loop b r ihb ihr =>
    rw [replaceIdioms]
    rcases consLoop_cases b.replaceIdioms r.replaceIdioms with ⟨heq, hkept⟩ | ⟨ops, o, hops, hshape, heq⟩
    · rw [heq]
      refine .loop ?_ ihb ihr
      intro n h
      obtain ⟨hn, c, hc, hbody⟩ := h
      have hblock : b.block = ofOps (List.replicate n (.basic c)) := eq_ofOps_of_tokens_eq (by simpa using hbody)
      refine hkept _ .clear ?_ (.clear hc hn)
      rw [replaceIdioms_of_block_eq hblock, hblock]
    · rw [heq]
      have hb := eq_of_replaceIdioms_eq hops hshape.basic.1
      rw [hb] at hops
      have hloop : (loop b r).block = (Block.loop (ofOps ops) .nil).append r.block := by
        rw [block, hops]
        rfl
      rw [hloop]
      exact .segment (Replaced.idiom hshape) ihr

end TapeMachine
