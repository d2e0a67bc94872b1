import TapeMachine.Native.Compile
import TapeMachine.Proofs.Compiled
import TapeMachine.Proofs.Parse
import TapeMachine.Proofs.Replace

namespace TapeMachine

open Block Idiom

def Op.amount : Op → Nat
  | basic _ => 0
  | clear => 0
  | scan _ n => n
  | transfer _ n => n

theorem Idiom.length_roundTrip (d : Direction) (n : Nat) : (roundTrip d n).length = 2 * n + 1 := by
  simp only [roundTrip, List.length_append, List.length_cons, List.length_replicate]
  omega

theorem Idiom.Shape.amount_le {ops : List Op} {o : Op} (h : Shape ops o) : o.amount ≤ ops.length := by
  cases h with
  | scan d hn => exact Nat.le_of_eq List.length_replicate.symm
  | clear => exact Nat.zero_le _
  | @countFirst d n =>
    rw [List.length_cons, length_roundTrip, Op.amount]
    omega
  | @countLast d n =>
    rw [List.length_append, length_roundTrip, Op.amount]
    omega

namespace Tree

variable {t : Tree} {n : Nat}

theorem length_replaceIdioms_le (t : Tree) : t.replaceIdioms.block.length ≤ t.block.length := by
  refine t.related_replaceIdioms.length_le ?_
  intro s s' hs
  cases hs with
  | same => exact Nat.le_refl _
  | idiom =>
    simp only [Block.length]
    omega

/-- An operation of the new tree was there before, or it stands for a loop that was. -/
theorem op_replaceIdioms_cases {o : Op} (ho : .op o ∈ t.replaceIdioms.tokens) :
    .op o ∈ t.tokens ∨ ∃ ops, Shape ops o ∧ (Block.loop (ofOps ops) .nil).tokens <:+: t.tokens := by
  rw [← tokens_block] at ho ⊢
  obtain ⟨s, s', hs, hmem, hpart⟩ := t.related_replaceIdioms.exists_segment ho
  cases hs with
  | same p =>
    obtain rfl : o = p := by simpa [Block.tokens] using hmem
    exact .inl (hpart.subset (by simp [Block.tokens]))
  | @idiom ops p hshape =>
    obtain rfl : o = p := by simpa [Block.tokens] using hmem
    exact .inr ⟨ops, hshape, hpart⟩

theorem amount_replaceIdioms_le (ht : ∀ o, .op o ∈ t.tokens → o.amount ≤ t.block.length) {o : Op}
    (ho : .op o ∈ t.replaceIdioms.tokens) : o.amount ≤ t.block.length := by
  rcases op_replaceIdioms_cases ho with hmem | ⟨ops, hshape, hpart⟩
  · exact ht o hmem
  · have hlen := hpart.length_le
    have hamount := hshape.amount_le
    rw [← tokens_block, length_tokens, length_tokens] at hlen
    simp only [Block.length, length_ofOps] at hlen
    omega

end Tree

theorem Tree.countsWithin_iff {limit : Nat} {rs : List (Token (Counted Op))} :
    Tree.countsWithin limit rs = true ↔ ∀ r, .op r ∈ rs → r.count ≤ limit := by
  rw [Tree.countsWithin, List.all_eq_true]
  constructor
  · intro h r hr
    exact of_decide_eq_true (h _ hr)
  · intro h c hc
    cases c with
    | op r => exact decide_eq_true (h r hc)
    | bracket => rfl

/-- A run is counted at least once and no longer than the program. -/
theorem Block.fold_bounds {α : Type} [DecidableEq α] {b : Block α} {r : Counted α} (hr : .op r ∈ b.fold.tokens) :
    0 < r.count ∧ r.count ≤ b.length ∧ .op r.op ∈ b.tokens := by
  obtain ⟨s, s', ⟨a, n, hn⟩, hmem, hpart⟩ := (related_fold b).exists_segment hr
  obtain rfl : r = ⟨a, n⟩ := by simpa [tokens] using hmem
  have hlen := hpart.length_le
  rw [length_tokens, length_tokens, length_ofOps, List.length_replicate] at hlen
  refine ⟨hn, hlen, hpart.subset ?_⟩
  rw [tokens_ofOps, List.map_replicate]
  exact List.mem_replicate.mpr ⟨Nat.ne_of_gt hn, rfl⟩

theorem Lowered.compilable_ofCounted {r : Counted Op} (hr : 0 < r.count) (hc : r.count ≤ maxOffset)
    (ha : r.op.amount ≤ maxOffset) : (ofCounted r).Compilable := by
  obtain ⟨o, n⟩ := r
  match o with
  | .basic (.move _) => exact hc
  | .basic .increment => trivial
  | .basic .decrement => trivial
  | .basic .read => trivial
  | .basic .write => trivial
  | .clear => trivial
  | .scan _ _ => exact ⟨hr, ha⟩
  | .transfer _ _ => exact ⟨hr, ha⟩

section Room

variable {α : Type}

theorem Block.length_fold_le [DecidableEq α] (b : Block α) : b.fold.length ≤ b.length := by
  refine (related_fold b).length_le ?_
  intro s s' hs
  obtain ⟨a, n, hn⟩ := hs
  rw [length_ofOps, List.length_replicate]
  exact hn

theorem Lowered.length_natives_le {r : Counted Op} (hr : 0 < r.count) : (ofCounted r).natives.length ≤ r.count := by
  obtain ⟨o, n⟩ := r
  match o with
  | .basic (.move _) => exact hr
  | .basic .increment => exact hr
  | .basic .decrement => exact hr
  | .basic .read => exact Nat.le_of_eq List.length_replicate
  | .basic .write => exact Nat.le_of_eq List.length_replicate
  | .clear => exact hr
  | .scan _ _ => exact hr
  | .transfer _ _ => exact hr

theorem length_flatMap_le {β γ : Type} {f : α → List β} {g : α → List γ} {xs : List α}
    (h : ∀ x ∈ xs, (f x).length ≤ (g x).length) : (xs.flatMap f).length ≤ (xs.flatMap g).length := by
  induction xs with
  | nil => exact Nat.le_refl _
  | cons x xs ih =>
    have hx := h x List.mem_cons_self
    have hxs := ih fun y hy => h y (List.mem_cons_of_mem x hy)
    rw [List.flatMap_cons, List.flatMap_cons, List.length_append, List.length_append]
    omega

/-- What is emitted for counted operations takes no more room than the operations that they count. -/
theorem length_natives_le {ts : List (Token (Counted Op))} (hts : ∀ r, .op r ∈ ts → 0 < r.count) :
    ((ts.map (Token.map Lowered.ofCounted)).flatMap (Block.bindToken Lowered.natives)).length ≤
      (ts.flatMap Token.expand).length := by
  rw [List.flatMap_map]
  refine length_flatMap_le ?_
  intro t ht
  cases t with
  | op r =>
    have hone := Lowered.length_natives_le (hts r ht)
    simpa [Block.bindToken, Token.map, Token.expand] using hone
  | bracket b => exact Nat.le_refl _

end Room

theorem Source.length_commands_le (text : String) : (commands text).length ≤ text.length := by
  rw [commands, ← String.length_toList]
  exact List.length_filterMap_le _ _

section Source

variable {text : String} {t : Tree} (ht : Tree.ofSource text = .ok t)

include ht

theorem Tree.length_block_le : t.block.length ≤ text.length := by
  rw [← length_tokens, tokens_block, Tree.ofSource_eq_ok_iff.mp ht, List.length_map]
  exact Source.length_commands_le text

theorem Tree.exists_basic {o : Op} (ho : .op o ∈ t.tokens) : ∃ b, o = .basic b := by
  rw [Tree.ofSource_eq_ok_iff.mp ht, List.mem_map] at ho
  obtain ⟨c, -, hc⟩ := ho
  cases c with
  | op b => exact ⟨b, (Token.op.inj hc).symm⟩
  | bracket b => cases hc

/-- Every count and every amount of the optimised program is at most the length of the text. -/
theorem Tree.program_bounds {r : Counted Op} (hr : .op r ∈ t.program.tokens) :
    0 < r.count ∧ r.count ≤ text.length ∧ r.op.amount ≤ text.length := by
  rw [Tree.program, Tree.optimise_eq_replaceIdioms] at hr
  obtain ⟨hpos, hcount, hop⟩ := fold_bounds hr
  rw [Tree.tokens_block] at hop
  have hlen := Tree.length_block_le ht
  have hle := t.length_replaceIdioms_le
  have hbasic : ∀ o, .op o ∈ t.tokens → o.amount ≤ t.block.length := by
    intro o ho
    obtain ⟨b, rfl⟩ := Tree.exists_basic ht ho
    exact Nat.zero_le _
  have hamount := Tree.amount_replaceIdioms_le hbasic hop
  omega

/-- No more operations are emitted for the optimised program than there are characters. -/
theorem Tree.length_natives_le :
    (t.optimise.lower.flatMap (Block.bindToken Lowered.natives)).length ≤ text.length := by
  have hemitted := TapeMachine.length_natives_le fun r hr => (Tree.program_bounds ht hr).1
  have hreplace := t.length_replaceIdioms_le
  have hblock := Tree.length_block_le ht
  rw [← Tree.lower_optimise, Tree.program, Block.tokens_fold, flatMap_expand_foldRuns, Tree.optimise_eq_replaceIdioms,
    t.replaceIdioms.block.length_tokens] at hemitted
  rw [Tree.optimise_eq_replaceIdioms]
  omega

variable (hlen : text.length ≤ maxOffset)

include hlen

theorem Tree.compilable_lower {o : Lowered} (ho : .op o ∈ t.optimise.lower) : o.Compilable := by
  rw [Tree.lower_optimise, List.mem_map] at ho
  obtain ⟨c, hc, hco⟩ := ho
  cases c with
  | bracket b => cases hco
  | op r =>
    cases hco
    obtain ⟨hpos, hcount, hamount⟩ := Tree.program_bounds ht hc
    exact Lowered.compilable_ofCounted hpos (Nat.le_trans hcount hlen) (Nat.le_trans hamount hlen)

theorem Native.loweredSource_eq : loweredSource text = .ok t.optimise.lower := by
  have hwithin : Tree.countsWithin maxAmount t.optimise.runs = true := by
    rw [Tree.countsWithin_iff, ← Tree.tokens_program]
    intro r hr
    have hcount := (Tree.program_bounds ht hr).2.1
    have hmax : maxOffset ≤ maxAmount := by decide
    omega
  simp only [loweredSource, ht, Tree.lowerWithin?, hwithin, if_true, Tree.lower]

end Source

end TapeMachine
