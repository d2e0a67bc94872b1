import TapeMachine.Counted
import TapeMachine.Proofs.Bracket
import TapeMachine.Tree

namespace TapeMachine

variable {α β : Type}

/-- A balanced token list: nothing, an operation and the rest, or a loop and the rest. -/
inductive Block (α : Type) where
  | nil
  | op (a : α) (rest : Block α)
  | loop (body rest : Block α)

namespace Block

def tokens : Block α → List (Token α)
  | nil => []
  | op a r => .op a :: r.tokens
  | loop b r => .opening :: (b.tokens ++ .closing :: r.tokens)

def length : Block α → Nat
  | nil => 0
  | op _ r => r.length + 1
  | loop b r => b.length + r.length + 2

def append : Block α → Block α → Block α
  | nil, c => c
  | op a r, c => op a (r.append c)
  | loop b r, c => loop b (r.append c)

def ofOps : List α → Block α
  | [] => nil
  | a :: as => op a (ofOps as)

def bind (f : α → List β) : Block α → Block β
  | nil => nil
  | op a r => (ofOps (f a)).append (r.bind f)
  | loop b r => loop (b.bind f) (r.bind f)

@[simp]
theorem length_tokens (b : Block α) : b.tokens.length = b.length := by
  induction b with
  | nil => rfl
  | op a r ih => simp [tokens, length, ih]
  | loop b r ihb ihr =>
    simp only [tokens, length, List.length_cons, List.length_append, ihb, ihr]
    omega

@[simp]
theorem tokens_append (b c : Block α) : (b.append c).tokens = b.tokens ++ c.tokens := by
  induction b with
  | nil => rfl
  | op a r ih => simp [append, tokens, ih]
  | loop b r _ ih => simp [append, tokens, ih]

theorem append_assoc (b c d : Block α) : (b.append c).append d = b.append (c.append d) := by
  induction b with
  | nil => rfl
  | op a b ih => rw [append, append, ih, append]
  | loop b c _ ih => rw [append, append, ih, append]

@[simp]
theorem tokens_ofOps (as : List α) : (ofOps as).tokens = as.map .op := by
  induction as with
  | nil => rfl
  | cons a as ih => simp [ofOps, tokens, ih]

@[simp]
theorem length_ofOps (as : List α) : (ofOps as).length = as.length := by
  rw [← length_tokens, tokens_ofOps, List.length_map]

theorem ofOps_append (as bs : List α) : ofOps (as ++ bs) = (ofOps as).append (ofOps bs) := by
  induction as with
  | nil => rfl
  | cons a as ih => rw [List.cons_append, ofOps, ih, ofOps, append]

theorem balanced_tokens (b : Block α) : Balanced b.tokens := by
  induction b with
  | nil => exact .nil
  | op a r ih => exact .op a ih
  | loop b r ihb ihr => exact .loop ihb ihr

theorem exists_tokens_eq {ts : List (Token α)} (h : Balanced ts) : ∃ b : Block α, b.tokens = ts := by
  induction h with
  | nil => exact ⟨nil, rfl⟩
  | op a _ ih =>
    obtain ⟨r, rfl⟩ := ih
    exact ⟨op a r, rfl⟩
  | loop _ _ ihb ihr =>
    obtain ⟨b, rfl⟩ := ihb
    obtain ⟨r, rfl⟩ := ihr
    exact ⟨loop b r, rfl⟩

/-- The tokens that replace a token, if each operation is replaced. -/
def bindToken (f : α → List β) : Token α → List (Token β)
  | .op a => (f a).map .op
  | .bracket b => [.bracket b]

theorem tokens_bind (f : α → List β) (b : Block α) :
    (b.bind f).tokens = b.tokens.flatMap (bindToken f) := by
  induction b with
  | nil => rfl
  | op a r ih => simp [bind, tokens, bindToken, ih]
  | loop b r ihb ihr => simp [bind, tokens, bindToken, ihb, ihr]

theorem closes_bind (f : α → List β) (ts : List (Token α)) (depth : Nat) :
    closes depth (ts.flatMap (bindToken f)) = closes depth ts := by
  have ops : ∀ (bs : List β) (us : List (Token β)) depth, closes depth (bs.map .op ++ us) = closes depth us := by
    intro bs us depth
    induction bs with
    | nil => rfl
    | cons b bs ih => exact ih
  induction ts generalizing depth with
  | nil => rfl
  | cons t ts ih =>
    rw [List.flatMap_cons]
    match t with
    | .op a =>
      rw [bindToken, ops]
      exact ih depth
    | .opening => exact ih (depth + 1)
    | .closing =>
      cases depth with
      | zero => rfl
      | succ depth => exact ih depth

/-- Built alike: from segments that `seg` relates and from loops that `kept` relates. -/
inductive Related (seg kept : Block α → Block β → Prop) : Block α → Block β → Prop where
  | nil : Related seg kept nil nil
  | segment {s b : Block α} {s' b' : Block β} : seg s s' → Related seg kept b b' →
      Related seg kept (s.append b) (s'.append b')
  | loop {b r : Block α} {b' r' : Block β} : kept b b' → Related seg kept b b' →
      Related seg kept r r' → Related seg kept (loop b r) (loop b' r')

theorem Related.symm {seg kept : Block α → Block β → Prop} {b : Block α} {b' : Block β}
    (h : Related seg kept b b') : Related (fun c c' => seg c' c) (fun c c' => kept c' c) b' b := by
  induction h with
  | nil => exact .nil
  | segment hs _ ih => exact .segment hs ih
  | loop hk _ _ ihb ihr => exact .loop hk ihb ihr

/-- Every operation comes from a segment, and the segment it is related to is part of the other block. -/
theorem Related.exists_segment {seg kept : Block α → Block β → Prop} {b : Block α} {b' : Block β}
    (h : Related seg kept b b') {a : β} (ha : .op a ∈ b'.tokens) :
    ∃ s s', seg s s' ∧ .op a ∈ s'.tokens ∧ s.tokens <:+: b.tokens := by
  induction h with
  | nil => cases ha
  | @segment s b s' b' hs _ ih =>
    rw [tokens_append]
    rw [tokens_append, List.mem_append] at ha
    rcases ha with ha | ha
    · exact ⟨s, s', hs, ha, List.infix_append_left⟩
    · obtain ⟨u, u', hu, hmem, hpart⟩ := ih ha
      exact ⟨u, u', hu, hmem, hpart.trans List.infix_append_right⟩
  | @loop b r b' r' _ _ _ ihb ihr =>
    have hbody : b.tokens <:+: (Block.loop b r).tokens := ⟨[.opening], .closing :: r.tokens, by simp [tokens]⟩
    have hrest : r.tokens <:+: (Block.loop b r).tokens := ⟨.opening :: b.tokens ++ [.closing], [], by simp [tokens]⟩
    simp only [tokens, List.mem_cons, List.mem_append] at ha
    rcases ha with ha | ha | ha | ha
    · cases ha
    · obtain ⟨u, u', hu, hmem, hpart⟩ := ihb ha
      exact ⟨u, u', hu, hmem, hpart.trans hbody⟩
    · cases ha
    · obtain ⟨u, u', hu, hmem, hpart⟩ := ihr ha
      exact ⟨u, u', hu, hmem, hpart.trans hrest⟩

theorem Related.length_le {seg kept : Block α → Block β → Prop} {b : Block α} {b' : Block β}
    (h : Related seg kept b b') (hs : ∀ s s', seg s s' → s'.length ≤ s.length) : b'.length ≤ b.length := by
  induction h with
  | nil => exact Nat.le_refl _
  | segment hseg _ ih =>
    have hle := hs _ _ hseg
    rw [← length_tokens, ← length_tokens, tokens_append, tokens_append]
    simp only [List.length_append, length_tokens]
    omega
  | loop _ _ _ ihb ihr =>
    simp only [length]
    omega

theorem related_bind {seg kept : Block α → Block β → Prop} {f : α → List β} (b : Block α)
    (hs : ∀ a, .op a ∈ b.tokens → seg (op a nil) (ofOps (f a))) (hk : ∀ c c', kept c c') :
    Related seg kept b (b.bind f) := by
  induction b with
  | nil => exact .nil
  | op a r ih =>
    exact .segment (s := op a nil) (hs a (by simp [tokens])) (ih fun a' ha' => hs a' (by simp [tokens, ha']))
  | loop b r ihb ihr =>
    exact .loop (hk _ _) (ihb fun a' ha' => hs a' (by simp [tokens, ha']))
      (ihr fun a' ha' => hs a' (by simp [tokens, ha']))

end Block

namespace Tree

def block : Tree → Block Op
  | nil => .nil
  | op o r => .op o r.block
  | loop b r => .loop b.block r.block

theorem tokens_block (t : Tree) : t.block.tokens = t.tokens := by
  induction t with
  | nil => rfl
  | op o r ih => rw [block, Block.tokens, ih, tokens]
  | loop b r ihb ihr => rw [block, Block.tokens, ihb, ihr, tokens]; rfl

def straight : List Op → Tree
  | [] => nil
  | o :: os => op o (straight os)

theorem block_straight (os : List Op) : (straight os).block = .ofOps os := by
  induction os with
  | nil => rfl
  | cons o os ih => rw [straight, block, ih, Block.ofOps]

theorem block_append (t u : Tree) : (t.append u).block = t.block.append u.block := by
  induction t with
  | nil => rfl
  | op o r ih => rw [append, block, ih, block, Block.append]
  | loop b r _ ih => rw [append, block, ih, block, Block.append]

end Tree

end TapeMachine
