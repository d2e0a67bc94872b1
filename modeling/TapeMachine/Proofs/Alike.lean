import TapeMachine.Engine.Idiomatic
import TapeMachine.Proofs.Refine

namespace TapeMachine

/-- The verdict without the place of a move off the tape. -/
def Verdict.unplaced : Verdict → Verdict
  | failed (.outOfBounds _) => failed (.outOfBounds none)
  | v => v

theorem Verdict.unplaced_unplaced (v : Verdict) : v.unplaced.unplaced = v.unplaced := by
  cases v with
  | failed f => cases f <;> rfl
  | _ => rfl

theorem Verdict.eq_done_of_unplaced {v : Verdict} (h : v.unplaced = .done) : v = .done := by
  cases v with
  | done => rfl
  | failed f => cases f <;> cases h
  | crashed => cases h

/-- The head would have left the tape. -/
def Verdict.Off (v : Verdict) : Prop := v.unplaced = .failed (.outOfBounds none)

structure Ended.Alike (δ : Tape → Tape → Prop) (e e' : Ended) : Prop where
  verdict : e.verdict.unplaced = e'.verdict.unplaced
  io : e.io = e'.io
  tape : ¬ e.verdict.Off → e.config.tape = e'.config.tape
  off : e.verdict.Off → δ e.config.tape e'.config.tape

def Exit.Alike (δ : Tape → Tape → Prop) : Exit → Exit → Prop
  | ended e, ended e' => e.Alike δ e'
  | met c io, met c' io' => c.tape = c'.tape ∧ io = io'
  | _, _ => False

namespace Exit.Alike

variable {δ δ' δ'' : Tape → Tape → Prop}

theorem done (n m : Nat) (t : Tape) (io : Streams) :
    (ended ⟨.done, ⟨n, t⟩, io⟩).Alike δ (ended ⟨.done, ⟨m, t⟩, io⟩) :=
  ⟨rfl, rfl, fun _ => rfl, fun h => by cases h⟩

theorem mono (hδ : ∀ t u, δ t u → δ' t u) {x y : Exit} (h : x.Alike δ y) : x.Alike δ' y := by
  cases x with
  | ended e =>
    cases y with
    | ended e' => exact ⟨h.verdict, h.io, h.tape, fun hv => hδ _ _ (h.off hv)⟩
    | met => exact h
  | met => cases y <;> exact h

theorem symm (hδ : ∀ t u, δ t u → δ u t) {x y : Exit} (h : x.Alike δ y) : y.Alike δ x := by
  cases x with
  | ended e =>
    cases y with
    | ended e' =>
      have hv : ∀ {v v' : Verdict}, v.unplaced = v'.unplaced → v'.Off → v.Off := fun h h' => h.trans h'
      exact ⟨h.verdict.symm, h.io.symm, fun hn => (h.tape (mt (hv h.verdict.symm) hn)).symm,
        fun ho => hδ _ _ (h.off (hv h.verdict ho))⟩
    | met => exact h
  | met =>
    cases y with
    | ended => exact h
    | met => exact ⟨h.1.symm, h.2.symm⟩

theorem trans {x y z : Exit} (h : x.Alike δ y) (h' : y.Alike δ' z)
    (hδ : ∀ t u v, δ t u → δ' u v → δ'' t v) : x.Alike δ'' z := by
  cases y with
  | ended e' =>
    cases x with
    | met => exact h.elim
    | ended e =>
      cases z with
      | met => exact h'.elim
      | ended e'' =>
        have hv : e.verdict.Off ↔ e'.verdict.Off := by rw [Verdict.Off, h.verdict, Verdict.Off]
        exact ⟨h.verdict.trans h'.verdict, h.io.trans h'.io,
          fun hn => (h.tape hn).trans (h'.tape (mt hv.mpr hn)),
          fun ho => hδ _ _ _ (h.off ho) (h'.off (hv.mp ho))⟩
  | met =>
    cases x with
    | ended => exact h.elim
    | met =>
      cases z with
      | ended => exact h'.elim
      | met => exact ⟨h.1.trans h'.1, h.2.trans h'.2⟩

end Exit.Alike

/-- The replies to two instructions, one at index `i` and one at index `j`. -/
inductive Reply.Alike (δ : Tape → Tape → Prop) (i j : Nat) : Reply → Reply → Prop where
  | stay (t : Tape) (io : Streams) : Alike δ i j (.resume ⟨i, t⟩ io) (.resume ⟨j, t⟩ io)
  | next (t : Tape) (io : Streams) : Alike δ i j (.resume ⟨i + 1, t⟩ io) (.resume ⟨j + 1, t⟩ io)
  | halt {c c' : Config} {v v' : Verdict} {io io' : Streams} :
      Ended.Alike δ ⟨v, c, io⟩ ⟨v', c', io'⟩ → Alike δ i j (.halt c v io) (.halt c' v' io')

theorem Meaning.instruction.alike {f g : Config → Action} {seen seen' : Tape → Prop} {i j : Nat}
    {δ : Tape → Tape → Prop}
    (h : ∀ t io, Reply.Alike δ i j ((f ⟨i, t⟩).perform io) ((g ⟨j, t⟩).perform io))
    (hs : ∀ t, seen t → seen' t) {r : Runtime} {o : Passage} (ho : instruction f seen i r o) :
    (∃ r', o = .passed r' ∧ instruction g seen' j r (.passed r')) ∨
      ∃ x y, o = .left x ∧ x.Alike δ y ∧ instruction g seen' j r (.left y) := by
  induction ho with
  | @met r hm => exact .inr ⟨_, .met ⟨j, r.tape⟩ r.io, rfl, ⟨rfl, rfl⟩, .met (hs _ hm)⟩
  | @pass r t io hp =>
    have hr := h r.tape r.io
    rw [hp] at hr
    generalize hq : (g ⟨j, r.tape⟩).perform r.io = q at hr
    cases hr with
    | next => exact .inl ⟨_, rfl, .pass hq⟩
  | @leave r c v io hp =>
    have hr := h r.tape r.io
    rw [hp] at hr
    generalize hq : (g ⟨j, r.tape⟩).perform r.io = q at hr
    cases hr with
    | @halt _ c' _ v' _ io' he => exact .inr ⟨_, .ended ⟨v', c', io'⟩, rfl, he, .leave hq⟩
  | @again r t io o hp _ ih =>
    have hr := h r.tape r.io
    rw [hp] at hr
    generalize hq : (g ⟨j, r.tape⟩).perform r.io = q at hr
    cases hr with
    | stay =>
      rcases ih with ⟨r', rfl, hg⟩ | ⟨x, y, rfl, hxy, hg⟩
      · exact .inl ⟨r', rfl, .again hq hg⟩
      · exact .inr ⟨x, y, rfl, hxy, .again hq hg⟩

theorem Refines.instruction {f g : Config → Action} {seen seen' : Tape → Prop} {i j : Nat}
    {δ : Tape → Tape → Prop} {away : Exit → Prop}
    (h : ∀ t io, Reply.Alike δ i j ((f ⟨i, t⟩).perform io) ((g ⟨j, t⟩).perform io))
    (hs : ∀ t, seen t → seen' t) :
    Refines (Exit.Alike δ) away (.instruction f seen i) (.instruction g seen' j) := by
  constructor
  · intro r r' ha
    rcases ha.alike h hs with ⟨r'', hr, hg⟩ | ⟨x, y, hx, -, -⟩
    · cases hr
      exact .inl hg
    · cases hx
  · intro r x ha
    rcases ha.alike h hs with ⟨r', hr, -⟩ | ⟨x', y, hx, hxy, hg⟩
    · cases hr
    · cases hx
      exact ⟨y, .inl hxy, hg⟩

theorem Block.Leaves.ended {α β : Type} {act : α → Config → Action} {act' : β → Config → Action} {w : Watch α}
    {w' : Watch β} {b : Block α} {b' : Block β} {r : Runtime} {e : Ended} {δ : Tape → Tape → Prop}
    (h : b.Leaves act w r (.ended e))
    (hr : Refines (Exit.Alike δ) Exit.none (b.meaning act w 0) (b'.meaning act' w' 0)) :
    ∃ e', e.Alike δ e' ∧ b'.Leaves act' w' r (.ended e') := by
  obtain ⟨y, hy | hy, hl⟩ := h.refine hr .done
  · cases y with
    | met => exact hy.elim
    | ended e' => exact ⟨e', hy, hl⟩
  · exact hy.elim

/-- Two instructions always do alike, and with the same tape in the end, wherever they stand. -/
def ActAlike (f g : Config → Action) : Prop :=
  ∀ i j t io, Reply.Alike Eq i j ((f ⟨i, t⟩).perform io) ((g ⟨j, t⟩).perform io)

theorem Reply.Alike.mono {δ δ' : Tape → Tape → Prop} (hδ : ∀ t u, δ t u → δ' t u) {i j : Nat} {p q : Reply}
    (h : Reply.Alike δ i j p q) : Reply.Alike δ' i j p q := by
  cases h with
  | stay => exact .stay _ _
  | next => exact .next _ _
  | halt he => exact .halt ⟨he.verdict, he.io, he.tape, fun ho => hδ _ _ (he.off ho)⟩

theorem Reply.Alike.fail {δ : Tape → Tape → Prop} (hδ : ∀ t, δ t t) {v v' : Verdict}
    (hv : v.unplaced = v'.unplaced) (i j k l : Nat) (t : Tape) (io : Streams) :
    Reply.Alike δ i j (.halt ⟨k, t⟩ v io) (.halt ⟨l, t⟩ v' io) :=
  .halt ⟨hv, rfl, fun _ => rfl, fun _ => hδ t⟩

namespace ActAlike

variable {f g : Config → Action} {F G : Config → Failure} {p q : Nat}

theorem symm (h : ActAlike f g) : ActAlike g f := by
  intro i j t io
  have hr := h j i t io
  generalize (f ⟨j, t⟩).perform io = p at hr
  generalize (g ⟨i, t⟩).perform io = q at hr
  cases hr with
  | stay => exact .stay _ _
  | next => exact .next _ _
  | halt he =>
    have hs := Exit.Alike.symm (x := .ended _) (y := .ended _) (fun _ _ h => h.symm) he
    exact .halt hs

theorem update (u : Tape → Tape) : ActAlike (Config.update · u) (Config.update · u) :=
  fun _ _ _ _ => .next _ _

section Refusal

variable (hF : ∀ c c', (Verdict.failed (F c)).unplaced = (Verdict.failed (G c')).unplaced) (d : Direction) (n : Nat)

include hF

theorem moveBy : ActAlike (fun c => c.moveBy d n (F c)) fun c => c.moveBy d n (G c) := by
  intro i j t io
  simp only [Config.moveBy]
  cases t.move? d n with
  | some u => exact .next _ _
  | none => exact .fail (fun _ => rfl) (hF _ _) _ _ _ _ _ _

theorem scanBy : ActAlike (fun c => c.scanBy d n (F c)) fun c => c.scanBy d n (G c) := by
  intro i j t io
  simp only [Config.scanBy]
  by_cases hz : t.current = 0
  · simp only [hz, if_true]
    exact .next _ _
  · simp only [hz, if_false]
    cases t.move? d n with
    | some u => exact .stay _ _
    | none => exact .fail (fun _ => rfl) (hF _ _) _ _ _ _ _ _

theorem transferBy : ActAlike (fun c => c.transferBy d n (F c)) fun c => c.transferBy d n (G c) := by
  intro i j t io
  simp only [Config.transferBy]
  by_cases hz : t.current = 0
  · simp only [hz, if_true]
    exact .next _ _
  · simp only [hz, if_false]
    cases t.cellAt? d n with
    | some k => exact .next _ _
    | none => exact .fail (fun _ => rfl) (hF _ _) _ _ _ _ _ _

end Refusal

theorem readEach (n : Nat) : ActAlike (Idiomatic.readEach · n) (Idiomatic.readEach · n) := by
  intro i j t io
  induction n generalizing t io with
  | zero => exact .next _ _
  | succ n ih =>
    simp only [Idiomatic.readEach, Action.perform]
    split
    · exact ih _ _
    · exact .fail (fun _ => rfl) rfl _ _ _ _ _ _

theorem writeEach (n : Nat) : ActAlike (Idiomatic.writeEach · n) (Idiomatic.writeEach · n) := by
  intro i j t io
  induction n generalizing io with
  | zero => exact .next _ _
  | succ n ih =>
    simp only [Idiomatic.writeEach, Action.perform]
    split
    · split
      · exact ih _
      · exact .fail (fun _ => rfl) rfl _ _ _ _ _ _
    · exact .fail (fun _ => rfl) rfl _ _ _ _ _ _

theorem idiomatic (o : Lowered) : ActAlike (Idiomatic.act o) (Idiomatic.act o) := by
  have hF : ∀ c c' : Config,
      (Verdict.failed c.outOfBounds).unplaced = (Verdict.failed c'.outOfBounds).unplaced :=
    fun _ _ => rfl
  match o with
  | .counted (.move d) n => exact moveBy hF d n
  | .counted .increment n => exact update (·.add n)
  | .counted .decrement n => exact update (·.sub n)
  | .counted .read n => exact readEach n
  | .counted .write n => exact writeEach n
  | .clear => exact update (·.set 0)
  | .scan 0 _ _ => exact update id
  | .scan (count + 1) d n =>
    rw [Idiomatic.act_scan]
    exact scanBy hF d n
  | .transfer 0 _ _ => exact update id
  | .transfer (count + 1) d n =>
    rw [Idiomatic.act_transfer]
    exact transferBy hF d n

end ActAlike

end TapeMachine
