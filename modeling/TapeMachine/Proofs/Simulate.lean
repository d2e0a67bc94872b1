import TapeMachine.Proofs.Run

namespace TapeMachine

variable {step step' : Step} {c c' d : Config} {io io' jo : Streams} {e e' : Ended}

/-- Goes on from one state to the other with at least one instruction. -/
def Advances (step : Step) (c : Config) (io : Streams) (c' : Config) (io' : Streams) : Prop :=
  ∃ d jo, (step c).perform io = .resume d jo ∧ Reaches step d jo c' io'

theorem Advances.of_resume (h : (step c).perform io = .resume c' io') : Advances step c io c' io' :=
  ⟨c', io', h, .refl _ _⟩

theorem Reaches.advances (h : Reaches step c io c' io') (hne : c ≠ c') : Advances step c io c' io' := by
  cases h with
  | refl => exact absurd rfl hne
  | next hs h => exact ⟨_, _, hs, h⟩

theorem Reaches.ends_of_ends (h : Reaches step c io c' io') (he : Ends step c' io' e) : Ends step c io e := by
  induction h with
  | refl => exact he
  | next hs _ ih => exact .of_resume hs (ih he)

theorem Advances.ends_of_ends (h : Advances step c io c' io') (he : Ends step c' io' e) : Ends step c io e := by
  obtain ⟨d, jo, hs, hd⟩ := h
  exact .of_resume hs (hd.ends_of_ends he)

/-- What is left of a run after some of its instructions takes no longer than the run. -/
theorem Reaches.runFor_eq {n : Nat} (h : Reaches step c io c' io') (hn : runFor step n c io = some e) :
    runFor step n c' io' = some e := by
  induction h generalizing n with
  | refl => exact hn
  | next hs _ ih =>
    cases n with
    | zero => cases hn
    | succ n =>
      rw [runFor, hs] at hn
      exact runFor_add (ih hn) 1

theorem Advances.runFor_eq {n : Nat} (h : Advances step c io c' io') (hn : runFor step (n + 1) c io = some e) :
    runFor step n c' io' = some e := by
  obtain ⟨d, jo, hs, hd⟩ := h
  rw [runFor, hs] at hn
  exact hd.runFor_eq hn

/-- The reply is matched by the machine's run from a state: the run gets to a state that is related to the one where the
reply goes on, or it ends with a result that is related to the reply's. -/
inductive Covers (step : Step) (R : Config → Streams → Config → Streams → Prop) (L : Ended → Ended → Prop)
    (c : Config) (io : Streams) : Reply → Prop where
  | resume {c' d : Config} {io' jo : Streams} : Advances step c io c' io' → R c' io' d jo →
      Covers step R L c io (.resume d jo)
  | halt {e : Ended} {d : Config} {v : Verdict} {jo : Streams} : Ends step c io e → L e ⟨v, d, jo⟩ →
      Covers step R L c io (.halt d v jo)

/-- Every instruction of the second machine in a related state is matched by the first machine. -/
def Simulates (step step' : Step) (R : Config → Streams → Config → Streams → Prop) (L : Ended → Ended → Prop) : Prop :=
  ∀ c io d jo, R c io d jo → Covers step R L c io ((step' d).perform jo)

namespace Simulates

variable {R : Config → Streams → Config → Streams → Prop} {L : Ended → Ended → Prop}

theorem exists_of_ends (h : Simulates step step' R L) (hr : R c io d jo) (he : Ends step c io e) :
    ∃ e', Ends step' d jo e' ∧ L e e' := by
  obtain ⟨n, hn⟩ := he
  -- the first machine's run gets shorter with every instruction of the second machine
  induction n generalizing c io d jo with
  | zero => cases hn
  | succ n ih =>
    have hc := h _ _ _ _ hr
    generalize hp : (step' d).perform jo = p at hc
    cases hc with
    | resume ha hr' =>
      obtain ⟨e', he', hl⟩ := ih hr' (ha.runFor_eq hn)
      exact ⟨e', .of_resume hp he', hl⟩
    | halt he hl =>
      cases he.unique ⟨_, hn⟩
      exact ⟨_, .of_halt hp, hl⟩

theorem exists_ends (h : Simulates step step' R L) (hr : R c io d jo) (he : Ends step' d jo e') :
    ∃ e, Ends step c io e ∧ L e e' := by
  obtain ⟨n, hn⟩ := he
  induction n generalizing c io d jo with
  | zero => cases hn
  | succ n ih =>
    have hc := h _ _ _ _ hr
    rw [runFor] at hn
    generalize (step' d).perform jo = p at hc hn
    cases hc with
    | resume ha hr' =>
      obtain ⟨e, he, hl⟩ := ih hr' hn
      exact ⟨e, ha.ends_of_ends he, hl⟩
    | halt he hl =>
      cases hn
      exact ⟨_, he, hl⟩

theorem ends_iff (h : Simulates step step' R L) (hr : R c io d jo) :
    ((∃ e', Ends step' d jo e') ↔ ∃ e, Ends step c io e) ∧
      ∀ e e', Ends step c io e → Ends step' d jo e' → L e e' := by
  refine ⟨⟨?_, ?_⟩, ?_⟩
  · intro he
    obtain ⟨e', he⟩ := he
    obtain ⟨e, he, -⟩ := h.exists_ends hr he
    exact ⟨e, he⟩
  · intro he
    obtain ⟨e, he⟩ := he
    obtain ⟨e', he, -⟩ := h.exists_of_ends hr he
    exact ⟨e', he⟩
  · intro e e' he he'
    obtain ⟨x, hx, hl⟩ := h.exists_of_ends hr he
    cases hx.unique he'
    exact hl

end Simulates

end TapeMachine
