import TapeMachine.Action

namespace TapeMachine

variable {step : Step}

inductive Reaches (step : Step) : Config → Streams → Config → Streams → Prop where
  | refl (c : Config) (io : Streams) : Reaches step c io c io
  | next {c c' c'' : Config} {io io' io'' : Streams} : (step c).perform io = .resume c' io' →
      Reaches step c' io' c'' io'' → Reaches step c io c'' io''

inductive Exit where
  | ended (e : Ended)
  | met (c : Config) (io : Streams)

/-- The run from a state is left by the exit after at most `n` instructions, if `seen` is looked for. -/
inductive Shows (step : Step) (seen : Config → Prop) : Nat → Config → Streams → Exit → Prop where
  | met {n : Nat} {c : Config} {io : Streams} : seen c → Shows step seen n c io (.met c io)
  | ended {n : Nat} {c c' : Config} {io io' : Streams} {v : Verdict} :
      (step c).perform io = .halt c' v io' → Shows step seen n c io (.ended ⟨v, c', io'⟩)
  | next {n : Nat} {c c' : Config} {io io' : Streams} {x : Exit} :
      (step c).perform io = .resume c' io' → Shows step seen n c' io' x →
        Shows step seen (n + 1) c io x

theorem Shows.succ {seen : Config → Prop} {n : Nat} {c : Config} {io : Streams} {x : Exit}
    (h : Shows step seen n c io x) : Shows step seen (n + 1) c io x := by
  induction h with
  | met h => exact .met h
  | ended h => exact .ended h
  | next h _ ih => exact .next h ih

theorem Ends.of_halt {c c' : Config} {io io' : Streams} {v : Verdict}
    (h : (step c).perform io = .halt c' v io') : Ends step c io ⟨v, c', io'⟩ :=
  ⟨1, by simp [runFor, h]⟩

theorem Ends.of_resume {c c' : Config} {io io' : Streams} {e : Ended}
    (h : (step c).perform io = .resume c' io') (he : Ends step c' io' e) : Ends step c io e := by
  obtain ⟨n, hn⟩ := he
  exact ⟨n + 1, by simp [runFor, h, hn]⟩

theorem Ends.resume {c c' : Config} {io io' : Streams} {e : Ended}
    (h : (step c).perform io = .resume c' io') (he : Ends step c io e) : Ends step c' io' e := by
  obtain ⟨n, hn⟩ := he
  cases n with
  | zero => cases hn
  | succ n =>
    simp only [runFor, h] at hn
    exact ⟨n, hn⟩

theorem Ends.verdict {q : Verdict → Prop} {c : Config} {io : Streams} {e : Ended} (he : Ends step c io e)
    (h : ∀ c io c' v io', (step c).perform io = .halt c' v io' → q v) : q e.verdict := by
  obtain ⟨n, hn⟩ := he
  induction n generalizing c io with
  | zero => cases hn
  | succ n ih =>
    rw [runFor] at hn
    split at hn
    · exact ih hn
    · rename_i hp
      cases hn
      exact h _ _ _ _ _ hp

namespace Reaches

theorem trans {c c' c'' : Config} {io io' io'' : Streams} (h : Reaches step c io c' io')
    (h' : Reaches step c' io' c'' io'') : Reaches step c io c'' io'' := by
  induction h with
  | refl => exact h'
  | next hs _ ih => exact .next hs (ih h')

theorem ends {c c' : Config} {io io' : Streams} {e : Ended} (h : Reaches step c io c' io')
    (he : Ends step c io e) : Ends step c' io' e := by
  induction h with
  | refl => exact he
  | next hs _ ih => exact ih (he.resume hs)

end Reaches

theorem ends_iff_shows {seen : Config → Prop} {c : Config} {io : Streams} {e : Ended} :
    Ends step c io e ↔ ∃ n, Shows step seen n c io (.ended e) := by
  constructor
  · intro h
    obtain ⟨n, hn⟩ := h
    refine ⟨n, ?_⟩
    induction n generalizing c io with
    | zero => cases hn
    | succ n ih =>
      rw [runFor] at hn
      split at hn
      · exact .next ‹_› (ih hn)
      · cases hn
        exact .ended ‹_›
  · intro h
    obtain ⟨n, hn⟩ := h
    generalize hx : Exit.ended e = x at hn
    induction hn with
    | met => cases hx
    | ended h => cases hx; exact .of_halt h
    | next h _ ih => exact .of_resume h (ih hx)

theorem reaches_iff_shows {seen : Config → Prop} {c c' : Config} {io io' : Streams} :
    Reaches step c io c' io' ∧ seen c' ↔ ∃ n, Shows step seen n c io (.met c' io') := by
  constructor
  · intro hs
    obtain ⟨h, hc⟩ := hs
    induction h with
    | refl => exact ⟨0, .met hc⟩
    | next hs _ ih =>
      obtain ⟨n, hn⟩ := ih hc
      exact ⟨n + 1, .next hs hn⟩
  · intro h
    obtain ⟨n, hn⟩ := h
    generalize hx : Exit.met c' io' = x at hn
    induction hn with
    | met h => cases hx; exact ⟨.refl _ _, h⟩
    | ended => cases hx
    | next h _ ih =>
      obtain ⟨hr, hc⟩ := ih hx
      exact ⟨.next h hr, hc⟩

end TapeMachine
