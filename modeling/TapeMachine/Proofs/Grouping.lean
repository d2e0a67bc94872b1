import TapeMachine.Engine.Grouped
import TapeMachine.Proofs.Optimiser

namespace TapeMachine

/-- The same verdict, but for the numbers by which a move off the tape is reported. -/
inductive Verdict.Renumbered (q : Nat → Nat → Prop) : Verdict → Verdict → Prop where
  | same {v : Verdict} : ¬ v.Off → Renumbered q v v
  | off {n k : Nat} : q n k → Renumbered q (.failed (.outOfBounds (some n))) (.failed (.outOfBounds (some k)))

namespace Verdict.Renumbered

variable {p q r : Nat → Nat → Prop} {u v w : Verdict}

theorem mono (h : Renumbered p u v) (hpq : ∀ n k, p n k → q n k) : Renumbered q u v := by
  cases h with
  | same hv => exact .same hv
  | off h => exact .off (hpq _ _ h)

theorem trans (h : Renumbered p u v) (h' : Renumbered q v w) (hr : ∀ m n k, p m n → q n k → r m k) :
    Renumbered r u w := by
  cases h with
  | same hv =>
    cases h' with
    | same => exact .same hv
    | off => exact absurd rfl hv
  | off h =>
    cases h' with
    | same hv => exact absurd rfl hv
    | off h' => exact .off (hr _ _ _ h h')

/-- Instructions that report a move off the tape by where they stand. -/
theorem of_fitsAt {a a' : Action} {c c' d d' : Config} {io io' jo jo' : Streams} (h : a.FitsAt c c.outOfBounds)
    (h' : a'.FitsAt c' c'.outOfBounds) (hu : a.perform io = .halt d u io') (hv : a'.perform jo = .halt d' v jo')
    (huv : u.unplaced = v.unplaced) : Renumbered (fun n k => n = c.pc ∧ k = c'.pc) u v := by
  have hl := h.perform io
  rw [hu] at hl
  have hl' := h'.perform jo
  rw [hv] at hl'
  obtain ⟨f, rfl, rfl | ⟨s, rfl⟩⟩ := hl
  · obtain ⟨f', rfl, rfl | ⟨s', rfl⟩⟩ := hl'
    · exact .off ⟨rfl, rfl⟩
    · cases huv
  · obtain ⟨f', rfl, rfl | ⟨s', rfl⟩⟩ := hl'
    · cases huv
    · cases huv
      exact .same nofun

end Verdict.Renumbered

section Repeated

variable {step : Step} {ts : List Command}

/-- The reply of an instruction at index `j` is matched by a run of `n` commands from index `i` on. -/
inductive Spans (step : Step) (i n j : Nat) (t : Tape) (io : Streams) : Reply → Prop where
  | resume {u : Tape} {io' : Streams} : Reaches step ⟨i, t⟩ io ⟨i + n, u⟩ io' →
      Spans step i n j t io (.resume ⟨j + 1, u⟩ io')
  | halt {e : Ended} {d : Config} {v : Verdict} {io' : Streams} : Ends step ⟨i, t⟩ io e → e.io = io' →
      e.verdict.Renumbered (fun m k => i ≤ m ∧ m < i + n ∧ k = j) v → Spans step i n j t io (.halt d v io')

theorem Follows.spans (hf : Follows step Basic.act ts) {b : Basic} {n i : Nat}
    (hts : ∀ m, m < n → ts[i + m]? = some (.op b)) (j : Nat) (t : Tape) (io : Streams) :
    Spans step i n j t io ((Idiomatic.act (.counted b n) ⟨j, t⟩).perform io) := by
  -- from the side of the first command, so that the rest is a run from the next index
  induction n generalizing i t io with
  | zero =>
    rw [perform_counted_zero]
    exact .resume (.refl _ _)
  | succ n ih =>
    have hstep : step ⟨i, t⟩ = b.act ⟨i, t⟩ := hf.op (hts 0 (Nat.succ_pos n))
    have hfirst := ActAlike.basic b i j t io
    rw [act_basic, ← hstep] at hfirst
    generalize hp : (step ⟨i, t⟩).perform io = p at hfirst
    rcases perform_counted_succ b n j t io with ⟨t', io', hone, hrest⟩ | ⟨c, v, io', hone, hall⟩
    · rw [hone] at hfirst
      cases hfirst with
      | next =>
        have hbehind : ∀ m, m < n → ts[i + 1 + m]? = some (.op b) := by
          intro m hm
          have h := hts (m + 1) (Nat.succ_lt_succ hm)
          rwa [show i + (m + 1) = i + 1 + m by omega] at h
        have htail := ih hbehind t' io'
        generalize hq : (Idiomatic.act (.counted b n) ⟨j, t'⟩).perform io' = q at hrest htail
        generalize hr : (Idiomatic.act (.counted b (n + 1)) ⟨j, t⟩).perform io = r at hrest
        cases htail with
        | resume h =>
          cases hrest with
          | next =>
            rw [Nat.add_assoc, Nat.add_comm 1] at h
            exact .resume (.next hp h)
        | halt he hio hv =>
          cases hrest with
          | halt halike =>
            have hsame := Verdict.Renumbered.of_fitsAt (fitsAt_idiomatic _ _) (fitsAt_idiomatic _ _) hq hr halike.verdict
            refine .halt (.of_resume hp he) (hio.trans halike.io) (hv.trans hsame ?_)
            intro m k l hm hk
            obtain ⟨-, rfl⟩ := hk
            omega
    · rw [hone] at hfirst
      rw [hall]
      cases hfirst with
      | halt halike =>
        rw [hstep] at hp
        have hplace := Verdict.Renumbered.of_fitsAt (fitsAt_basic _ _) (fitsAt_idiomatic _ _) hp hone halike.verdict
        refine .halt (.of_halt (hstep ▸ hp)) halike.io (hplace.mono ?_)
        intro m k hm
        obtain ⟨rfl, rfl⟩ := hm
        exact ⟨Nat.le_refl _, Nat.lt_add_of_pos_right (Nat.succ_pos n), rfl⟩

end Repeated

/-- Streams that never fail to flush and have dealt with the same bytes. -/
structure Streams.SameBytes (io jo : Streams) : Prop where
  input : io.input = jo.input
  faults : io.faults = jo.faults
  consumed : io.consumed = jo.consumed
  written : io.written = jo.written
  flushFail : io.faults.flushFail = none

namespace Streams.SameBytes

variable {io jo : Streams}

theorem of_flushFail (h : io.faults.flushFail = none) : io.SameBytes io :=
  ⟨rfl, rfl, rfl, rfl, h⟩

theorem read (h : io.SameBytes jo) :
    ∃ x io' jo', io.read = (x, io') ∧ jo.read = (x, jo') ∧ io'.SameBytes jo' := by
  obtain ⟨input, faults, consumed, written, flushes⟩ := io
  obtain ⟨input', faults', consumed', written', flushes'⟩ := jo
  obtain ⟨rfl, rfl, rfl, rfl, hf⟩ := h
  unfold Streams.read
  cases begun faults.readFail consumed with
  | true => exact ⟨_, _, _, rfl, rfl, rfl, rfl, rfl, rfl, hf⟩
  | false =>
    cases input with
    | nil => exact ⟨_, _, _, rfl, rfl, rfl, rfl, rfl, rfl, hf⟩
    | cons b rest => exact ⟨_, _, _, rfl, rfl, rfl, rfl, rfl, rfl, hf⟩

theorem write (h : io.SameBytes jo) (b : UInt8) :
    ∃ x io' jo', io.write b = (x, io') ∧ jo.write b = (x, jo') ∧ io'.SameBytes jo' := by
  obtain ⟨input, faults, consumed, written, flushes⟩ := io
  obtain ⟨input', faults', consumed', written', flushes'⟩ := jo
  obtain ⟨rfl, rfl, rfl, rfl, hf⟩ := h
  unfold Streams.write
  cases begun faults.writeFail written.size with
  | true => exact ⟨_, _, _, rfl, rfl, rfl, rfl, rfl, rfl, hf⟩
  | false =>
    cases begun faults.writeFull written.size with
    | true => exact ⟨_, _, _, rfl, rfl, rfl, rfl, rfl, rfl, hf⟩
    | false => exact ⟨_, _, _, rfl, rfl, rfl, rfl, rfl, rfl, hf⟩

theorem flush_left (h : io.SameBytes jo) : ∃ io', io.flush = (none, io') ∧ io'.SameBytes jo := by
  refine ⟨{ io with flushes := io.flushes + 1 }, ?_, h.input, h.faults, h.consumed, h.written, h.flushFail⟩
  simp only [Streams.flush, begun, h.flushFail, Bool.false_eq_true, if_false]

theorem flush_right (h : io.SameBytes jo) : ∃ jo', jo.flush = (none, jo') ∧ io.SameBytes jo' := by
  have hf : jo.faults.flushFail = none := h.faults ▸ h.flushFail
  refine ⟨{ jo with flushes := jo.flushes + 1 }, ?_, h.input, h.faults, h.consumed, h.written, h.flushFail⟩
  simp only [Streams.flush, begun, hf, Bool.false_eq_true, if_false]

end Streams.SameBytes

/-- Replies that go on in the same configuration or halt with the same verdict. -/
inductive Reply.SameBytes : Reply → Reply → Prop where
  | resume {c : Config} {io jo : Streams} : io.SameBytes jo → SameBytes (.resume c io) (.resume c jo)
  | halt {c d : Config} {v : Verdict} {io jo : Streams} : io.SameBytes jo → SameBytes (.halt c v io) (.halt d v jo)

namespace Grouped

variable {io jo : Streams}

theorem readLast_sameBytes (n pc : Nat) (t : Tape) (last : UInt8) (h : io.SameBytes jo) :
    Reply.SameBytes ((Idiomatic.readEach ⟨pc, t.set last⟩ n).perform io) ((readLast ⟨pc, t⟩ last n).perform jo) := by
  induction n generalizing last io jo with
  | zero => exact .resume h
  | succ n ih =>
    obtain ⟨x, io', jo', hio, hjo, h'⟩ := h.read
    -- the byte that was stored is not seen any more
    simp only [Idiomatic.readEach, readLast, Action.perform, hio, hjo, Tape.set_set]
    cases x with
    | ok b => exact ih b h'
    | error e => exact .halt h'

theorem writeAll_sameBytes (n : Nat) (c : Config) (h : io.SameBytes jo) :
    Reply.SameBytes ((Idiomatic.writeEach c n).perform io) ((writeAll c n).perform jo) := by
  induction n generalizing io jo with
  | zero =>
    obtain ⟨jo', hjo, h'⟩ := h.flush_right
    simp only [Idiomatic.writeEach, writeAll, Action.perform, hjo]
    exact .resume h'
  | succ n ih =>
    obtain ⟨x, io', jo', hio, hjo, h'⟩ := h.write c.tape.current
    simp only [Idiomatic.writeEach, writeAll, Action.perform, hio, hjo]
    cases x with
    | some e => exact .halt h'
    | none =>
      obtain ⟨io'', hio', h''⟩ := h'.flush_left
      simp only [hio']
      exact ih h''

theorem update_sameBytes (c : Config) (f : Tape → Tape) (h : io.SameBytes jo) :
    Reply.SameBytes ((c.update f).perform io) ((c.update f).perform jo) :=
  .resume h

/-- A read that is done at least once stores the same byte in the end, and a write flushes the same bytes. -/
theorem act_sameBytes {r : Counted Basic} (hr : r.op = .read → 0 < r.count) (c : Config) (h : io.SameBytes jo) :
    Reply.SameBytes ((Idiomatic.act (.counted r.op r.count) c).perform io) ((act r c).perform jo) := by
  obtain ⟨b, n⟩ := r
  cases b with
  | move d =>
    simp only [act, Idiomatic.act, Config.moveBy]
    cases c.tape.move? d n with
    | some t => exact .resume h
    | none => exact .halt h
  | increment => exact update_sameBytes c (·.add n) h
  | decrement => exact update_sameBytes c (·.sub n) h
  | read =>
    obtain ⟨m, rfl⟩ := Nat.exists_eq_succ_of_ne_zero (Nat.ne_of_gt (hr rfl))
    obtain ⟨x, io', jo', hio, hjo, h'⟩ := h.read
    simp only [act, Idiomatic.act, Idiomatic.readEach, readLast, Action.perform, hio, hjo]
    cases x with
    | ok b => exact readLast_sameBytes m c.pc c.tape b h'
    | error e => exact .halt h'
  | write => exact writeAll_sameBytes n c h

end Grouped

end TapeMachine
