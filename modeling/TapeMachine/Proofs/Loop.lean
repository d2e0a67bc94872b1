import Mathlib.Data.Int.GCD
import Mathlib.Tactic.Ring
import TapeMachine.Proofs.Repeat
import TapeMachine.Proofs.Shape

namespace TapeMachine

open Meaning Block

/-- The meaning changes the tape by `f` and keeps the streams. Where `f` is not defined the head would leave
the tape, and `δ` relates the tape that is left then to the one before. -/
structure Does (A : Meaning) (f : Tape → Option Tape) (δ : Tape → Tape → Prop) : Prop where
  pass : ∀ {t u : Tape} {io : Streams}, f t = some u → A ⟨t, io⟩ (.passed ⟨u, io⟩)
  fail : ∀ {t : Tape} (io : Streams), f t = none →
    ∃ e : Ended, A ⟨t, io⟩ (.left (.ended e)) ∧ e.verdict.Off ∧ e.io = io ∧ δ e.config.tape t

namespace Does

theorem moves (w : Watch Op) (d : Direction) (n i : Nat) :
    Does ((ofOps (List.replicate n (Idiom.moveOp d))).meaning Op.act w i) (·.move? d n) Tape.SameCells := by
  have hout := replicate_outcome (ActAlike.basic (.move d)) w n i 0
  constructor
  · intro t u io h
    rcases hout t io with ⟨t', io', hp, hm⟩ | ⟨e, c, v, io', hp, -, -⟩
    · simp only [Idiomatic.act, Config.moveBy, h] at hp
      cases hp
      exact hm
    · simp only [Idiomatic.act, Config.moveBy, h] at hp
      cases hp
  · intro t io h
    rcases hout t io with ⟨t', io', hp, -⟩ | ⟨e, c, v, io', hp, he, hm⟩
    · simp only [Idiomatic.act, Config.moveBy, h] at hp
      cases hp
    · simp only [Idiomatic.act, Config.moveBy, h] at hp
      cases hp
      have hv : e.verdict.Off := he.verdict
      exact ⟨e, hm, hv, he.io, he.off hv⟩

theorem adds (δ : Tape → Tape → Prop) (w : Watch Op) (n i : Nat) :
    Does ((ofOps (List.replicate n (.basic .increment))).meaning Op.act w i) (fun t => some (t.add n)) δ := by
  constructor
  · intro t u io h
    cases h
    have hout := replicate_outcome (ActAlike.basic .increment) w n i 0 t io
    rcases hout with ⟨t', io', hp, hm⟩ | ⟨e, c, v, io', hp, -, -⟩
    · cases hp
      exact hm
    · cases hp
  · intro t io h
    cases h

theorem subs (δ : Tape → Tape → Prop) (w : Watch Op) (n i : Nat) :
    Does ((ofOps (List.replicate n (.basic .decrement))).meaning Op.act w i) (fun t => some (t.sub n)) δ := by
  constructor
  · intro t u io h
    cases h
    have hout := replicate_outcome (ActAlike.basic .decrement) w n i 0 t io
    rcases hout with ⟨t', io', hp, hm⟩ | ⟨e, c, v, io', hp, -, -⟩
    · cases hp
      exact hm
    · cases hp
  · intro t io h
    cases h

theorem roundTrip (w : Watch Op) (d : Direction) (n i : Nat) :
    Does ((ofOps (Idiom.roundTrip d n)).meaning Op.act w i) (fun t => (t.cellAt? d n).map t.bump)
      Tape.SameCells := by
  rw [Idiom.roundTrip, ofOps_append, meaning_append, ofOps, meaning]
  constructor
  · intro t u io h
    rw [← Tape.roundTrip_eq] at h
    obtain ⟨t', hthere, hback⟩ := Option.bind_eq_some_iff.mp h
    exact .pass ((moves w d n i).pass hthere) (.pass (.pass rfl) ((moves w d.opposite n _).pass hback))
  · intro t io h
    have hnone : t.move? d n = none := by
      rw [Tape.move?, Option.map_eq_none_iff.mp h]
    obtain ⟨e, hm, he⟩ := (moves w d n i).fail io hnone
    exact ⟨e, .leave hm, he⟩

theorem countFirst (w : Watch Op) (d : Direction) (n i : Nat) :
    Does ((ofOps (.basic .decrement :: Idiom.roundTrip d n)).meaning Op.act w i)
      (fun t => (t.cellAt? d n).map t.carry) Tape.OneMore := by
  rw [ofOps, meaning]
  constructor
  · intro t u io h
    exact .pass (.pass rfl) ((roundTrip w d n _).pass (t := t.sub 1) h)
  · intro t io h
    have hnone : ((t.sub 1).cellAt? d n).map (t.sub 1).bump = none := by
      rw [Tape.cellAt?_sub, Option.map_eq_none_iff.mp h, Option.map_none]
    obtain ⟨e, hm, hv, hio, hd⟩ := (roundTrip w d n (i + 1)).fail io hnone
    exact ⟨e, .pass (.pass rfl) hm, hv, hio, hd.oneMore_of_sub⟩

theorem countLast (w : Watch Op) (d : Direction) {n : Nat} (hn : 0 < n) (i : Nat) :
    Does ((ofOps (Idiom.roundTrip d n ++ [.basic .decrement])).meaning Op.act w i)
      (fun t => (t.cellAt? d n).map t.carry) Tape.OneMore := by
  rw [ofOps_append, meaning_append, ofOps, meaning]
  constructor
  · intro t u io h
    obtain ⟨k, hk, rfl⟩ := Option.map_eq_some_iff.mp h
    have htrip : (t.cellAt? d n).map t.bump = some (t.bump k) := by rw [hk, Option.map_some]
    rw [← Tape.sub_bump (Tape.cellAt?_ne hn hk)]
    exact .pass ((roundTrip w d n i).pass htrip) (.pass (.pass rfl) rfl)
  · intro t io h
    have hnone : (t.cellAt? d n).map t.bump = none := by
      rw [Option.map_eq_none_iff.mp h, Option.map_none]
    obtain ⟨e, hm, hv, hio, hd⟩ := (roundTrip w d n i).fail io hnone
    exact ⟨e, .leave hm, hv, hio, hd.oneMore⟩

end Does

section Rounds

variable {A : Meaning} {d : Direction} {n : Nat} {seen : Tape → Prop} {j : Nat}

/-- Moving in rounds is scanning. The induction is on the cells that lie ahead. -/
theorem matched_scan (hn : 0 < n) (hA : Does A (·.move? d n) Tape.SameCells) :
    Matched (Exit.Alike Tape.SameCells) A.rounds (instruction (Op.scan d n).act seen j) := by
  intro r
  obtain ⟨t, io⟩ := r
  induction hm : t.room d using Nat.strongRecOn generalizing t with
  | ind m ih =>
    have hstep : (Op.scan d n).act ⟨j, t⟩ = Config.scanBy ⟨j, t⟩ d n (.outOfBounds (some j)) := rfl
    by_cases hz : t.current = 0
    · simp only [Config.scanBy, hz, if_true] at hstep
      exact .inl ⟨⟨t, io⟩, .done hz, .pass (by rw [hstep]; rfl)⟩
    · simp only [Config.scanBy, hz, if_false] at hstep
      cases hmove : t.move? d n with
      | none =>
        simp only [hmove] at hstep
        obtain ⟨e, ha, hv, hio, hd⟩ := hA.fail io hmove
        have halike : Ended.Alike Tape.SameCells e ⟨.failed (.outOfBounds (some j)), ⟨j, t⟩, io⟩ :=
          ⟨hv, hio, fun hn => absurd hv hn, fun _ => hd⟩
        exact .inr ⟨.ended e, .ended _, halike, .leave hz ha, .leave (by rw [hstep]; rfl)⟩
      | some u =>
        simp only [hmove] at hstep
        have hround : A ⟨t, io⟩ (.passed ⟨u, io⟩) := hA.pass hmove
        have hstay : ((Op.scan d n).act ⟨j, t⟩).perform io = .resume ⟨j, u⟩ io := by rw [hstep]; rfl
        rcases ih _ (hm ▸ Tape.room_lt_of_move? hn hmove) u rfl with ⟨r', hr, hi⟩ | ⟨x, y, hxy, hr, hi⟩
        · exact .inl ⟨r', .again hz hround hr, .again hstay hi⟩
        · exact .inr ⟨x, y, hxy, .again hz hround hr, .again hstay hi⟩

theorem rounds_carry (hn : 0 < n) (hA : Does A (fun t => (t.cellAt? d n).map t.carry) Tape.OneMore) {k : Fin 30000}
    {t : Tape} (hk : t.cellAt? d n = some k) (io : Streams) :
    A.rounds ⟨t, io⟩ (.passed ⟨t.transferTo k, io⟩) := by
  induction hm : t.current.toNat generalizing t with
  | zero =>
    have hz : t.current = 0 := UInt8.toNat_inj.mp hm
    rw [Tape.transferTo_of_zero hz]
    exact .done hz
  | succ m ih =>
    have hne := Tape.cellAt?_ne hn hk
    have hz : t.current ≠ 0 := by
      intro hz
      rw [hz] at hm
      cases hm
    have hcurrent : (t.carry k).current.toNat = m := by
      have hle : (1 : UInt8) ≤ t.current := by
        rw [UInt8.le_iff_toNat_le, hm]
        exact Nat.succ_le_succ (Nat.zero_le m)
      rw [Tape.current_carry hne, UInt8.toNat_sub_of_le _ _ hle, hm]
      rfl
    have hround : A ⟨t, io⟩ (.passed ⟨t.carry k, io⟩) := hA.pass (by simp only [hk, Option.map_some])
    have hrest := ih ((Tape.cellAt?_carry t k d n).trans hk) hcurrent
    rw [Tape.transferTo_carry hne] at hrest
    exact .again hz hround hrest

theorem matched_transfer (hn : 0 < n) (hA : Does A (fun t => (t.cellAt? d n).map t.carry) Tape.OneMore) :
    Matched (Exit.Alike Tape.OneMore) A.rounds (instruction (Op.transfer d n).act seen j) := by
  intro r
  obtain ⟨t, io⟩ := r
  have hstep : (Op.transfer d n).act ⟨j, t⟩ = Config.transferBy ⟨j, t⟩ d n (.outOfBounds (some j)) := rfl
  by_cases hz : t.current = 0
  · simp only [Config.transferBy, hz, if_true] at hstep
    exact .inl ⟨⟨t, io⟩, .done hz, .pass (by rw [hstep]; rfl)⟩
  · simp only [Config.transferBy, hz, if_false] at hstep
    cases hk : t.cellAt? d n with
    | none =>
      simp only [hk] at hstep
      obtain ⟨e, ha, hv, hio, hd⟩ := hA.fail io (t := t) (by rw [hk, Option.map_none])
      have halike : Ended.Alike Tape.OneMore e ⟨.failed (.outOfBounds (some j)), ⟨j, t⟩, io⟩ :=
        ⟨hv, hio, fun hn => absurd hv hn, fun _ => hd⟩
      exact .inr ⟨.ended e, .ended _, halike, .leave hz ha, .leave (by rw [hstep]; rfl)⟩
    | some k =>
      simp only [hk] at hstep
      exact .inl ⟨⟨t.transferTo k, io⟩, rounds_carry hn hA hk io, .pass (by rw [hstep]; rfl)⟩

end Rounds

section Clear

/-- Multiples of `n` come to every multiple of the common divisor of `n` and 256, modulo 256. -/
theorem exists_mul_add_mod_eq_zero {n v : Nat} (h : Nat.gcd n 256 ∣ v) : ∃ k, (v + k * n) % 256 = 0 := by
  obtain ⟨x, y, hxy⟩ := Int.gcd_dvd_iff.mp (show Int.gcd (n : ℤ) (256 : ℤ) ∣ v from h)
  have hk : ((-x % 256).toNat : ℤ) = -x - 256 * (-x / 256) := by
    rw [Int.toNat_of_nonneg (Int.emod_nonneg _ (by decide)), Int.emod_def]
  refine ⟨(-x % 256).toNat, Nat.mod_eq_zero_of_dvd (Int.natCast_dvd_natCast.mp ⟨y - n * (-x / 256), ?_⟩)⟩
  push_cast
  rw [hk, hxy]
  ring

variable {A : Meaning} {n : Nat} {δ : Tape → Tape → Prop} {r : Runtime} {o : Passage}

/-- Counting in rounds can only come to zero, and not from every cell. -/
theorem of_rounds_add (hA : Does A (fun t => some (t.add n)) δ) (hu : A.Unique) (h : A.rounds r o) :
    o = .passed ⟨r.tape.set 0, r.io⟩ ∧ Nat.gcd n 256 ∣ r.tape.current.toNat := by
  induction h with
  | @done r hz =>
    rw [Tape.set_zero_of_zero hz, hz]
    exact ⟨rfl, Nat.dvd_zero _⟩
  | leave _ ha => cases hu _ _ _ ha (hA.pass rfl)
  | again _ ha _ ih =>
    cases hu _ _ _ ha (hA.pass rfl)
    obtain ⟨ho, hd⟩ := ih
    simp only [Tape.add, Tape.set_set, Tape.current_set] at ho hd
    exact ⟨ho, gcd_dvd_addCount.mp hd⟩

theorem rounds_add_of_mod (hA : Does A (fun t => some (t.add n)) δ) {k : Nat} {t : Tape} {io : Streams}
    (h : (t.current.toNat + k * n) % 256 = 0) : A.rounds ⟨t, io⟩ (.passed ⟨t.set 0, io⟩) := by
  induction k generalizing t with
  | zero =>
    have hlt := t.current.toNat_lt
    have hz : t.current = 0 := UInt8.toNat_inj.mp (show t.current.toNat = 0 by omega)
    rw [Tape.set_zero_of_zero hz]
    exact .done hz
  | succ k ih =>
    by_cases hz : t.current = 0
    · rw [Tape.set_zero_of_zero hz]
      exact .done hz
    · have hnext : ((t.add n).current.toNat + k * n) % 256 = 0 := by
        rw [Tape.current_add, toNat_addCount]
        rw [Nat.succ_mul] at h
        omega
      have hrest := ih hnext
      simp only [Tape.add, Tape.set_set] at hrest
      exact .again hz (hA.pass rfl) hrest

theorem rounds_add (hA : Does A (fun t => some (t.add n)) δ) (h : Nat.gcd n 256 ∣ r.tape.current.toNat) :
    A.rounds r (.passed ⟨r.tape.set 0, r.io⟩) := by
  obtain ⟨k, hk⟩ := exists_mul_add_mod_eq_zero h
  exact rounds_add_of_mod hA hk

/-- Equal steps are increments by a number with the same common divisors with 256. -/
theorem Does.steps (δ : Tape → Tape → Prop) (w : Watch Op) {b : Basic} (hb : Idiom.IsStep b) (n i : Nat) :
    ∃ m, Nat.gcd m 256 = Nat.gcd n 256 ∧
      Does ((ofOps (List.replicate n (.basic b))).meaning Op.act w i) (fun t => some (t.add m)) δ := by
  rcases hb with rfl | rfl
  · exact ⟨n, rfl, .adds δ w n i⟩
  · have hsub := Does.subs δ w n i
    simp only [Tape.sub_eq_add] at hsub
    have hcop : Nat.Coprime 255 256 := by decide
    exact ⟨255 * n, hcop.gcd_mul_left_cancel n, hsub⟩

end Clear

end TapeMachine
