import TapeMachine.Proofs.Host
import TapeMachine.Proofs.Parse
import TapeMachine.Proofs.Replace

namespace TapeMachine

open Block Idiom

theorem act_basic (b : Basic) : (Op.basic b).act = b.act := by
  funext c
  cases b <;> rfl

theorem local_op : Local Op.act :=
  local_idiomatic.comp fun o => Lowered.ofCounted ⟨o, 1⟩

theorem local_counted : Local Counted.act :=
  local_idiomatic.comp Lowered.ofCounted

section Machines

variable {text : String} {t : Tree} (ht : Tree.ofSource text = .ok t)

include ht

theorem follows_scanning : Follows (Scanning.step (Source.commands text).toArray) Op.act t.block.tokens := by
  rw [Tree.tokens_block, Tree.ofSource_eq_ok_iff.mp ht]
  exact (Follows.map act_basic).mpr (.scanning _)

theorem exists_idiomatic : ∃ p, Idiomatic.ofSource text = .ok p ∧ Links t.optimise.lower p := by
  obtain ⟨p, hp⟩ := link_of_balanced (fun _ => 1) t.balanced_lower_optimise
  have hsource : Tree.lowerSource text = .ok t.optimise.lower := by rw [Tree.lowerSource, ht]
  exact ⟨p, by rw [Idiomatic.ofSource, hsource]; exact hp, links_of_link hp⟩

omit ht in
theorem follows_idiomatic {p : Idiomatic.Program} (hp : Links t.optimise.lower p) :
    Follows (Idiomatic.step p) Counted.act t.program.tokens := by
  have hf : Follows (Idiomatic.step p) Idiomatic.act t.optimise.lower := .code hp
  rw [Tree.lower_optimise] at hf
  exact (Follows.map (f := Lowered.ofCounted) fun _ => rfl).mp hf

theorem ends_idiomatic {p : Idiomatic.Program} (hp : Links t.optimise.lower p) {u : Tape} {io : Streams} {x : Ended}
    (h : Ends (Scanning.step (Source.commands text).toArray) (.start u) io x) :
    ∃ y, x.Alike Tape.OneMore y ∧ Ends (Idiomatic.step p) (.start u) io y := by
  have hleaves := ((follows_scanning ht).ends_iff_leaves local_op .endless).mp h
  obtain ⟨y, hxy, hy⟩ := Tree.leaves_program hleaves
  cases y with
  | met => exact hxy.elim
  | ended y => exact ⟨y, hxy, ((follows_idiomatic hp).ends_iff_leaves local_counted _).mpr hy⟩

end Machines

/-- Verdicts that say the same and where the head would leave the tape. -/
theorem Verdict.eq_or_of_unplaced_eq {v v' : Verdict} (h : v.unplaced = v'.unplaced)
    (hv : v ≠ .failed (.outOfBounds none)) (hv' : v' ≠ .failed (.outOfBounds none)) :
    v = v' ∨ ∃ n m, v = .failed (.outOfBounds (some n)) ∧ v' = .failed (.outOfBounds (some m)) := by
  have placed : ∀ {w : Verdict}, w ≠ .failed (.outOfBounds none) →
      w = w.unplaced ∨ ∃ n, w = .failed (.outOfBounds (some n)) := by
    intro w hw
    cases w with
    | failed f =>
      cases f with
      | outOfBounds p =>
        cases p with
        | none => exact absurd rfl hw
        | some n => exact .inr ⟨n, rfl⟩
      | _ => exact .inl rfl
    | _ => exact .inl rfl
  rcases placed hv with he | ⟨n, rfl⟩
  · rcases placed hv' with he' | ⟨m, rfl⟩
    · exact .inl (he.trans (h.trans he'.symm))
    · exact absurd (he.trans h) hv
  · rcases placed hv' with he' | ⟨m, rfl⟩
    · exact absurd (he'.trans h.symm) hv'
    · exact .inr ⟨n, m, rfl, rfl⟩

/-- If the naive interpreter ends, so does the optimising one, with the same bytes written, as many flushes,
as many bytes read and the same verdict, where only the place of a move off the tape may differ. -/
theorem idiomatic_refines_scanning {text : String} (hb : Balanced (Source.commands text)) {target : Target}
    {io : Streams} {x : Ended} (h : Engine.scanning.Finishes target text io x) :
    ∃ y, Engine.idiomatic.Finishes target text io y ∧ y.io.written = x.io.written ∧ y.io.flushes = x.io.flushes ∧
      y.io.consumed = x.io.consumed ∧
      (y.verdict = x.verdict ∨ ∃ n m, y.verdict = .failed (.outOfBounds (some n)) ∧
        x.verdict = .failed (.outOfBounds (some m))) := by
  obtain ⟨t, ht⟩ := Tree.ofSource_isOk_iff.mpr hb
  obtain ⟨p, hp, hlinks⟩ := exists_idiomatic ht
  have hprepare : Engine.idiomatic.prepare target text = .ok (Idiomatic.step p) := by
    simp only [Engine.prepare, Engine.load, hp]
    rfl
  have hends := Engine.finishes_scanning.mp h
  obtain ⟨y, hxy, hy⟩ := ends_idiomatic ht hlinks hends
  have hio : y.io = x.io := hxy.io.symm
  refine ⟨y, (Engine.finishes_iff hprepare).mpr hy, by rw [hio], by rw [hio], by rw [hio], ?_⟩
  apply Verdict.eq_or_of_unplaced_eq hxy.verdict.symm
  · exact hy.verdict fun _ _ _ _ _ hv => Code.placed fitsAt_idiomatic hv
  · exact hends.verdict fun _ _ _ _ _ hv => Scanning.placed hv

theorem idiomatic_refines_scanning_clear :
    ∃ y, Engine.idiomatic.Finishes .standard "+[-]." (.start [] {}) y ∧ y.io.written = #[0] ∧ y.verdict = .done := by
  have hscanning : ∃ x, Engine.scanning.Finishes .standard "+[-]." (.start [] {}) x ∧ x.io.written = #[0] ∧
      x.verdict = .done := ⟨_, ⟨20, rfl⟩, rfl, rfl⟩
  obtain ⟨x, hx, hw, hv⟩ := hscanning
  obtain ⟨y, hy, hwritten, -, -, hverdict⟩ := idiomatic_refines_scanning (by decide) hx
  refine ⟨y, hy, hwritten.trans hw, ?_⟩
  rcases hverdict with h | ⟨n, m, -, h⟩
  · exact h.trans hv
  · cases hv.symm.trans h

end TapeMachine
