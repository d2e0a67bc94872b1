import TapeMachine.Proofs.Compiled
import TapeMachine.Proofs.Optimiser
import TapeMachine.Proofs.Unmatched

namespace TapeMachine

variable {α : Type} {step step' : Step} {act : α → Config → Action} {ts : List (Token α)}

/-- On balanced tokens a machine is determined by the tokens that it follows. -/
theorem Follows.step_eq (hb : Balanced ts) (h : Follows step act ts) (h' : Follows step' act ts) : step = step' := by
  funext c
  cases ht : ts[c.pc]? with
  | none =>
    have hpast := List.getElem?_eq_none_iff.mp ht
    rw [h.past hpast, h'.past hpast]
  | some t =>
    cases t with
    | op a => rw [h.op ht, h'.op ht]
    | bracket b =>
      cases b with
      | opening =>
        obtain ⟨j, hj⟩ := (hb.partnered ht).of_opening ht
        rw [h.opening hj, h'.opening hj]
      | closing =>
        obtain ⟨i, hi⟩ := (hb.partnered ht).of_closing ht
        rw [h.closing hi, h'.closing hi]

section Tabled

variable {cs : List Command} {p : TabledProgram}

/-- The table holds the partner of every bracket. -/
theorem TabledProgram.exists_links (h : ofCommands cs = .ok p) :
    ∃ code : Code Basic, Links cs code ∧ p = ⟨cs.toArray, code.map Instr.destination⟩ := by
  unfold ofCommands jumpTable at h
  cases hl : link (fun _ => 1) cs with
  | error u => simp [hl] at h
  | ok code =>
    simp only [hl, Except.ok.injEq] at h
    exact ⟨code, links_of_link hl, h.symm⟩

theorem TabledProgram.ofCommands_of_balanced (hb : Balanced cs) : ∃ p, ofCommands cs = .ok p := by
  obtain ⟨code, hcode⟩ := link_of_balanced (fun _ => 1) hb
  exact ⟨⟨cs.toArray, code.map Instr.destination⟩, by simp only [ofCommands, jumpTable, hcode]⟩

theorem Follows.tabled (h : TabledProgram.ofCommands cs = .ok p) : Follows p.step Basic.act cs := by
  obtain ⟨code, hl, rfl⟩ := TabledProgram.exists_links h
  have jump : ∀ {c : Config} {d : Nat}, code[c.pc]?.map Instr.destination = some d → d < cs.length →
      TabledProgram.jump ⟨cs.toArray, code.map Instr.destination⟩ c = .resume ⟨d + 1, c.tape⟩ := by
    intro c d hd hlt
    have hlt' : d < cs.toArray.size := hlt
    simp only [TabledProgram.jump, Array.getElem?_map, hd, Config.jump, behind?_of_lt hlt']
  refine ⟨?_, ?_, ?_, ?_⟩
  · intro c hc
    simp [TabledProgram.step, hc]
  · intro c a ha
    simp [TabledProgram.step, ha]
  · intro c j hp
    have hj : j < cs.length := (List.getElem?_eq_some_iff.mp hp.2.2.1).1
    have htable : code[c.pc]?.map Instr.destination = some j := by rw [hl.opening hp]; rfl
    simp only [TabledProgram.step, List.getElem?_toArray, hp.2.1, jump htable hj]
    split <;> rfl
  · intro c i hp
    have hi : i < cs.length := (List.getElem?_eq_some_iff.mp hp.2.1).1
    have htable : code[c.pc]?.map Instr.destination = some i := by rw [hl.closing hp]; rfl
    simp only [TabledProgram.step, List.getElem?_toArray, hp.2.2.1, jump htable hi]
    by_cases hz : c.tape.current = 0
    · simp only [hz, ne_eq, not_true_eq_false, if_false, if_true]
      rfl
    · simp only [hz, ne_eq, not_false_eq_true, if_false, if_true]

end Tabled

section Engines

variable {text : String} {target : Target}

theorem Engine.prepare_tabled (target : Target) (hb : Balanced (Source.commands text)) :
    ∃ step, tabled.prepare target text = .ok step ∧ Follows step Basic.act (Source.commands text) := by
  obtain ⟨p, hp⟩ := TabledProgram.ofCommands_of_balanced hb
  refine ⟨p.step, ?_, .tabled hp⟩
  simp only [prepare, load, hp]
  rfl

/-- Precomputed jumps change nothing: both interpreters end or none, at the same instruction and with the same tape,
streams and verdict, the place of a move off the tape included. -/
theorem tabled_finishes_iff_scanning (hb : Balanced (Source.commands text)) (io : Streams) (x : Ended) :
    Engine.tabled.Finishes target text io x ↔ Engine.scanning.Finishes target text io x := by
  obtain ⟨step, hprepare, hfollows⟩ := Engine.prepare_tabled target hb
  have hstep : step = Scanning.step (Source.commands text).toArray := hfollows.step_eq hb (.scanning _)
  rw [Engine.finishes_iff hprepare, Engine.finishes_scanning, hstep]

theorem tabled_finishes_iff_scanning_off :
    ∃ x, Engine.tabled.Finishes .standard "++[->+[-]<]<." (.start [] {}) x ∧
      x.verdict = .failed (.outOfBounds (some 11)) := by
  have hscan : ∃ x, Engine.scanning.Finishes .standard "++[->+[-]<]<." (.start [] {}) x ∧
      x.verdict = .failed (.outOfBounds (some 11)) := ⟨_, ⟨40, rfl⟩, rfl⟩
  obtain ⟨x, hx, hv⟩ := hscan
  exact ⟨x, (tabled_finishes_iff_scanning (by decide) _ x).mpr hx, hv⟩

/-- If an assembler takes as much code as there are commands, the plain code ends exactly when the naive interpreter does,
with the same tape and streams, however it ends, and with the same verdict but for the place of a move off the tape. -/
theorem plainNative_finishes_iff_scanning (hb : Balanced (Source.commands text))
    (htakes : target.assembler.Takes (Source.commands text).length) (io : Streams) :
    (∀ v t io', (∃ pc, Engine.plainNative.Finishes target text io ⟨v, ⟨pc, t⟩, io'⟩) ↔
      ∃ u pc, Engine.scanning.Finishes target text io ⟨u, ⟨pc, t⟩, io'⟩ ∧ v = u.unplaced) ∧
    (∀ n, (Failure.outOfBounds (some n)).message = s!"data pointer out of bounds at pc={n}") ∧
    (Failure.outOfBounds none).message = "data pointer out of bounds" := by
  refine ⟨fun v t io' => ?_, fun n => rfl, rfl⟩
  obtain ⟨code, hcode⟩ := (Native.compilePlain_isOk_iff htakes).mpr hb
  have hprepare : Engine.plainNative.prepare target text = .ok (Native.step code) := by
    simp only [Engine.prepare, Engine.load, Native.plain, Native.plainSource, hcode]
    rfl
  have hruns : (Runtime.start io).Runs code v ⟨t, io'⟩ ↔
      ∃ pc, Engine.plainNative.Finishes target text io ⟨v, ⟨pc, t⟩, io'⟩ := by
    rw [Runtime.runs_iff]
    constructor
    · rintro ⟨⟨pc, t⟩, he, rfl⟩
      exact ⟨pc, (Engine.finishes_iff hprepare).mpr he⟩
    · rintro ⟨pc, he⟩
      exact ⟨⟨pc, t⟩, (Engine.finishes_iff hprepare).mp he, rfl⟩
  rw [← hruns, Runtime.runs_plain hcode]
  constructor
  · rintro ⟨⟨u, ⟨pc, t⟩, io'⟩, he, rfl, hr⟩
    cases hr
    exact ⟨u, pc, Engine.finishes_scanning.mpr he, rfl⟩
  · rintro ⟨u, pc, he, rfl⟩
    exact ⟨_, Engine.finishes_scanning.mp he, rfl, rfl⟩

/-- The second byte is refused while the first one has been carried on. -/
theorem plainNative_finishes_iff_scanning_refused :
    ∃ pc t io, Engine.plainNative.Finishes .standard ",[->+<]>.+." (.start [7] ⟨none, some 1, none, none⟩)
      ⟨.failed (.stream .writeFailed), ⟨pc, t⟩, io⟩ ∧ io.written = #[7] ∧ t.current = 8 := by
  have hscan : ∃ u pc t io, Engine.scanning.Finishes .standard ",[->+<]>.+." (.start [7] ⟨none, some 1, none, none⟩)
      ⟨u, ⟨pc, t⟩, io⟩ ∧ u = .failed (.stream .writeFailed) ∧ io.written = #[7] ∧ t.current = 8 :=
    ⟨_, _, _, _, ⟨100, rfl⟩, rfl, rfl, by decide⟩
  obtain ⟨u, pc, t, io, hrun, rfl, hw, ht⟩ := hscan
  have hboth := @plainNative_finishes_iff_scanning ",[->+<]>.+." .standard (by decide) (Assembler.takes_willing _)
    (.start [7] ⟨none, some 1, none, none⟩)
  obtain ⟨pc', h⟩ := (hboth.1 _ _ _).mpr ⟨_, pc, hrun, rfl⟩
  exact ⟨pc', t, io, h, hw, ht⟩

end Engines

end TapeMachine
