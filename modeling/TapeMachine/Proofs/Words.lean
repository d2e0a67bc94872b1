import TapeMachine.Proofs.Containment
import TapeMachine.Proofs.Matching
import TapeMachine.Tape.Memory

namespace TapeMachine

theorem behind?_eq_addWords? {size : Nat} (h : size ≤ lastWord) (d : Nat) : behind? size d = addWords? d 1 := by
  have hword : Nat.pow 2 64 = lastWord + 1 := rfl
  rw [behind?, addWords?, hword]
  by_cases hd : d + 1 ≤ lastWord
  · rw [if_pos (.inr (by omega)), if_pos hd]
  · rw [if_neg (by omega), if_neg hd]

theorem Config.jump_of_lt {size d : Nat} (h : size ≤ lastWord) (c : Config) (hd : d < lastWord) :
    c.jump size d = .resume ⟨d + 1, c.tape⟩ := by
  have hbehind : behind? size d = some (d + 1) := (behind?_eq_addWords? h d).trans (if_pos hd)
  simp only [jump, hbehind]

theorem Config.jump_lastWord {size : Nat} (h : size ≤ lastWord) (c : Config) :
    c.jump size lastWord = .halt c .crashed := by
  have hbehind : behind? size lastWord = none := behind?_eq_addWords? h lastWord
  simp only [jump, hbehind]

/-- The index that a move of `n` cells comes to, computed on words. -/
def Tape.target? (t : Tape) : Direction → Nat → Option Nat
  | .forward, n => addWords? t.head n
  | .backward, n => subWords? t.head n

/-- A move is refused exactly if its target is no word or no cell. -/
theorem Tape.map_val_cellAt? (t : Tape) (d : Direction) (n : Nat) :
    (t.cellAt? d n).map Fin.val = (t.target? d n).filter (· < size) := by
  cases d with
  | forward =>
    by_cases hn : t.head + n < 30000
    · have hword : t.head + n ≤ lastWord := Nat.le_trans (Nat.le_of_lt hn) (by decide)
      simp [cellAt?, target?, addWords?, size, Option.filter_some, hn, hword]
    · rw [cellAt?, dif_neg hn, target?, addWords?]
      split
      · have hcell : ¬ t.head + n < size := hn
        rw [Option.filter_some, decide_eq_false hcell]
        rfl
      · rfl
  | backward =>
    by_cases hn : n ≤ t.head
    · have hcell : t.head - n < 30000 := Nat.lt_of_le_of_lt (Nat.sub_le _ _) t.head.isLt
      simp [cellAt?, target?, subWords?, size, Option.filter_some, hn, hcell]
    · rw [cellAt?, if_neg hn, target?, subWords?, if_neg hn]
      rfl

theorem Ends.exists_halt {step : Step} {c : Config} {io : Streams} {x : Ended} (h : Ends step c io x) :
    ∃ d jo, Reaches step c io d jo ∧ (step d).perform jo = .halt x.config x.verdict x.io := by
  obtain ⟨n, hn⟩ := h
  induction n generalizing c io with
  | zero => cases hn
  | succ n ih =>
    rw [runFor] at hn
    split at hn
    · rename_i c' io' hs
      obtain ⟨d, jo, hreaches, hhalt⟩ := ih hn
      exact ⟨d, jo, .next hs hreaches, hhalt⟩
    · rename_i c' v io' hs
      cases hn
      exact ⟨c, io, .refl c io, hs⟩

/-- A machine of `size` instructions that jumps to words. In a lost configuration it jumps, but has no destination. -/
structure Roams (step : Step) (size : Nat) (jumps : Config → Nat → Prop) (lost : Config → Prop) : Prop where
  size_le : size ≤ lastWord
  destination_le : ∀ {c : Config} {d : Nat}, jumps c d → d ≤ lastWord
  past : ∀ {c : Config}, size ≤ c.pc → step c = .halt c .done
  jump : ∀ {c : Config} {d : Nat}, jumps c d → step c = c.jump size d
  crash : ∀ {c : Config}, lost c → step c = .halt c .crashed
  leads : ∀ {c : Config}, c.pc < size → (∀ d, ¬ jumps c d) → ¬ lost c → (step c).Leads (· ≤ size) Failure.Regular

namespace Roams

variable {step : Step} {size : Nat} {jumps : Config → Nat → Prop} {lost : Config → Prop} {c c' : Config} {d : Nat}
  {io io' : Streams} {v : Verdict}

theorem lands (h : Roams step size jumps lost) (hj : jumps c d) (hd : d < lastWord) :
    step c = .resume ⟨d + 1, c.tape⟩ := by
  rw [h.jump hj, Config.jump_of_lt h.size_le c hd]

theorem ends_past (h : Roams step size jumps lost) (hc : size ≤ c.pc) (io : Streams) : Ends step c io ⟨.done, c, io⟩ :=
  .of_halt (by rw [h.past hc]; rfl)

theorem derails (h : Roams step size jumps lost) (hc : lost c ∨ jumps c lastWord) : step c = .halt c .crashed := by
  rcases hc with hc | hc
  · exact h.crash hc
  · rw [h.jump hc, Config.jump_lastWord h.size_le]

/-- An instruction goes on at a word, or it ends the run in one of the four ways. -/
theorem perform (h : Roams step size jumps lost) (c : Config) (io : Streams) :
    (∃ c' io', (step c).perform io = .resume c' io' ∧ c'.pc ≤ lastWord) ∨
      ∃ c' v io', (step c).perform io = .halt c' v io' ∧
        (v = .done ∨ (∃ f, v = .failed f ∧ f.Regular) ∨ v = .crashed ∧ c' = c ∧ (lost c ∨ jumps c lastWord)) := by
  by_cases hpast : size ≤ c.pc
  · rw [h.past hpast]
    exact .inr ⟨c, .done, io, rfl, .inl rfl⟩
  by_cases hlost : lost c
  · rw [h.crash hlost]
    exact .inr ⟨c, .crashed, io, rfl, .inr (.inr ⟨rfl, rfl, .inl hlost⟩)⟩
  by_cases hjump : ∃ d, jumps c d
  · obtain ⟨d, hd⟩ := hjump
    rcases Nat.lt_or_eq_of_le (h.destination_le hd) with hlt | rfl
    · rw [h.lands hd hlt]
      exact .inl ⟨_, io, rfl, hlt⟩
    · rw [h.derails (.inr hd)]
      exact .inr ⟨c, .crashed, io, rfl, .inr (.inr ⟨rfl, rfl, .inr hd⟩)⟩
  · have hleads := (h.leads (Nat.lt_of_not_le hpast) (not_exists.mp hjump) hlost).perform io
    generalize (step c).perform io = p at hleads
    cases p with
    | resume c' io' => exact .inl ⟨c', io', rfl, Nat.le_trans hleads h.size_le⟩
    | halt c' v io' => exact .inr ⟨c', v, io', rfl, .inr (.inl hleads)⟩

theorem resume (h : Roams step size jumps lost) (hs : (step c).perform io = .resume c' io') : c'.pc ≤ lastWord := by
  rcases h.perform c io with ⟨d, jo, hd, hle⟩ | ⟨d, v, jo, hd, -⟩
  · cases hs.symm.trans hd
    exact hle
  · cases hs.symm.trans hd

theorem halt (h : Roams step size jumps lost) (hs : (step c).perform io = .halt c' v io') :
    v = .done ∨ (∃ f, v = .failed f ∧ f.Regular) ∨ v = .crashed ∧ c' = c ∧ (lost c ∨ jumps c lastWord) := by
  rcases h.perform c io with ⟨d, jo, hd, -⟩ | ⟨d, w, jo, hd, hw⟩
  · cases hs.symm.trans hd
  · cases hs.symm.trans hd
    exact hw

theorem reaches (h : Roams step size jumps lost) (hr : Reaches step c io c' io') (hc : c.pc ≤ lastWord) :
    c'.pc ≤ lastWord := by
  induction hr with
  | refl => exact hc
  | next hs _ ih => exact ih (h.resume hs)

end Roams

/-- The runs of a machine of `size` instructions are orderly if they stay on the tape and at words, a jump to `d` goes on
behind `d` or is the end of the run, and a run crashes exactly if it comes to a jump from outside the table or to a jump
to the last word. -/
structure Orderly (step : Step) (size : Nat) (jumps : Config → Nat → Prop) (lost : Config → Prop) : Prop where
  inside : ∀ {io io' : Streams} {c : Config}, Reaches step (.start .blank) io c io' →
    c.tape.head < Tape.size ∧ c.pc ≤ lastWord ∧ (c.pc < size → addWords? c.pc 1 = some (c.pc + 1))
  lands : ∀ {c : Config} {d : Nat}, jumps c d → d < lastWord → step c = .resume ⟨d + 1, c.tape⟩ ∧
    (size ≤ d + 1 → ∀ io, Ends step c io ⟨.done, ⟨d + 1, c.tape⟩, io⟩)
  verdict : ∀ {io : Streams} {x : Ended}, Ends step (.start .blank) io x →
    x.verdict = .done ∨ (∃ f, x.verdict = .failed f ∧ f.Regular) ∨ x.verdict = .crashed
  crashed : ∀ {io : Streams}, (∃ x, Ends step (.start .blank) io x ∧ x.verdict = .crashed) ↔
    ∃ c io', Reaches step (.start .blank) io c io' ∧ (lost c ∨ jumps c lastWord)

theorem Roams.orderly {step : Step} {size : Nat} {jumps : Config → Nat → Prop} {lost : Config → Prop}
    (h : Roams step size jumps lost) : Orderly step size jumps lost := by
  have hstart : (Config.start .blank).pc ≤ lastWord := Nat.zero_le _
  refine ⟨?_, ?_, ?_, ⟨?_, ?_⟩⟩
  · intro io io' c hr
    refine ⟨c.tape.head.isLt, h.reaches hr hstart, fun hc => if_pos ?_⟩
    exact Nat.le_trans hc h.size_le
  · intro c d hj hd
    refine ⟨h.lands hj hd, fun hpast io => ?_⟩
    exact .of_resume (by rw [h.lands hj hd]; rfl) (h.ends_past hpast io)
  · intro io x hx
    obtain ⟨c, io', -, hhalt⟩ := hx.exists_halt
    exact (h.halt hhalt).imp_right (.imp_right And.left)
  · rintro ⟨x, hx, hv⟩
    obtain ⟨c, io', hr, hhalt⟩ := hx.exists_halt
    rw [hv] at hhalt
    rcases h.halt hhalt with hdone | ⟨f, hf, -⟩ | ⟨-, -, hc⟩
    · cases hdone
    · cases hf
    · exact ⟨c, io', hr, hc⟩
  · rintro ⟨c, io', hr, hc⟩
    refine ⟨⟨.crashed, c, io'⟩, hr.ends_of_ends (.of_halt ?_), rfl⟩
    rw [h.derails hc]
    rfl

section Code

variable {α : Type} {act : α → Config → Action} {code : Code α}

def Code.Jumps (code : Code α) (c : Config) (d : Nat) : Prop :=
  code[c.pc]? = some (.ifZero d) ∧ c.tape.current = 0 ∨ code[c.pc]? = some (.ifNonzero d) ∧ c.tape.current ≠ 0

/-- The instructions are counted by words, and all destinations are words. -/
structure Code.InWords (code : Code α) : Prop where
  size : code.size ≤ lastWord
  destination : ∀ x ∈ code, x.destination ≤ lastWord

theorem Code.roams (hact : ∀ a c, (act a c).FitsAt c c.outOfBounds) (hwords : code.InWords) :
    Roams (Code.step act code) code.size code.Jumps fun _ => False := by
  refine ⟨hwords.size, ?_, ?_, ?_, False.elim, ?_⟩
  · rintro c d (⟨hx, -⟩ | ⟨hx, -⟩)
    · exact hwords.destination _ (Array.mem_of_getElem? hx)
    · exact hwords.destination _ (Array.mem_of_getElem? hx)
  · intro c hc
    rw [Code.step, Array.getElem?_eq_none hc]
  · rintro c d (⟨hx, ht⟩ | ⟨hx, ht⟩)
    · rw [Code.step, hx]
      exact if_pos ht
    · rw [Code.step, hx]
      exact if_pos ht
  · intro c hc hjumps _
    have next : (Action.resume (c.next c.tape)).Leads (· ≤ code.size) Failure.Regular := hc
    obtain ⟨x, hx⟩ : ∃ x, code[c.pc]? = some x := ⟨_, Array.getElem?_eq_getElem hc⟩
    rw [Code.step, hx]
    cases x with
    | op a => exact (hact a c).leads hc
    | ifZero d =>
      have ht : ¬ c.tape.current = 0 := fun ht => hjumps d (.inl ⟨hx, ht⟩)
      simp only [Config.jumpIf, if_neg ht]
      exact next
    | ifNonzero d =>
      have ht : ¬ c.tape.current ≠ 0 := fun ht => hjumps d (.inr ⟨hx, ht⟩)
      simp only [Config.jumpIf, if_neg ht]
      exact next

end Code

namespace TabledProgram

variable {p : TabledProgram} {c : Config}

def Taken (p : TabledProgram) (c : Config) : Prop :=
  ∃ b, p.commands[c.pc]? = some (.bracket b) ∧ b.Taken c.tape

def Jumps (p : TabledProgram) (c : Config) (d : Nat) : Prop :=
  p.Taken c ∧ p.table[c.pc]? = some d

/-- A jump is taken that the table does not reach to. -/
def Lost (p : TabledProgram) (c : Config) : Prop :=
  p.Taken c ∧ p.table.size ≤ c.pc

/-- The commands are counted by words, and all entries of the table are words. -/
structure InWords (p : TabledProgram) : Prop where
  size : p.commands.size ≤ lastWord
  table : ∀ d ∈ p.table, d ≤ lastWord

theorem step_of_taken (h : p.Taken c) : p.step c = p.jump c := by
  obtain ⟨b, hb, ht⟩ := h
  cases b with
  | opening =>
    simp only [step, hb]
    exact if_pos ht
  | closing =>
    simp only [step, hb]
    exact if_pos ht

theorem roams (hwords : p.InWords) : Roams p.step p.commands.size p.Jumps p.Lost := by
  refine ⟨hwords.size, ?_, ?_, ?_, ?_, ?_⟩
  · rintro c d ⟨-, hd⟩
    exact hwords.table d (Array.mem_of_getElem? hd)
  · intro c hc
    rw [step, Array.getElem?_eq_none hc]
  · rintro c d ⟨ht, hd⟩
    simp only [step_of_taken ht, jump, hd]
  · rintro c ⟨ht, hc⟩
    rw [step_of_taken ht, jump, Array.getElem?_eq_none hc]
  · intro c hc hjumps hlost
    have next : (Action.resume (c.next c.tape)).Leads (· ≤ p.commands.size) Failure.Regular := hc
    -- A jump that is taken has an entry in the table, or it is lost.
    have hstay : ¬ p.Taken c := by
      intro ht
      by_cases hentry : c.pc < p.table.size
      · exact hjumps _ ⟨ht, Array.getElem?_eq_getElem hentry⟩
      · exact hlost ⟨ht, Nat.le_of_not_lt hentry⟩
    obtain ⟨t, hx⟩ : ∃ t, p.commands[c.pc]? = some t := ⟨_, Array.getElem?_eq_getElem hc⟩
    cases t with
    | op b =>
      simp only [step, hx]
      exact (fitsAt_basic b c).leads hc
    | bracket b =>
      cases b with
      | opening =>
        have ht : ¬ c.tape.current = 0 := fun ht => hstay ⟨.opening, hx, ht⟩
        simp only [step, hx, if_neg ht]
        exact next
      | closing =>
        have ht : ¬ c.tape.current ≠ 0 := fun ht => hstay ⟨.closing, hx, ht⟩
        simp only [step, hx, if_neg ht]
        exact next

end TabledProgram

theorem crashes_behind_last_word :
    Code.InWords (#[.op ⟨.write, 2⟩, .ifZero (2 ^ 64 - 1)] : Grouped.Program) ∧
      (∃ x, Ends (Grouped.step #[.op ⟨.write, 2⟩, .ifZero (2 ^ 64 - 1)]) (.start .blank) (.start [] {}) x ∧
        x.verdict = .crashed ∧ x.io.written = #[0, 0]) ∧
      ¬ ∃ x, Ends (Grouped.step #[.op ⟨.write, 2⟩, .ifZero (2 ^ 64 - 1)]) (.start .blank) (.start [] {}) x ∧
        x.verdict = .done := by
  have hrun : ∃ x, Ends (Grouped.step #[.op ⟨.write, 2⟩, .ifZero (2 ^ 64 - 1)]) (.start .blank) (.start [] {}) x ∧
      x.verdict = .crashed ∧ x.io.written = #[0, 0] := ⟨_, ⟨10, rfl⟩, rfl, rfl⟩
  refine ⟨⟨by decide, by decide⟩, hrun, ?_⟩
  rintro ⟨y, hy, hdone⟩
  obtain ⟨x, hx, hcrashed, -⟩ := hrun
  cases hx.unique hy
  cases hcrashed.symm.trans hdone

/-- Programs that no text was made of run in good order on the interpreters that jump to destinations, whatever their
counts, amounts and destinations are: of all words only the last one is a destination that crashes the run. A table may
also be too short for a jump. -/
theorem hand_made_runs_are_orderly :
    (∀ p : Grouped.Program, Code.InWords p → Orderly (Grouped.step p) p.size (Code.Jumps p) fun _ => False) ∧
    (∀ p : Idiomatic.Program, Code.InWords p → Orderly (Idiomatic.step p) p.size (Code.Jumps p) fun _ => False) ∧
    (∀ p : TabledProgram, p.InWords → Orderly p.step p.commands.size p.Jumps p.Lost) ∧
    ∀ (t : Tape) (d : Direction) (n : Nat), (t.cellAt? d n).map Fin.val = (t.target? d n).filter (· < Tape.size) :=
  ⟨fun _ hwords => (Code.roams fitsAt_grouped hwords).orderly,
    fun _ hwords => (Code.roams fitsAt_idiomatic hwords).orderly,
    fun _ hwords => (TabledProgram.roams hwords).orderly, Tape.map_val_cellAt?⟩

/-- The last word but one is a destination behind the program. A table with one entry is too short for a jump at index 1. -/
theorem hand_made_runs_are_orderly_far :
    Ends (Grouped.step #[.op ⟨.write, 2⟩, .ifZero (2 ^ 64 - 2), .op ⟨.write, 2⟩]) ⟨1, .blank⟩ (.start [] {})
        ⟨.done, ⟨2 ^ 64 - 1, .blank⟩, .start [] {}⟩ ∧
      ∃ x, Ends (TabledProgram.step ⟨(Source.commands "+]").toArray, #[0]⟩) (.start .blank) (.start [] {}) x ∧
        x.verdict = .crashed := by
  obtain ⟨hgrouped, -, htabled, -⟩ := hand_made_runs_are_orderly
  constructor
  · have horderly := hgrouped #[.op ⟨.write, 2⟩, .ifZero (2 ^ 64 - 2), .op ⟨.write, 2⟩] ⟨by decide, by decide⟩
    have hjump : Code.Jumps (#[.op ⟨.write, 2⟩, .ifZero (2 ^ 64 - 2), .op ⟨.write, 2⟩] : Grouped.Program)
        ⟨1, .blank⟩ (2 ^ 64 - 2) := .inl ⟨rfl, by decide⟩
    exact (horderly.lands hjump (by decide)).2 (by decide) _
  · have horderly := htabled ⟨(Source.commands "+]").toArray, #[0]⟩ ⟨by decide, by decide⟩
    refine horderly.crashed.mpr ⟨⟨1, Tape.blank.add 1⟩, .start [] {}, .next rfl (.refl _ _), .inl ⟨?_, by decide⟩⟩
    exact ⟨.closing, rfl, show (Tape.blank.add 1).current ≠ 0 by decide⟩

end TapeMachine
