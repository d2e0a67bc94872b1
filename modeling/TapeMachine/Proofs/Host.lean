import TapeMachine.Engine
import TapeMachine.Proofs.Emit

namespace TapeMachine

section Pointer

/-- If the tape lies far enough from both ends of the addresses, comparing with one end of it is enough. -/
theorem Native.pointer?_eq {base n : Nat} (hlow : maxOffset ≤ base)
    (hhigh : base + Tape.size + maxOffset ≤ UInt64.size) (hn : n ≤ maxOffset) (t : Tape) (d : Direction) :
    pointer? (.ofNat base) (.ofNat (base + Tape.size)) d (.ofNat (base + t.head)) (.ofNat n) =
      (t.cellAt? d n).map fun i => .ofNat (base + i) := by
  have hhead := t.head.isLt
  have hsize : Tape.size = 30000 := rfl
  have hwords : UInt64.size = 2 ^ 64 := rfl
  have hmax : maxOffset = 2 ^ 31 - 1 := rfl
  have exact_of_lt : ∀ {a : Nat}, a < UInt64.size → (UInt64.ofNat a).toNat = a := UInt64.toNat_ofNat_of_lt
  cases d with
  | forward =>
    have hsum : UInt64.ofNat (base + t.head) + .ofNat n = .ofNat (base + (t.head + n)) := by
      rw [← UInt64.ofNat_add, Nat.add_assoc]
    have hstop : UInt64.ofNat (base + Tape.size) ≤ .ofNat (base + (t.head + n)) ↔ ¬ t.head + n < 30000 := by
      rw [UInt64.le_iff_toNat_le, exact_of_lt (by omega), exact_of_lt (by omega)]
      omega
    simp only [pointer?, Tape.cellAt?, hsum, hstop]
    by_cases h : t.head + n < 30000
    · rw [if_neg (Decidable.not_not.mpr h), dif_pos h]
      rfl
    · rw [if_pos h, dif_neg h]
      rfl
  | backward =>
    have hdifference : UInt64.ofNat (base + t.head) - .ofNat n = .ofNat (base + t.head - n) := by
      rw [UInt64.ofNat_sub (by omega)]
    have hstart : UInt64.ofNat (base + t.head - n) < .ofNat base ↔ ¬ n ≤ t.head := by
      rw [UInt64.lt_iff_toNat_lt, exact_of_lt (by omega), exact_of_lt (by omega)]
      omega
    simp only [pointer?, Tape.cellAt?, hdifference, hstart]
    by_cases h : n ≤ t.head
    · rw [if_neg (Decidable.not_not.mpr h), if_pos h, Nat.add_sub_assoc h]
      rfl
    · rw [if_pos h, if_neg h]
      rfl

namespace Layout

variable (l : Layout)

theorem pointer?_eq {n : Nat} (hn : n ≤ maxOffset) (t : Tape) (d : Direction) :
    l.pointer? t d n = (t.cellAt? d n).map l.address :=
  Native.pointer?_eq l.low l.high hn t d

theorem cell?_address (i : Fin 30000) : l.cell? (l.address i) = some i := by
  have hi := i.isLt
  have hhigh : l.base + 30000 + maxOffset ≤ UInt64.size := l.high
  have hlt : l.base + i < UInt64.size := by omega
  have hword : (l.address i).toNat = l.base + i := UInt64.toNat_ofNat_of_lt hlt
  simp only [cell?, hword, Nat.add_sub_cancel_left, Nat.le_add_right, hi, and_self, dif_pos]

end Layout

end Pointer

namespace Native

variable {l : Layout} {slot : Option StreamError} {code : Code Native}

/-- A pointer that the comparison lets pass is that of the cell. -/
theorem reach_eq {n : Nat} (hn : n ≤ maxOffset) (t : Tape) (d : Direction) :
    reach l t d n = match t.cellAt? d n with
      | some i => .ok i
      | none => .error (.returned Status.outOfBounds) := by
  rw [reach, l.pointer?_eq hn]
  cases t.cellAt? d n with
  | none => rfl
  | some i => simp only [Option.map_some, l.cell?_address]

/-- On memory and callbacks code does what the streams reply, and returns the status of the verdict. The slot is as before
unless a request is refused. -/
inductive Fits (slot : Option StreamError) : Reply → Flow → Prop where
  | next (c : Config) (io : Streams) : Fits slot (.resume c io) (.next c ⟨io, slot⟩)
  | done (c : Config) (io : Streams) : Fits slot (.halt c .done io) (.exit c (.returned Status.ok) ⟨io, slot⟩)
  | off (c : Config) (io : Streams) :
      Fits slot (.halt c (.failed (.outOfBounds none)) io) (.exit c (.returned Status.outOfBounds) ⟨io, slot⟩)
  | refused (c : Config) (e : StreamError) (io : Streams) :
      Fits slot (.halt c (.failed (.stream e)) io) (.exit c (.returned Status.ioError) ⟨io, some e⟩)

theorem fits_exec {o : Native} (ho : o.Encodable) (c : Config) (io : Streams) :
    Fits slot ((o.act c).perform io) (o.exec l c ⟨io, slot⟩) := by
  cases o with
  | move d n =>
    rw [act, Config.moveBy, Tape.move?, exec, reach_eq ho]
    cases c.tape.cellAt? d n with
    | some i => exact .next _ io
    | none => exact .off c io
  | add b => exact .next _ io
  | sub b => exact .next _ io
  | clear => exact .next _ io
  | read =>
    rcases hr : io.read with ⟨e | b, io'⟩
    · simp only [act, Config.readByte, Action.perform, exec, Callbacks.read, hr]
      exact .refused c e io'
    · simp only [act, Config.readByte, Action.perform, exec, Callbacks.read, hr]
      exact .next _ io'
  | write =>
    rcases hw : io.write c.tape.current with ⟨_ | e, io'⟩
    · rcases hf : io'.flush with ⟨_ | e, io''⟩
      · simp only [act, Config.writeByte, Action.perform, exec, Callbacks.write, hw, hf]
        exact .next _ io''
      · simp only [act, Config.writeByte, Action.perform, exec, Callbacks.write, hw, hf]
        exact .refused c e io''
    · simp only [act, Config.writeByte, Action.perform, exec, Callbacks.write, hw]
      exact .refused c e io'
  | scan d n =>
    rw [act, Config.scanBy, Tape.move?, exec, reach_eq ho]
    split
    · exact .next _ io
    · cases c.tape.cellAt? d n with
      | some i => exact .next _ io
      | none => exact .off c io
  | transfer d n =>
    rw [act, Config.transferBy, exec, reach_eq ho]
    split
    · exact .next _ io
    · cases c.tape.cellAt? d n with
      | some i => exact .next _ io
      | none => exact .off c io
  | halfScan => exact .next _ io

theorem Compiled.destination_lt (h : Compiled code) {x : Instr Native} (hx : x ∈ code) : x.destination < code.size := by
  obtain ⟨ts, hb, hlinks⟩ := h.linked
  exact hlinks.destination_lt hb hx

/-- The verdict is reported, and what is left in the slot is nothing new. -/
theorem Fits.report {c : Config} {v : Verdict} {io : Streams} {e : Ending} {k : Callbacks}
    (h : Fits slot (.halt c v io) (.exit c e k)) : ∃ left, k.report e = (v, ⟨io, left⟩) ∧ (left = none ∨ left = slot) := by
  cases h with
  | done => exact ⟨slot, rfl, .inr rfl⟩
  | off => exact ⟨slot, rfl, .inr rfl⟩
  | refused => exact ⟨none, rfl, .inl rfl⟩

section Run

variable (l slot)

theorem fits_flow (h : Compiled code) (c : Config) (io : Streams) :
    Fits slot ((step code c).perform io) (flow l code c ⟨io, slot⟩) := by
  have jump : ∀ {d : Nat}, d < code.size → c.jump code.size d = .resume ⟨d + 1, c.tape⟩ := by
    intro d hd
    simp only [Config.jump, behind?_of_lt hd]
  have jumpIf : ∀ {p : Prop} [Decidable p] {d : Nat}, d < code.size → Fits slot ((c.jumpIf p code.size d).perform io)
      (.next (if p then ⟨d + 1, c.tape⟩ else c.next c.tape) ⟨io, slot⟩) := by
    intro p _ d hd
    rw [Config.jumpIf, jump hd]
    split
    · exact .next _ io
    · exact .next _ io
  simp only [step, Code.step, flow]
  cases hx : code[c.pc]? with
  | none => exact .done c io
  | some x =>
    have hmem := Array.mem_of_getElem? hx
    cases x with
    | op o => exact fits_exec (h.encodable o hmem) c io
    | ifZero d => exact jumpIf (h.destination_lt hmem)
    | ifNonzero d => exact jumpIf (h.destination_lt hmem)

/-- A run on memory and callbacks is over when the run on streams is, and fits it. -/
theorem fits_flowFor (h : Compiled code) (limit : Nat) (c : Config) (io : Streams) :
    (runFor (step code) limit c io = none ∧ flowFor l code limit c ⟨io, slot⟩ = none) ∨
      ∃ x e k, runFor (step code) limit c io = some x ∧ flowFor l code limit c ⟨io, slot⟩ = some (x.config, e, k) ∧
        Fits slot (.halt x.config x.verdict x.io) (.exit x.config e k) := by
  induction limit generalizing c io with
  | zero => exact .inl ⟨rfl, rfl⟩
  | succ limit ih =>
    have hfits := fits_flow l slot h c io
    simp only [runFor, flowFor]
    generalize (step code c).perform io = p at hfits
    generalize flow l code c ⟨io, slot⟩ = q at hfits
    cases hfits with
    | next c' io' => exact ih c' io'
    | done c' io' => exact .inr ⟨⟨_, c', io'⟩, _, _, rfl, rfl, .done c' io'⟩
    | off c' io' => exact .inr ⟨⟨_, c', io'⟩, _, _, rfl, rfl, .off c' io'⟩
    | refused c' e io' => exact .inr ⟨⟨_, c', io'⟩, _, _, rfl, rfl, .refused c' e io'⟩

theorem report_flowFor (h : Compiled code) (limit : Nat) (c : Config) (io : Streams) :
    (runFor (step code) limit c io = none ∧ flowFor l code limit c ⟨io, slot⟩ = none) ∨
      ∃ x e k left, runFor (step code) limit c io = some x ∧ flowFor l code limit c ⟨io, slot⟩ = some (x.config, e, k) ∧
        k.report e = (x.verdict, ⟨x.io, left⟩) ∧ (left = none ∨ left = slot) := by
  rcases fits_flowFor l slot h limit c io with hnone | ⟨x, e, k, hrun, hflow, hfits⟩
  · exact .inl hnone
  · obtain ⟨left, hreport, hleft⟩ := hfits.report
    exact .inr ⟨x, e, k, left, hrun, hflow, hreport, hleft⟩

end Run

end Native

/-- Compiled code runs on memory and callbacks as its operations do on a tape and streams. -/
theorem Ready.run?_compiled {target : Target} {code : Code Native} (h : Native.Compiled code) (limit : Nat)
    (io : Streams) : (compiled code).run? target limit io = runFor (Native.step code) limit (.start .blank) io := by
  rw [run?]
  rcases Native.report_flowFor target.layout none h limit (.start .blank) io with
    ⟨hrun, hflow⟩ | ⟨x, e, k, left, hrun, hflow, hreport, -⟩
  · rw [hrun, hflow]
  · simp only [hrun, hflow, hreport]

namespace Native

variable {a : Assembler} {text : String} {code : Code Native}

theorem compiled_of_plain (h : plain a text = .ok code) : Compiled code :=
  compiled_of_compile Basic.map_token_requests h

theorem exists_of_optimised (h : optimised a text = .ok code) :
    ∃ ts, loweredSource text = .ok ts ∧ compileLowered a ts = .ok code := by
  unfold optimised at h
  split at h
  · exact ⟨_, ‹_›, h⟩
  · cases h

theorem compiled_of_optimised (h : optimised a text = .ok code) : Compiled code := by
  obtain ⟨ts, -, hcode⟩ := exists_of_optimised h
  exact compiled_of_compile Lowered.map_token_requests hcode

end Native

namespace Engine

variable {e : Engine} {target : Target} {text : String} {step : Step}

theorem compiled_of_load {code : Code Native} (h : e.load target text = .ok (.compiled code)) : Native.Compiled code := by
  cases e with
  | scanning => cases h
  | tabled =>
    simp only [load] at h
    split at h <;> cases h
  | grouped =>
    simp only [load] at h
    split at h <;> cases h
  | idiomatic =>
    simp only [load] at h
    split at h <;> cases h
  | plainNative =>
    cases hcode : Native.plain target.assembler text with
    | ok code' =>
      simp only [load, hcode] at h
      cases h
      exact Native.compiled_of_plain hcode
    | error f => simp only [load, hcode] at h; cases h
  | idiomaticNative =>
    cases hcode : Native.optimised target.assembler text with
    | ok code' =>
      simp only [load, hcode] at h
      cases h
      exact Native.compiled_of_optimised hcode
    | error f => simp only [load, hcode] at h; cases h

theorem run?_of_prepare (h : e.prepare target text = .ok step) (limit : Nat) (io : Streams) :
    e.run? target limit text io = runFor step limit (.start .blank) io := by
  rw [prepare] at h
  rw [run?]
  cases hload : e.load target text with
  | error f =>
    rw [hload] at h
    cases h
  | ok r =>
    rw [hload] at h
    cases h
    cases r with
    | stepped step => rfl
    | compiled code => exact Ready.run?_compiled (compiled_of_load hload) limit io

theorem run?_of_error {f : Failure} (h : e.prepare target text = .error f) (limit : Nat) (io : Streams) :
    e.run? target limit text io = some ⟨.failed f, .start .blank, io⟩ := by
  rw [prepare] at h
  rw [run?]
  cases hload : e.load target text with
  | ok r =>
    rw [hload] at h
    cases h
  | error g =>
    rw [hload] at h
    cases h
    rfl

/-- The run of a source text is over after finitely many instructions. -/
def Finishes (e : Engine) (target : Target) (text : String) (io : Streams) (x : Ended) : Prop :=
  ∃ limit, e.run? target limit text io = some x

theorem finishes_iff (h : e.prepare target text = .ok step) {io : Streams} {x : Ended} :
    e.Finishes target text io x ↔ Ends step (.start .blank) io x := by
  simp only [Finishes, run?_of_prepare h, Ends]

theorem finishes_scanning {io : Streams} {x : Ended} : scanning.Finishes target text io x ↔
    Ends (Scanning.step (Source.commands text).toArray) (.start .blank) io x :=
  finishes_iff rfl

end Engine

end TapeMachine
