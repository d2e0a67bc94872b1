import TapeMachine.Engine.Tabled
import TapeMachine.Proofs.Grouping
import TapeMachine.Proofs.Simulate

namespace TapeMachine

section Shared

variable {α β : Type}

def Instr.map (f : α → β) : Instr α → Instr β
  | op a => op (f a)
  | ifZero d => ifZero d
  | ifNonzero d => ifNonzero d

def Token.instr (d : Nat) : Token α → Instr α
  | op a => .op a
  | opening => .ifZero d
  | closing => .ifNonzero d

theorem Code.step_map (act : β → Config → Action) (f : α → β) (code : Code α) :
    Code.step act (code.map (Instr.map f)) = Code.step (fun a => act (f a)) code := by
  funext c
  rw [Code.step, Code.step, Array.getElem?_map, Array.size_map]
  cases code[c.pc]? with
  | none => rfl
  | some x => cases x <;> rfl

end Shared

namespace TabledProgram

def code (p : TabledProgram) : Code Basic :=
  p.commands.mapIdx fun i t => t.instr (p.table.getD i 0)

def grouped (p : TabledProgram) : Grouped.Program :=
  p.code.map (Instr.map (⟨·, 1⟩))

variable {p : TabledProgram}

theorem getElem?_code (p : TabledProgram) (i : Nat) :
    p.code[i]? = p.commands[i]?.map (Token.instr (p.table.getD i 0)) :=
  Array.getElem?_mapIdx

theorem jump_eq {c : Config} (h : c.pc < p.table.size) :
    p.jump c = c.jump p.commands.size (p.table.getD c.pc 0) := by
  rw [jump, Array.getD_eq_getD_getElem?, Array.getElem?_eq_getElem h]
  rfl

/-- Where the table has an entry for every command, it does not matter whether a destination is in the table or in the
jump. -/
theorem step_eq (h : p.commands.size ≤ p.table.size) : p.step = Code.step Basic.act p.code := by
  funext c
  have hsize : p.code.size = p.commands.size := Array.size_mapIdx
  rw [step, Code.step, getElem?_code, hsize]
  cases ht : p.commands[c.pc]? with
  | none => rfl
  | some t =>
    have hlt : c.pc < p.table.size := Nat.lt_of_lt_of_le (Array.getElem?_eq_some_iff.mp ht).1 h
    cases t with
    | op a => rfl
    | bracket b =>
      cases b with
      | opening => rw [jump_eq hlt]; rfl
      | closing => rw [jump_eq hlt]; rfl

end TabledProgram

/-- A program of the grouping engine for the idiomatic one, with the same counts and destinations. -/
def Grouped.lowered (p : Grouped.Program) : Idiomatic.Program :=
  p.map (Instr.map fun r => .counted r.op r.count)

theorem Grouped.step_lowered (p : Grouped.Program) :
    Idiomatic.step (lowered p) = Code.step (fun r => Idiomatic.act (.counted r.op r.count)) p :=
  Code.step_map _ _ p

theorem Grouped.act_one (b : Basic) : Grouped.act ⟨b, 1⟩ = b.act := by
  funext c
  cases b <;> rfl

theorem Idiomatic.act_one (b : Basic) : Idiomatic.act (.counted b 1) = b.act := by
  funext c
  cases b <;> rfl

section Once

variable {p : TabledProgram} (h : p.commands.size ≤ p.table.size)

include h

theorem Grouped.step_grouped : Grouped.step p.grouped = p.step := by
  rw [Grouped.step, TabledProgram.grouped, Code.step_map, p.step_eq h]
  simp only [Grouped.act_one]

theorem Idiomatic.step_grouped : Idiomatic.step (Grouped.lowered p.grouped) = p.step := by
  rw [Grouped.step_lowered, TabledProgram.grouped, Code.step_map, p.step_eq h]
  simp only [Idiomatic.act_one]

end Once

/-- Both runs have dealt with the same bytes and have the same verdict. -/
structure Ended.SameBytes (x y : Ended) : Prop where
  bytes : x.io.SameBytes y.io
  verdict : x.verdict = y.verdict

/-- Both machines are at the same instruction with the same tape, and have dealt with the same bytes. -/
structure SamePlace (c : Config) (io : Streams) (d : Config) (jo : Streams) : Prop where
  config : c = d
  bytes : io.SameBytes jo

section Counted

variable {p : Grouped.Program} {c : Config} {io jo : Streams} {step : Step}

theorem Reply.SameBytes.covers {q : Reply} (h : Reply.SameBytes ((step c).perform io) q) :
    Covers step SamePlace Ended.SameBytes c io q := by
  generalize hp : (step c).perform io = p at h
  cases h with
  | resume hbytes => exact .resume (.of_resume hp) ⟨rfl, hbytes⟩
  | halt hbytes => exact .halt (.of_halt hp) ⟨hbytes, rfl⟩

theorem jumpIf_sameBytes (taken : Prop) [Decidable taken] (size d : Nat) (h : io.SameBytes jo) :
    Reply.SameBytes ((c.jumpIf taken size d).perform io) ((c.jumpIf taken size d).perform jo) := by
  unfold Config.jumpIf Config.jump
  split
  · split
    · exact .resume h
    · exact .halt h
  · exact .resume h

theorem step_sameBytes (hread : ∀ r, .op r ∈ p → r.op = .read → 0 < r.count) (h : io.SameBytes jo) :
    Reply.SameBytes ((Idiomatic.step (Grouped.lowered p) c).perform io) ((Grouped.step p c).perform jo) := by
  rw [Grouped.step_lowered, Grouped.step, Code.step, Code.step]
  cases hx : p[c.pc]? with
  | none => exact .halt h
  | some x =>
    cases x with
    | op r => exact Grouped.act_sameBytes (hread r (Array.mem_of_getElem? hx)) c h
    | ifZero d => exact jumpIf_sameBytes _ _ _ h
    | ifNonzero d => exact jumpIf_sameBytes _ _ _ h

theorem simulates_lowered (hread : ∀ r, .op r ∈ p → r.op = .read → 0 < r.count) :
    Simulates (Idiomatic.step (Grouped.lowered p)) (Grouped.step p) SamePlace Ended.SameBytes := by
  rintro c io d jo ⟨rfl, hbytes⟩
  exact (step_sameBytes hread hbytes).covers

end Counted

/-- Commands with a table that has an entry for each of them run in the same way on the three interpreters, whatever the
entries are. Counted commands with any counts and destinations run in the same way on two of them, but for the flushes,
as long as flushes do not fail and every read is done at least once; a read that is done zero times clears the cell on one
of them and does nothing on the other one. -/
theorem shared_instructions_agree :
    (∀ p : TabledProgram, p.commands.size ≤ p.table.size → ∀ c io x,
      (Ends (Grouped.step p.grouped) c io x ↔ Ends p.step c io x) ∧
        (Ends (Idiomatic.step (Grouped.lowered p.grouped)) c io x ↔ Ends p.step c io x)) ∧
    (∀ p : Grouped.Program, (∀ r, .op r ∈ p → r.op = .read → 0 < r.count) →
      ∀ (c : Config) (io : Streams), io.faults.flushFail = none →
        ((∃ y, Ends (Grouped.step p) c io y) ↔ ∃ x, Ends (Idiomatic.step (Grouped.lowered p)) c io x) ∧
          ∀ x y, Ends (Idiomatic.step (Grouped.lowered p)) c io x → Ends (Grouped.step p) c io y → x.SameBytes y) ∧
    ∀ (t : Tape) (io : Streams),
      Ends (Grouped.step #[.op ⟨.read, 0⟩]) ⟨0, t⟩ io ⟨.done, ⟨1, t.set 0⟩, io⟩ ∧
        Ends (Idiomatic.step (Grouped.lowered #[.op ⟨.read, 0⟩])) ⟨0, t⟩ io ⟨.done, ⟨1, t⟩, io⟩ := by
  refine ⟨fun p h c io x => ?_, fun p hread c io hflush => ?_, fun t io => ⟨⟨2, rfl⟩, ?_⟩⟩
  · rw [Grouped.step_grouped h, Idiomatic.step_grouped h]
    exact ⟨Iff.rfl, Iff.rfl⟩
  · exact (simulates_lowered hread).ends_iff ⟨rfl, .of_flushFail hflush⟩
  · rw [Grouped.step_lowered]
    exact ⟨2, rfl⟩

/-- The first closing bracket jumps over a write to the second one, which jumps far behind the program. The counted program
writes zero times first, and then its jump back leads behind that write. -/
theorem shared_instructions_agree_astray :
    (∃ x, Ends (Grouped.step (TabledProgram.grouped ⟨(Source.commands ",[.].]").toArray, #[7, 0, 0, 4, 0, 2 ^ 40]⟩))
      (.start .blank) (.start [1] {}) x ∧ x.verdict = .done ∧ x.io.written = #[1]) ∧
    ∃ x y,
      Ends (Idiomatic.step (Grouped.lowered #[.op ⟨.write, 0⟩, .op ⟨.decrement, 128⟩, .op ⟨.write, 2⟩, .ifNonzero 0]))
        (.start .blank) (.start [] {}) x ∧
      Ends (Grouped.step #[.op ⟨.write, 0⟩, .op ⟨.decrement, 128⟩, .op ⟨.write, 2⟩, .ifNonzero 0])
        (.start .blank) (.start [] {}) y ∧
      x.SameBytes y ∧ y.io.written = #[128, 128, 0, 0] ∧ x.io.flushes = 4 := by
  obtain ⟨honce, hcounted, -⟩ := shared_instructions_agree
  constructor
  · have htabled : ∃ x, Ends (TabledProgram.step ⟨(Source.commands ",[.].]").toArray, #[7, 0, 0, 4, 0, 2 ^ 40]⟩)
        (.start .blank) (.start [1] {}) x ∧ x.verdict = .done ∧ x.io.written = #[1] := ⟨_, ⟨20, rfl⟩, rfl, rfl⟩
    obtain ⟨x, hx, hdone, hwritten⟩ := htabled
    exact ⟨x, ((honce _ (by decide) _ _ x).1).mpr hx, hdone, hwritten⟩
  · have hidiomatic : ∃ x, Ends (Idiomatic.step (Grouped.lowered
        #[.op ⟨.write, 0⟩, .op ⟨.decrement, 128⟩, .op ⟨.write, 2⟩, .ifNonzero 0])) (.start .blank) (.start [] {}) x ∧
        x.io.written = #[128, 128, 0, 0] ∧ x.io.flushes = 4 := by
      rw [Grouped.step_lowered]
      exact ⟨_, ⟨20, rfl⟩, rfl, rfl⟩
    obtain ⟨x, hx, hwritten, hflushes⟩ := hidiomatic
    obtain ⟨hends, hsame⟩ := hcounted #[.op ⟨.write, 0⟩, .op ⟨.decrement, 128⟩, .op ⟨.write, 2⟩, .ifNonzero 0]
      (fun r hr hop => by simp at hr; rcases hr with rfl | rfl | rfl <;> cases hop) (.start .blank) (.start [] {}) rfl
    obtain ⟨y, hy⟩ := hends.mpr ⟨x, hx⟩
    have hxy := hsame x y hx hy
    exact ⟨x, y, hx, hy, hxy, hxy.bytes.written ▸ hwritten, hflushes⟩

end TapeMachine
