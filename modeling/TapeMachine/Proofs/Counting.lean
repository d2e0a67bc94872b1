import TapeMachine.Proofs.Frame
import TapeMachine.Proofs.Refusal

namespace TapeMachine

open Emitter (Request)
open Tape (Operation Answer)

namespace Tape

/-- The operations one after the other, up to the first that is refused. -/
def applyUntil (t : Tape) : List Operation → Answer × Tape
  | [] => (.done, t)
  | o :: os =>
    match t.apply o with
    | (.failed f, u) => (.failed f, u)
    | (.crashed, u) => (.crashed, u)
    | (_, u) => u.applyUntil os

variable {t u : Tape}

theorem applyUntil_cons_of_done {o : Operation} (h : t.apply o = (.done, u)) (os : List Operation) :
    t.applyUntil (o :: os) = u.applyUntil os := by
  rw [applyUntil, h]

/-- Steps that add up: one with a count is as many single ones. -/
theorem applyUntil_replicate {step : Nat → Operation} {f : Tape → Nat → Tape}
    (happly : ∀ t n, t.apply (step n) = (.done, f t n)) (hzero : ∀ t, f t 0 = t)
    (hadd : ∀ t m n, f (f t m) n = f t (m + n)) (t : Tape) (n : Nat) :
    t.applyUntil (List.replicate n (step 1)) = t.apply (step n) := by
  rw [happly]
  induction n generalizing t with
  | zero =>
    rw [hzero]
    rfl
  | succ n ih =>
    rw [List.replicate_succ, applyUntil_cons_of_done (happly t 1), ih, hadd, Nat.add_comm 1]

theorem applyUntil_add (t : Tape) (n : Nat) : t.applyUntil (List.replicate n (.add 1)) = t.apply (.add n) :=
  applyUntil_replicate (fun _ _ => rfl) add_zero add_add t n

theorem applyUntil_sub (t : Tape) (n : Nat) : t.applyUntil (List.replicate n (.sub 1)) = t.apply (.sub n) :=
  applyUntil_replicate (fun _ _ => rfl) sub_zero sub_sub t n

theorem sub_add (t : Tape) (n : Nat) : (t.add n).sub n = t := by
  have hback : subCount (addCount t.current n) n = t.current := UInt8.add_sub_cancel _ _
  rw [sub, current_add, hback, add, set_set, set_current]

variable {d : Direction} {n pc : Nat}

theorem apply_move_of_some (h : t.move? d n = some u) : t.apply (.move d n pc) = (.done, u) := by
  rw [apply, h]

theorem apply_move_of_none (h : t.move? d n = none) :
    t.apply (.move d n pc) = (.failed (.outOfBounds (some pc)), t) := by
  rw [apply, h]

/-- Single moves, each with a place of its own to report, come to where their number leads, or one is refused. -/
theorem applyUntil_moves (t : Tape) (d : Direction) (places : List Nat) :
    (∀ u, t.move? d places.length = some u → t.applyUntil (places.map (.move d 1)) = (.done, u)) ∧
      (t.move? d places.length = none → ∃ pc ∈ places,
        (t.applyUntil (places.map (.move d 1))).1 = .failed (.outOfBounds (some pc))) := by
  induction places generalizing t with
  | nil =>
    rw [List.length_nil, move?_zero]
    refine ⟨fun u hu => ?_, nofun⟩
    cases hu
    rfl
  | cons pc places ih =>
    rw [List.length_cons, Nat.add_comm, move?_add, List.map_cons]
    cases hstep : t.move? d 1 with
    | none =>
      refine ⟨nofun, fun _ => ⟨pc, List.mem_cons_self, ?_⟩⟩
      rw [applyUntil, apply_move_of_none hstep]
    | some u =>
      rw [Option.bind_some, applyUntil_cons_of_done (apply_move_of_some hstep)]
      obtain ⟨hsome, hnone⟩ := ih u
      refine ⟨hsome, fun h => ?_⟩
      obtain ⟨pc', hmem, he⟩ := hnone h
      exact ⟨pc', List.mem_cons_of_mem _ hmem, he⟩

/-- Steps with a count against as many single steps. -/
structure Counts (t : Tape) (n : Nat) : Prop where
  add : t.apply (.add n) = t.applyUntil (List.replicate n (.add 1))
  sub : t.apply (.sub n) = t.applyUntil (List.replicate n (.sub 1))
  undo : t.applyUntil [.add n, .sub n] = (.done, t)
  moves_iff : ∀ d pc (places : List Nat), places.length = n →
    ((t.apply (.move d n pc)).1 = .done ↔ (t.applyUntil (places.map (.move d 1))).1 = .done)
  moved : ∀ d pc (places : List Nat), places.length = n → (t.apply (.move d n pc)).1 = .done →
    (t.apply (.move d n pc)).2 = (t.applyUntil (places.map (.move d 1))).2
  refused : ∀ d pc, (t.apply (.move d n pc)).1 ≠ .done → t.apply (.move d n pc) = (.failed (.outOfBounds (some pc)), t)

theorem counts (t : Tape) (n : Nat) : t.Counts n := by
  refine ⟨(applyUntil_add t n).symm, (applyUntil_sub t n).symm, ?_, ?_, ?_, ?_⟩
  · have hadd : t.apply (.add n) = (.done, t.add n) := rfl
    have hsub : (t.add n).apply (.sub n) = (.done, t) := Prod.ext rfl (t.sub_add n)
    rw [applyUntil_cons_of_done hadd, applyUntil_cons_of_done hsub]
    rfl
  · rintro d pc places rfl
    obtain ⟨hsome, hnone⟩ := applyUntil_moves t d places
    cases hm : t.move? d places.length with
    | some u => rw [apply_move_of_some hm, hsome u hm]
    | none =>
      obtain ⟨pc', -, he⟩ := hnone hm
      rw [apply_move_of_none hm, he]
      exact ⟨nofun, nofun⟩
  · rintro d pc places rfl hdone
    cases hm : t.move? d places.length with
    | some u => rw [apply_move_of_some hm, (applyUntil_moves t d places).1 u hm]
    | none =>
      rw [apply_move_of_none hm] at hdone
      cases hdone
  · intro d pc hrefused
    cases hm : t.move? d n with
    | some u =>
      rw [apply_move_of_some hm] at hrefused
      exact absurd rfl hrefused
    | none => exact apply_move_of_none hm

end Tape

/-- An answer as a verdict on emitted code, which does not know its place. -/
def Tape.Answer.verdict : Answer → Verdict
  | .failed _ => .failed (.outOfBounds none)
  | .crashed => .crashed
  | _ => .done

/-- What an instruction does that does an operation: it goes on with the tape, or it ends the run. -/
def Config.reply (c : Config) : Answer × Tape → Action
  | (.failed f, t) => .halt ⟨c.pc, t⟩ (Answer.failed f).verdict
  | (.crashed, t) => .halt ⟨c.pc, t⟩ Answer.crashed.verdict
  | (_, t) => .resume (c.next t)

inductive Emitter.Request.Asks : Request → Operation → Prop where
  | move (d : Direction) {n : Nat} (pc : Nat) : n ≤ maxOffset → Asks (.move d n) (.move d n pc)
  | add (n : Nat) : Asks (.add n) (.add n)
  | sub (n : Nat) : Asks (.sub n) (.sub n)

def Native.Realises (x : Native) (o : Operation) : Prop :=
  ∀ c : Config, x.act c = c.reply (c.tape.apply o)

theorem Emitter.Request.Asks.exists_native {r : Request} {o : Operation} (h : r.Asks o) :
    ∃ x : Native, (∀ e, Emitter.emit e r = .ok (e.pushOp x)) ∧ x.Realises o := by
  cases h with
  | move d pc hn =>
    refine ⟨.move d _, fun e => if_pos hn, fun c => ?_⟩
    rw [Native.act, Config.moveBy, Tape.apply]
    cases c.tape.move? d _ with
    | some u => rfl
    | none => rfl
  | add n => exact ⟨.add (.ofNat n), fun e => rfl, fun c => rfl⟩
  | sub n => exact ⟨.sub (.ofNat n), fun e => rfl, fun c => rfl⟩

theorem Emitter.exists_emitAll {rs : List Request} {os : List Operation} (h : List.Forall₂ Request.Asks rs os)
    (e : Emitter) : ∃ xs : List Native, List.Forall₂ Native.Realises xs os ∧
      emitAll e rs = .ok ⟨e.code ++ (xs.map Instr.op).toArray, e.loops⟩ := by
  induction h generalizing e with
  | nil => exact ⟨[], .nil, by simp [emitAll]⟩
  | cons hr _ ih =>
    obtain ⟨x, hemit, hx⟩ := hr.exists_native
    obtain ⟨xs, hxs, hall⟩ := ih (e.pushOp x)
    refine ⟨x :: xs, .cons hx hxs, ?_⟩
    rw [emitAll, hemit]
    refine hall.trans ?_
    simp [Linker.pushOp]

/-- The instructions from `i` on do the operations one after the other, up to the first that is refused. -/
theorem Native.ends_of_realises {code : Code Native} {xs : List Native} {os : List Operation}
    (h : List.Forall₂ Realises xs os) {i : Nat} (hcode : code.toList.drop i = xs.map Instr.op) (t : Tape)
    (io : Streams) :
    ∃ pc, Ends (step code) ⟨i, t⟩ io ⟨(t.applyUntil os).1.verdict, ⟨pc, (t.applyUntil os).2⟩, io⟩ := by
  induction h generalizing i t with
  | nil =>
    have hout : code[i]? = none := by
      rw [← Array.getElem?_toList]
      exact List.getElem?_eq_none (List.drop_eq_nil_iff.mp hcode)
    refine ⟨i, .of_halt ?_⟩
    rw [step, Code.step, hout]
    rfl
  | @cons x o xs os hx _ ih =>
    obtain ⟨hi, hrest⟩ := getElem?_of_drop_eq_cons hcode
    have hstep : step code ⟨i, t⟩ = Config.reply ⟨i, t⟩ (t.apply o) := by
      rw [Array.getElem?_toList] at hi
      simp only [step, Code.step, hi]
      exact hx ⟨i, t⟩
    rw [Tape.applyUntil]
    rcases ho : t.apply o with ⟨a, u⟩
    rw [ho] at hstep
    obtain ⟨pc, hends⟩ := ih hrest u
    cases a with
    | done => exact ⟨pc, .of_resume (by rw [hstep]; rfl) hends⟩
    | cell => exact ⟨pc, .of_resume (by rw [hstep]; rfl) hends⟩
    | failed => exact ⟨i, .of_halt (by rw [hstep]; rfl)⟩
    | crashed => exact ⟨i, .of_halt (by rw [hstep]; rfl)⟩

theorem Runtime.runs_of_asks {a : Assembler} {rs : List Request} {os : List Operation} (ha : a.Takes rs.length)
    (h : List.Forall₂ Request.Asks rs os) : ∃ code, Emitter.assemble a rs = .ok code ∧ ∀ r : Runtime,
      r.Runs code (r.tape.rewind.applyUntil os).1.verdict ⟨(r.tape.rewind.applyUntil os).2, r.io⟩ := by
  obtain ⟨xs, hxs, hall⟩ := Emitter.exists_emitAll h .empty
  have hsize : (#[] ++ (xs.map Instr.op).toArray : Code Native).size = rs.length := by
    have hlinks := (Emitter.takes_of_emitAll hall).links
    exact hlinks.size.trans (List.length_map _)
  have hwhole := Emitter.encodable_of_emitAll hall fun _ ho => absurd ho (Array.not_mem_empty _)
  have hcode : Emitter.assemble a rs = .ok (#[] ++ (xs.map Instr.op).toArray) := by
    rw [Emitter.assemble, hall]
    exact Emitter.finish_of_takes rfl (hsize.symm ▸ ha) hwhole
  have hstart : (#[] ++ (xs.map Instr.op).toArray).toList.drop 0 = xs.map Instr.op := by simp
  refine ⟨_, hcode, fun r => ?_⟩
  obtain ⟨pc, hends⟩ := Native.ends_of_realises hxs hstart r.tape.rewind r.io
  exact Runtime.runs_iff.mpr ⟨_, hends, rfl⟩

/-- A step with a count does what as many single steps do: on the tape, in memory, where counts and indices are words,
and in emitted code, where the pointer is an address. A move that is refused changes nothing. -/
theorem counted_steps_are_single_steps :
    (∀ (t : Tape) (n : Nat), t.Counts n) ∧
    (∀ (t : Tape) (o : Operation), t.raw.apply o = ((t.apply o).1, (t.apply o).2.raw)) ∧
    (∀ {r : Request} {o : Operation}, r.Asks o →
      ∃ x : Native, (∀ e, Emitter.emit e r = .ok (e.pushOp x)) ∧ x.Realises o) ∧
    (∀ {a : Assembler} {rs : List Request} {os : List Operation}, a.Takes rs.length → List.Forall₂ Request.Asks rs os →
      ∃ code, Emitter.assemble a rs = .ok code ∧ ∀ r : Runtime,
        r.Runs code (r.tape.rewind.applyUntil os).1.verdict ⟨(r.tape.rewind.applyUntil os).2, r.io⟩) ∧
    ∀ {base n : Nat}, maxOffset ≤ base → base + Tape.size + maxOffset ≤ 2 ^ 64 → n ≤ maxOffset →
      ∀ (t : Tape) (d : Direction),
        Native.pointer? (.ofNat base) (.ofNat (base + Tape.size)) d (.ofNat (base + t.head)) (.ofNat n) =
          (t.cellAt? d n).map fun i => .ofNat (base + i) :=
  ⟨Tape.counts, Tape.apply_raw, fun h => h.exists_native, Runtime.runs_of_asks, Native.pointer?_eq⟩

/-- More than 255 increments, a move by the largest offset that can be encoded, and a count that is the largest word. -/
theorem counted_steps_are_single_steps_large :
    (∃ code, Emitter.assemble .willing [.add (2 ^ 32 - 1), .move .forward (2 ^ 31 - 1), .add 1] = .ok code ∧
      (Runtime.start (.start [] {})).Runs code (.failed (.outOfBounds none)) ⟨Tape.blank.set 255, .start [] {}⟩) ∧
    Tape.blank.apply (.move .forward (2 ^ 64 - 1) 7) = (.failed (.outOfBounds (some 7)), .blank) ∧
    Native.pointer? (.ofNat (2 ^ 40)) (.ofNat (2 ^ 40 + 30000)) .backward (.ofNat (2 ^ 40)) 1 = none := by
  obtain ⟨hcounts, -, -, hprogram, hpointer⟩ := counted_steps_are_single_steps
  refine ⟨?_, ?_, ?_⟩
  · obtain ⟨code, hcode, hruns⟩ := @hprogram .willing _ [.add (2 ^ 32 - 1), .move .forward (2 ^ 31 - 1) 7, .add 1]
      (Assembler.takes_willing _) (.cons (.add _) (.cons (.move _ 7 (by decide)) (.cons (.add _) .nil)))
    exact ⟨code, hcode, hruns (.start (.start [] {}))⟩
  · exact (hcounts .blank (2 ^ 64 - 1)).refused .forward 7 (by decide)
  · exact @hpointer (2 ^ 40) 1 (by decide) (by decide) (by decide) .blank .backward

end TapeMachine
