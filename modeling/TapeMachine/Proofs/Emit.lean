import TapeMachine.Native.Compile
import TapeMachine.Proofs.Block
import TapeMachine.Proofs.Link

namespace TapeMachine

open Emitter (Request)

variable {α : Type}

def Emitter.Request.token : Request → Token Native
  | move d n => .op (.move d n)
  | add n => .op (.add (UInt8.ofNat n))
  | sub n => .op (.sub (UInt8.ofNat n))
  | clear => .op .clear
  | read => .op .read
  | write => .op .write
  | jumpBegin _ => .opening
  | jumpEnd _ => .closing
  | scan d n => .op (.scan d n)
  | transfer d n => .op (.transfer d n)

def Basic.native : Basic → Native
  | move d => .move d 1
  | increment => .add (UInt8.ofNat 1)
  | decrement => .sub (UInt8.ofNat 1)
  | read => .read
  | write => .write

def Lowered.natives : Lowered → List Native
  | counted (.move d) n => [.move d n]
  | counted .increment n => [.add (UInt8.ofNat n)]
  | counted .decrement n => [.sub (UInt8.ofNat n)]
  | counted .read n => List.replicate n .read
  | counted .write n => List.replicate n .write
  | clear => [.clear]
  | scan _ d a => [.scan d a]
  | transfer _ d a => [.transfer d a]

theorem Basic.map_token_requests (b : Basic) : b.requests.map Request.token = [b.native].map .op := by
  cases b <;> rfl

theorem Basic.encodable_native (b : Basic) : b.native.Encodable := by
  cases b with
  | move d => exact (by decide : 1 ≤ maxOffset)
  | _ => trivial

theorem Lowered.map_token_requests (o : Lowered) : o.requests.map Request.token = o.natives.map .op := by
  match o with
  | .counted (.move _) _ => rfl
  | .counted .increment _ => rfl
  | .counted .decrement _ => rfl
  | .counted .read _ => simp [requests, natives, Request.token]
  | .counted .write _ => simp [requests, natives, Request.token]
  | .clear => rfl
  | .scan _ _ _ => rfl
  | .transfer _ _ _ => rfl

namespace Emitter

theorem emit_jumpEnd_eq_ok_iff {e e' : Emitter} {p : Nat} : emit e (.jumpEnd p) = .ok e' ↔ e.closeLoop p = .ok e' := by
  simp only [emit, Linker.closeLoop]
  rcases e.pop with ⟨_ | o, left⟩
  · exact ⟨nofun, nofun⟩
  · simp only [Except.ok.injEq]

theorem left_of_emit_jumpEnd {e : Emitter} {p : Nat} {x : Refused} (h : emit e (.jumpEnd p) = .error x) : x.left = e := by
  obtain ⟨code, loops⟩ := e
  cases loops with
  | nil =>
    cases h
    rfl
  | cons o loops => cases h

/-- What a granted request does: it emits an operation that can be encoded, or opens or closes a loop. -/
theorem emit_cases {e e' : Emitter} {r : Request} (h : emit e r = .ok e') :
    (∃ o, r.token = .op o ∧ o.Encodable ∧ e' = e.pushOp o) ∨ (∃ p, r = .jumpBegin p ∧ e' = e.openLoop p) ∨
      ∃ p, r = .jumpEnd p ∧ e.closeLoop p = .ok e' := by
  have offset : ∀ {n : Nat} {o : Native} {begun : Emitter → Emitter}, withOffset e n o begun = .ok e' →
      n ≤ maxOffset ∧ e' = e.pushOp o := by
    intro n o begun ho
    unfold withOffset at ho
    split at ho
    · cases ho
      exact ⟨‹_›, rfl⟩
    · cases ho
  cases r with
  | move => exact .inl ⟨_, rfl, offset h⟩
  | scan => exact .inl ⟨_, rfl, offset h⟩
  | transfer => exact .inl ⟨_, rfl, offset h⟩
  | jumpBegin p => exact .inr (.inl ⟨p, rfl, (Except.ok.inj h).symm⟩)
  | jumpEnd p => exact .inr (.inr ⟨p, rfl, emit_jumpEnd_eq_ok_iff.mp h⟩)
  | _ => exact .inl ⟨_, rfl, trivial, (Except.ok.inj h).symm⟩

theorem emit_of_token {e : Emitter} {r : Request} {o : Native} (hr : r.token = .op o) (ho : o.Encodable) :
    emit e r = .ok (e.pushOp o) := by
  cases r with
  | jumpBegin => cases hr
  | jumpEnd => cases hr
  | move => cases hr; exact if_pos ho
  | scan => cases hr; exact if_pos ho
  | transfer => cases hr; exact if_pos ho
  | _ => cases hr; rfl

theorem takes_of_emit {e e' : Emitter} {r : Request} (h : emit e r = .ok e') : Linker.Takes e [r.token] e' := by
  rcases emit_cases h with ⟨o, ho, -, rfl⟩ | ⟨p, rfl, rfl⟩ | ⟨p, rfl, hclose⟩
  · rw [ho]
    exact .op (.nil _)
  · exact .opening p (.nil _)
  · exact .closing hclose (.nil _)

theorem takes_of_emitAll {rs : List Request} {e e' : Emitter} (h : emitAll e rs = .ok e') :
    Linker.Takes e (rs.map Request.token) e' := by
  induction rs generalizing e with
  | nil =>
    cases h
    exact .nil _
  | cons r rs ih =>
    rw [emitAll] at h
    split at h
    · exact (takes_of_emit ‹_›).append (ih h)
    · cases h

/-- Operations with offsets that can be encoded are emitted, and no loop is opened or closed. -/
theorem emitAll_of_encodable {rs : List Request} {os : List Native} (hrs : rs.map Request.token = os.map .op)
    (hos : ∀ o ∈ os, o.Encodable) (e : Emitter) : ∃ e', emitAll e rs = .ok e' ∧ e'.loops = e.loops := by
  induction rs generalizing os e with
  | nil => exact ⟨e, rfl, rfl⟩
  | cons r rs ih =>
    cases os with
    | nil => cases hrs
    | cons o os =>
      obtain ⟨hr, hrs⟩ := List.cons.inj hrs
      have hone : emit e r = .ok (e.pushOp o) := emit_of_token hr (hos o List.mem_cons_self)
      obtain ⟨e', he, hloops⟩ := ih hrs (fun o ho => hos o (List.mem_cons_of_mem _ ho)) (e.pushOp o)
      exact ⟨e', by rw [emitAll, hone]; exact he, hloops⟩

theorem encodable_of_emit {e e' : Emitter} {r : Request} (h : emit e r = .ok e')
    (he : ∀ o, .op o ∈ e.code → o.Encodable) : ∀ o, .op o ∈ e'.code → o.Encodable := by
  intro x hx
  rcases emit_cases h with ⟨o, -, ho, rfl⟩ | ⟨p, -, rfl⟩ | ⟨p, -, hclose⟩
  · rcases Array.mem_push.mp hx with hx | hx
    · exact he x hx
    · cases hx
      exact ho
  · rcases Array.mem_push.mp hx with hx | hx
    · exact he x hx
    · cases hx
  · obtain ⟨code, loops⟩ := e
    cases loops with
    | nil => cases hclose
    | cons l loops =>
      cases hclose
      rcases Array.mem_push.mp hx with hx | hx
      · rcases Array.mem_or_eq_of_mem_setIfInBounds hx with hx | hx
        · exact he x hx
        · cases hx
      · cases hx

theorem encodable_of_emitAll {rs : List Request} {e e' : Emitter} (h : emitAll e rs = .ok e')
    (he : ∀ o, .op o ∈ e.code → o.Encodable) : ∀ o, .op o ∈ e'.code → o.Encodable := by
  induction rs generalizing e with
  | nil =>
    cases h
    exact he
  | cons r rs ih =>
    rw [emitAll] at h
    split at h
    · exact ih h (encodable_of_emit ‹_› he)
    · cases h

theorem finish_eq_ok_iff {a : Assembler} {e : Emitter} {code : Code Native} :
    finish a e = .ok code ↔ e.loops = [] ∧ e.code = code ∧ a.handedBack? code = none := by
  have commit : ∀ {code' : Code Native}, a.commit code' = .ok code ↔ code' = code ∧ a.handedBack? code = none := by
    intro code'
    unfold Assembler.commit
    constructor
    · intro h
      split at h
      · cases h
        exact ⟨rfl, ‹_›⟩
      · cases h
    · rintro ⟨rfl, h⟩
      rw [h]
  unfold finish
  rcases hl : Linker.finish e with u | code'
  · simp only [reduceCtorEq, false_iff, not_and]
    intro hnil
    cases hl.symm.trans (Linker.finish_eq_ok_iff.mpr ⟨hnil, rfl⟩)
  · obtain ⟨hnil, rfl⟩ := Linker.finish_eq_ok_iff.mp hl
    simp only [commit, hnil, true_and]

theorem finish_of_takes {a : Assembler} {e : Emitter} (hloops : e.loops = []) (ha : a.Takes e.code.size)
    (he : ∀ o, .op o ∈ e.code → o.Encodable) : finish a e = .ok e.code :=
  finish_eq_ok_iff.mpr ⟨hloops, rfl, ha.commits _ (Nat.le_refl _) he⟩

end Emitter

namespace Native

/-- Code as it comes from an emitter: its operations are whole and its jumps are linked. -/
structure Compiled (code : Code Native) : Prop where
  encodable : ∀ o, .op o ∈ code → o.Encodable
  linked : ∃ ts, Balanced ts ∧ Links ts code

section Emit

variable {requests : α → List Request} {natives : α → List Native}

theorem encodable_of_emitFrom {ts : List (Token α)} {e e' : Emitter} {i : Nat} (h : emitFrom requests e i ts = .ok e')
    (he : ∀ o, .op o ∈ e.code → o.Encodable) : ∀ o, .op o ∈ e'.code → o.Encodable := by
  induction ts generalizing e i with
  | nil =>
    cases h
    exact he
  | cons t ts ih =>
    rw [emitFrom] at h
    split at h
    · exact ih h (Emitter.encodable_of_emitAll ‹_› he)
    · cases h

theorem compile_of_opens {a : Assembler} (ha : a.openError? = none) (ts : List (Token α)) :
    compile a requests ts = match emitFrom requests .empty 0 ts with
      | .ok e => e.finish a
      | .error f => .error f := by
  cases he : emitFrom requests .empty 0 ts with
  | ok e => simp only [compile, Assembler.start, ha, he]
  | error f => simp only [compile, Assembler.start, ha, he]

theorem compile_eq_ok_iff {a : Assembler} {ts : List (Token α)} {code : Code Native} :
    compile a requests ts = .ok code ↔ a.openError? = none ∧ ∃ e, emitFrom requests .empty 0 ts = .ok e ∧
      e.loops = [] ∧ e.code = code ∧ a.handedBack? code = none := by
  cases ho : a.openError? with
  | some err =>
    simp only [compile, Assembler.start, ho]
    exact ⟨nofun, fun h => nomatch h.1⟩
  | none =>
    rw [compile_of_opens ho]
    cases emitFrom requests .empty 0 ts with
    | error f => simp
    | ok e => simp [Emitter.finish_eq_ok_iff]

variable (hreq : ∀ a, (requests a).map Request.token = (natives a).map .op)

include hreq

theorem takes_of_emitFrom {ts : List (Token α)} {e e' : Emitter} {i : Nat}
    (h : emitFrom requests e i ts = .ok e') : Linker.Takes e (ts.flatMap (Block.bindToken natives)) e' := by
  induction ts generalizing e i with
  | nil =>
    cases h
    exact .nil _
  | cons t ts ih =>
    rw [emitFrom] at h
    split at h
    · rename_i k hk
      have htoken : (requestsAt requests i t).map Request.token = Block.bindToken natives t := by
        match t with
        | .op a => exact hreq a
        | .opening => rfl
        | .closing => rfl
      rw [List.flatMap_cons, ← htoken]
      exact (Emitter.takes_of_emitAll hk).append (ih h)
    · cases h

theorem emitFrom_of_closes {ts : List (Token α)} (hfit : ∀ a, .op a ∈ ts → ∀ o ∈ natives a, o.Encodable)
    {e : Emitter} (i : Nat) (h : closes e.loops.length ts = true) :
    ∃ e', emitFrom requests e i ts = .ok e' ∧ e'.loops = [] := by
  induction ts generalizing e i with
  | nil => exact ⟨e, rfl, by simpa [closes] using h⟩
  | cons t ts ih =>
    have hrest := fun a ha => hfit a (List.mem_cons_of_mem t ha)
    cases t with
    | op a =>
      obtain ⟨k, hk, hloops⟩ := Emitter.emitAll_of_encodable (hreq a) (hfit a List.mem_cons_self) e
      obtain ⟨e', he, hnil⟩ := ih hrest (e := k) (i + 1) (hloops ▸ h)
      exact ⟨e', by rw [emitFrom]; simp only [requestsAt, hk]; exact he, hnil⟩
    | bracket b =>
      cases b with
      | opening => exact ih hrest (e := e.openLoop i) (i + 1) h
      | closing =>
        obtain ⟨code, loops⟩ := e
        cases loops with
        | nil => simp [closes] at h
        | cons o loops => exact ih hrest (e := ⟨_, loops⟩) (i + 1) h

theorem links_of_compile {a : Assembler} {b : Block α} {code : Code Native} (h : compile a requests b.tokens = .ok code) :
    Links (b.bind natives).tokens code := by
  obtain ⟨-, e, he, -, rfl, -⟩ := compile_eq_ok_iff.mp h
  rw [Block.tokens_bind]
  exact (takes_of_emitFrom hreq he).links

theorem balanced_of_compile {a : Assembler} {ts : List (Token α)} {code : Code Native}
    (h : compile a requests ts = .ok code) : Balanced ts := by
  obtain ⟨-, e, he, hloops, -, -⟩ := compile_eq_ok_iff.mp h
  have hcloses := (takes_of_emitFrom hreq he).closes hloops
  rw [Block.closes_bind] at hcloses
  exact balanced_iff_closes.mpr hcloses

theorem compiled_of_compile {a : Assembler} {ts : List (Token α)} {code : Code Native}
    (h : compile a requests ts = .ok code) : Compiled code := by
  have hb := balanced_of_compile hreq h
  obtain ⟨-, e, he, -, rfl, -⟩ := compile_eq_ok_iff.mp h
  refine ⟨encodable_of_emitFrom he fun o ho => ?_, _, ?_, (takes_of_emitFrom hreq he).links⟩
  · cases Array.not_mem_empty _ ho
  · rw [balanced_iff_closes, Block.closes_bind]
    exact balanced_iff_closes.mp hb

/-- The code of a program does not depend on the assembler that takes it. -/
theorem compile_of_takes {a a' : Assembler} {ts : List (Token α)} {code : Code Native}
    (h : compile a requests ts = .ok code) (ha : a'.Takes code.size) : compile a' requests ts = .ok code := by
  have hcompiled := compiled_of_compile hreq h
  obtain ⟨-, e, he, hloops, rfl, -⟩ := compile_eq_ok_iff.mp h
  exact compile_eq_ok_iff.mpr ⟨ha.opens, e, he, hloops, rfl, ha.commits _ (Nat.le_refl _) hcompiled.encodable⟩

variable {ts : List (Token α)} (hfit : ∀ a, .op a ∈ ts → ∀ o ∈ natives a, o.Encodable)

include hfit

/-- Balanced programs have code if their offsets can be encoded, and an assembler that takes it compiles them. -/
theorem exists_compile (hb : Balanced ts) : ∃ code : Code Native,
    code.size = (ts.flatMap (Block.bindToken natives)).length ∧ ∀ a : Assembler, a.Takes code.size →
      compile a requests ts = .ok code := by
  obtain ⟨e, he, hloops⟩ := emitFrom_of_closes hreq hfit (e := .empty) 0 (balanced_iff_closes.mp hb)
  have hwilling : compile .willing requests ts = .ok e.code := compile_eq_ok_iff.mpr ⟨rfl, e, he, hloops, rfl, rfl⟩
  exact ⟨e.code, (takes_of_emitFrom hreq he).links.size, fun a ha => compile_of_takes hreq hwilling ha⟩

end Emit

end Native

end TapeMachine
