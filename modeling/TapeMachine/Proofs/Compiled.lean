import TapeMachine.Proofs.Emit
import TapeMachine.Proofs.Repeat

namespace TapeMachine

open Meaning Block

variable {α : Type}

/-- Two meanings with the same outcomes up to the place of a move off the tape. -/
structure Agree (A B : Meaning) : Prop where
  forth : Refines (Exit.Alike Eq) Exit.none A B
  back : Refines (Exit.Alike Eq) Exit.none B A

namespace Agree

variable {f g : Config → Action}

theorem instruction (h : ActAlike f g) (i j : Nat) :
    Agree (.instruction f (fun _ => False) i) (.instruction g (fun _ => False) j) :=
  ⟨.instruction (h i j) fun _ h => h, .instruction (h.symm j i) fun _ h => h⟩

/-- If the head stays on the tape, the same cells are the same tape. -/
theorem of_matched {A : Meaning} {δ : Tape → Tape → Prop} {j : Nat} (hA : A.Unique)
    (hoff : ∀ r e, Meaning.instruction g (fun _ => False) j r (.left (.ended e)) → ¬ e.verdict.Off)
    (h : Matched (Exit.Alike δ) A (.instruction g (fun _ => False) j)) :
    Agree A (.instruction g (fun _ => False) j) := by
  have hm : Matched (Exit.Alike Eq) A (.instruction g (fun _ => False) j) := by
    intro r
    rcases h r with hp | ⟨x, y, hxy, hx, hy⟩
    · exact .inl hp
    · refine .inr ⟨x, y, ?_, hx, hy⟩
      cases y with
      | met => cases x <;> exact hxy
      | ended e' =>
        cases x with
        | met => exact hxy
        | ended e =>
          have hon : ¬ e.verdict.Off := fun ho => hoff r e' hy (hxy.verdict.symm.trans ho)
          exact ⟨hxy.verdict, hxy.io, hxy.tape, fun ho => absurd ho hon⟩
  refine ⟨hm.refines hA, ?_⟩
  exact (hm.symm.refines (instruction_unique fun _ h => h)).mono fun _ _ => Exit.Alike.symm fun _ _ h => h.symm

end Agree

theorem not_off_of_fitsAt {f : Config → Action} {s : StreamError} (hf : ∀ c, (f c).FitsAt c (.stream s))
    {seen : Tape → Prop} {i : Nat} {r : Runtime} {e : Ended} (h : Meaning.instruction f seen i r (.left (.ended e))) :
    ¬ e.verdict.Off := by
  obtain ⟨r', hp⟩ := h.exists_halt
  have hl := (hf ⟨i, r'.tape⟩).perform r'.io
  rw [hp] at hl
  obtain ⟨g, hg, rfl | ⟨s', rfl⟩⟩ := hl
  · rw [hg]
    intro h
    cases h
  · rw [hg]
    intro h
    cases h

theorem unplaced_outOfBounds (c _ : Config) :
    (Verdict.failed c.outOfBounds).unplaced = (Verdict.failed (.outOfBounds none)).unplaced :=
  rfl

theorem ActAlike.native (b : Basic) : ActAlike b.act b.native.act := by
  cases b with
  | move d => exact .moveBy unplaced_outOfBounds d 1
  | increment => exact .update (·.add 1)
  | decrement => exact .update (·.sub 1)
  | read => exact .readEach 1
  | write => exact .writeEach 1

/-- The operation can be compiled: its offset can be encoded, and it is done at least once. -/
def Lowered.Compilable : Lowered → Prop
  | counted (.move _) n => n ≤ maxOffset
  | scan n _ amount => 0 < n ∧ amount ≤ maxOffset
  | transfer n _ amount => 0 < n ∧ amount ≤ maxOffset
  | _ => True

theorem Lowered.encodable {o : Lowered} (ho : o.Compilable) : ∀ n ∈ o.natives, n.Encodable := by
  match o with
  | .counted (.move _) _ => exact List.forall_mem_singleton.mpr ho
  | .counted .increment _ => exact List.forall_mem_singleton.mpr trivial
  | .counted .decrement _ => exact List.forall_mem_singleton.mpr trivial
  | .counted .read _ =>
    intro n hn
    rw [List.eq_of_mem_replicate hn]
    trivial
  | .counted .write _ =>
    intro n hn
    rw [List.eq_of_mem_replicate hn]
    trivial
  | .clear => exact List.forall_mem_singleton.mpr trivial
  | .scan _ _ _ => exact List.forall_mem_singleton.mpr ho.2
  | .transfer _ _ _ => exact List.forall_mem_singleton.mpr ho.2

theorem Basic.agree (b : Basic) (i j : Nat) :
    Agree ((Block.op b .nil).meaning Basic.act .nothing i) ((ofOps [b.native]).meaning Native.act .nothing j) := by
  rw [ofOps, ofOps, meaning_op_nil, meaning_op_nil]
  exact .instruction (.native b) i j

/-- What is emitted for a lowered operation does what the operation does. Its count is spent by repeating
reads and writes, and is void for idioms. -/
theorem Lowered.agree {o : Lowered} (ho : o.Compilable) (i j : Nat) :
    Agree ((Block.op o .nil).meaning Idiomatic.act .nothing i) ((ofOps o.natives).meaning Native.act .nothing j) := by
  have single : ∀ {n : Native}, ActAlike (Idiomatic.act o) n.act →
      Agree ((Block.op o .nil).meaning Idiomatic.act .nothing i) ((ofOps [n]).meaning Native.act .nothing j) := by
    intro n h
    rw [ofOps, ofOps, meaning_op_nil, meaning_op_nil]
    exact .instruction h i j
  have repeated : ∀ {b : Basic} {n : Nat} {s : StreamError},
      (∀ c, (Idiomatic.act (.counted b n) c).FitsAt c (.stream s)) →
      ActAlike b.native.act (Idiomatic.act (.counted b 1)) →
      Agree ((Block.op (.counted b n) .nil).meaning Idiomatic.act .nothing i)
        ((ofOps (List.replicate n b.native)).meaning Native.act .nothing j) := by
    intro b n s hs h
    rw [meaning_op_nil]
    have hu : ((ofOps (List.replicate n b.native)).meaning Native.act .nothing j).Unique :=
      meaning_ofOps_unique _ (fun _ _ _ h => h) j
    have hm : Matched _ ((ofOps (List.replicate n b.native)).meaning Native.act .nothing j) _ :=
      matched_replicate h .nothing (fun _ => False) n j i
    have ha := Agree.of_matched hu (fun _ _ h => not_off_of_fitsAt hs h) hm
    exact ⟨ha.back, ha.forth⟩
  cases o with
  | counted b n =>
    cases b with
    | move d => exact single (.moveBy unplaced_outOfBounds d n)
    | increment => exact single (.update (·.add n))
    | decrement => exact single (.update (·.sub n))
    | read => exact repeated (s := .endOfInput) (fun c => fitsAt_readEach c n _) (.readEach 1)
    | write => exact repeated (s := .endOfInput) (fun c => fitsAt_writeEach c n _) (.writeEach 1)
  | clear => exact single (.update (·.set 0))
  | scan n d a =>
    obtain ⟨m, rfl⟩ := Nat.exists_eq_succ_of_ne_zero (Nat.ne_of_gt ho.1)
    refine single ?_
    rw [Idiomatic.act_scan]
    exact .scanBy unplaced_outOfBounds d a
  | transfer n d a =>
    obtain ⟨m, rfl⟩ := Nat.exists_eq_succ_of_ne_zero (Nat.ne_of_gt ho.1)
    refine single ?_
    rw [Idiomatic.act_transfer]
    exact .transferBy unplaced_outOfBounds d a

/-- The run of emitted code from the first cell of the tape as it was left is over with this verdict. -/
def Runtime.Runs (r : Runtime) (code : Code Native) (v : Verdict) (r' : Runtime) : Prop :=
  ∃ limit, r.run? limit code = some (v, r')

theorem Runtime.runs_iff {r r' : Runtime} {code : Code Native} {v : Verdict} :
    r.Runs code v r' ↔ ∃ c, Ends (Native.step code) (.start r.tape) r.io ⟨v, c, r'.io⟩ ∧ r'.tape = c.tape := by
  constructor
  · intro hs
    obtain ⟨limit, h⟩ := hs
    unfold run? at h
    split at h
    · rename_i e he
      cases h
      exact ⟨e.config, ⟨limit, he⟩, rfl⟩
    · cases h
  · intro hs
    obtain ⟨c, ⟨limit, h⟩, ht⟩ := hs
    refine ⟨limit, ?_⟩
    obtain ⟨t, io⟩ := r'
    cases ht
    rw [run?, h]

theorem Native.unplaced {code : Code Native} {c c' : Config} {io io' : Streams} {v : Verdict}
    (h : (Native.step code c).perform io = .halt c' v io') : v.unplaced = v := by
  rcases Code.halts h with rfl | rfl | ⟨o, ho⟩
  · rfl
  · rfl
  · have hl := (fitsAt_native o c).perform io
    rw [ho] at hl
    obtain ⟨f, rfl, rfl | ⟨s, rfl⟩⟩ := hl
    · rfl
    · rfl

theorem Runtime.Runs.unplaced {r r' : Runtime} {code : Code Native} {v : Verdict} (h : r.Runs code v r') :
    v.unplaced = v := by
  obtain ⟨c, hends, -⟩ := Runtime.runs_iff.mp h
  exact hends.verdict (q := fun v => v.unplaced = v) fun _ _ _ _ _ => Native.unplaced

section Code

variable {act : α → Config → Action} {natives : α → List Native} {b : Block α}
  (hagree : ∀ a, .op a ∈ b.tokens → ∀ i j,
    Agree ((op a nil).meaning act .nothing i) ((ofOps (natives a)).meaning Native.act .nothing j))

include hagree

theorem Block.agree_bind :
    Agree (b.meaning act .nothing 0) ((b.bind natives).meaning Native.act .nothing 0) := by
  have hrel : Related (fun s s' => ∃ a, .op a ∈ b.tokens ∧ s = op a nil ∧ s' = ofOps (natives a)) (fun _ _ => True)
      b (b.bind natives) := related_bind b (fun a ha => ⟨a, ha, rfl, rfl⟩) fun _ _ => trivial
  constructor
  · refine hrel.refines ?_ (fun _ _ _ _ h => h) (fun _ _ _ h => ⟨h, rfl⟩) 0 0
    rintro _ _ ⟨a, ha, rfl, rfl⟩ i j
    exact (hagree a ha i j).forth
  · refine hrel.symm.refines ?_ (fun _ _ _ _ h => h) (fun _ _ _ h => ⟨h, rfl⟩) 0 0
    rintro _ _ ⟨a, ha, rfl, rfl⟩ i j
    exact (hagree a ha j i).back

theorem Runtime.runs_iff_ends {step : Step} (hf : Follows step act b.tokens) (hl : Local act) {code : Code Native}
    (hc : Links (b.bind natives).tokens code) {r r' : Runtime} {v : Verdict} :
    r.Runs code v r' ↔ ∃ e, Ends step (.start r.tape) r.io e ∧ v = e.verdict.unplaced ∧
      r' = ⟨e.config.tape, e.io⟩ := by
  have hnative : Follows (Native.step code) Native.act (b.bind natives).tokens := .code hc
  have hab := Block.agree_bind hagree
  have tape : ∀ {e e' : Ended}, e.Alike Eq e' → e.config.tape = e'.config.tape := by
    intro e e' h
    by_cases ho : e.verdict.Off
    · exact h.off ho
    · exact h.tape ho
  have hend : ∀ {c io} {e : Ended}, Ends (Native.step code) c io e → e.verdict.unplaced = e.verdict :=
    fun he => he.verdict (q := fun v => v.unplaced = v) fun _ _ _ _ _ => Native.unplaced
  rw [Runtime.runs_iff]
  constructor
  · intro h
    obtain ⟨c, he, ht⟩ := h
    have hleaves := (hnative.ends_iff_leaves local_native .nothing).mp he
    obtain ⟨e, hxy, hleaves'⟩ := hleaves.ended hab.back
    refine ⟨e, (hf.ends_iff_leaves hl _).mpr hleaves', (hend he).symm.trans hxy.verdict, ?_⟩
    obtain ⟨t, io⟩ := r'
    cases ht
    rw [← tape hxy, ← hxy.io]
  · intro h
    obtain ⟨e, he, rfl, rfl⟩ := h
    have hleaves := (hf.ends_iff_leaves hl .nothing).mp he
    obtain ⟨e', hxy, hleaves'⟩ := hleaves.ended hab.forth
    have he' := (hnative.ends_iff_leaves local_native _).mpr hleaves'
    obtain ⟨v', c', io'⟩ := e'
    have hv : v' = e.verdict.unplaced := (hend he').symm.trans hxy.verdict.symm
    have hio : e.io = io' := hxy.io
    subst hv hio
    exact ⟨c', he', tape hxy⟩

end Code

section Plain

variable {a : Assembler} {commands : List Command}

theorem length_bindToken_native (commands : List Command) :
    (commands.flatMap (Block.bindToken fun b => [b.native])).length = commands.length := by
  induction commands with
  | nil => rfl
  | cons t ts ih =>
    have hone : (Block.bindToken (fun b : Basic => [b.native]) t).length = 1 := by
      cases t <;> rfl
    rw [List.flatMap_cons, List.length_append, hone, ih, List.length_cons, Nat.add_comm]

theorem Native.balanced_of_compilePlain {code : Code Native} (h : compilePlain a commands = .ok code) :
    Balanced commands :=
  balanced_of_compile Basic.map_token_requests h

theorem Native.exists_compilePlain (hb : Balanced commands) :
    ∃ code : Code Native, code.size = commands.length ∧ ∀ a : Assembler, a.Takes code.size →
      compilePlain a commands = .ok code := by
  have hfit : ∀ b, .op b ∈ commands → ∀ o ∈ [b.native], o.Encodable := fun b _ =>
    List.forall_mem_singleton.mpr b.encodable_native
  obtain ⟨code, hsize, hcode⟩ := exists_compile Basic.map_token_requests hfit hb
  exact ⟨code, hsize.trans (length_bindToken_native commands), hcode⟩

theorem Native.compilePlain_isOk_iff (ha : a.Takes commands.length) :
    (∃ code, compilePlain a commands = .ok code) ↔ Balanced commands := by
  refine ⟨fun ⟨_, h⟩ => balanced_of_compilePlain h, fun hb => ?_⟩
  obtain ⟨code, hsize, hcode⟩ := exists_compilePlain hb
  exact ⟨code, hcode a (hsize ▸ ha)⟩

theorem Runtime.runs_plain {code : Code Native} (h : Native.compilePlain a commands = .ok code) {r r' : Runtime}
    {v : Verdict} : r.Runs code v r' ↔ ∃ e, Ends (Scanning.step commands.toArray) (.start r.tape) r.io e ∧
      v = e.verdict.unplaced ∧ r' = ⟨e.config.tape, e.io⟩ := by
  have hb := Native.balanced_of_compilePlain h
  obtain ⟨b, rfl⟩ := exists_tokens_eq hb
  have hlinks : Links (b.bind fun a => [a.native]).tokens code := Native.links_of_compile Basic.map_token_requests h
  exact Runtime.runs_iff_ends (fun a _ => a.agree) (.scanning _) (.of_fitsAt fitsAt_basic) hlinks

end Plain

section Lowered

variable {ts : List (Token Lowered)} (hb : Balanced ts) (hc : ∀ o, .op o ∈ ts → o.Compilable)

include hb hc

theorem Native.exists_compileLowered : ∃ code : Code Native,
    code.size = (ts.flatMap (Block.bindToken Lowered.natives)).length ∧ ∀ a : Assembler, a.Takes code.size →
      compileLowered a ts = .ok code :=
  exists_compile Lowered.map_token_requests (fun o ho => Lowered.encodable (hc o ho)) hb

theorem Runtime.runs_lowered {a : Assembler} {code : Code Native} (h : Native.compileLowered a ts = .ok code)
    {q : Idiomatic.Program} (hq : Links ts q) {r r' : Runtime} {v : Verdict} : r.Runs code v r' ↔
      ∃ e, Ends (Idiomatic.step q) (.start r.tape) r.io e ∧ v = e.verdict.unplaced ∧ r' = ⟨e.config.tape, e.io⟩ := by
  obtain ⟨b, rfl⟩ := exists_tokens_eq hb
  have hlinks := Native.links_of_compile Lowered.map_token_requests h
  exact Runtime.runs_iff_ends (fun o ho => Lowered.agree (hc o ho)) (.code hq) local_idiomatic hlinks

end Lowered

/-- A lowered program whose loops match and whose operations can be compiled has code, and is compiled to it by every
assembler that takes code of this size. On every tape the code ends exactly when the program ends that holds the partner of
each bracket, with the same tape and streams, and with the same verdict without the place of a move off the tape. -/
theorem compiled_runs_iff_idiomatic {ts : List (Token Lowered)} (hb : Balanced ts)
    (hc : ∀ o, .op o ∈ ts → o.Compilable) {q : Idiomatic.Program} (hq : Links ts q) :
    ∃ code : Code Native, (∀ a : Assembler, a.Takes code.size → Native.compileLowered a ts = .ok code) ∧
      ∀ r v r', Runtime.Runs r code v r' ↔
        ∃ e, Ends (Idiomatic.step q) (.start r.tape) r.io e ∧ v = e.verdict.unplaced ∧ r' = ⟨e.config.tape, e.io⟩ := by
  obtain ⟨code, -, hcode⟩ := Native.exists_compileLowered hb hc
  exact ⟨code, hcode, fun r v r' =>
    Runtime.runs_lowered hb hc (hcode .willing (Assembler.takes_willing _)) hq⟩

/-- Two increments are carried away in a loop; then the head would leave the tape. -/
theorem compiled_runs_iff_idiomatic_carry :
    ∃ code r, Native.compileLowered .willing [.op (.counted .increment 2), .opening, .op (.transfer 1 .forward 3), .closing,
        .op (.counted .write 2), .op (.counted (.move .backward) 1)] = .ok code ∧
      (Runtime.start (.start [] {})).Runs code (.failed (.outOfBounds none)) r ∧ r.io.written = #[0, 0] := by
  have hb : Balanced [.op (Lowered.counted .increment 2), .opening, .op (.transfer 1 .forward 3), .closing,
      .op (.counted .write 2), .op (.counted (.move .backward) 1)] := by decide
  obtain ⟨code, hcode, hruns⟩ := compiled_runs_iff_idiomatic hb (by simp [Lowered.Compilable, maxOffset])
    (links_of_link (show link (fun _ => 1) _ = .ok _ from rfl))
  exact ⟨code, _, hcode .willing (Assembler.takes_willing _), (hruns _ _ _).mpr ⟨_, ⟨20, rfl⟩, rfl, rfl⟩, rfl⟩

end TapeMachine
