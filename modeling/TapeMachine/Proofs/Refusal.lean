import TapeMachine.Proofs.Checker
import TapeMachine.Proofs.Compiled

namespace TapeMachine

open Emitter (Request)

variable {α : Type}

def NoneOpen (ts : List (Token α)) : Prop :=
  ∀ i, ¬ Lone ts .opening i

/-- Balanced tokens between closing brackets that meet no open loop. -/
inductive Excess : List (Token α) → Prop where
  | balanced {ts : List (Token α)} : Balanced ts → Excess ts
  | closing {pre ts : List (Token α)} : Excess pre → Balanced ts → Excess (pre ++ .closing :: ts)

theorem Excess.exists_partner {ts : List (Token α)} (h : Excess ts) {i : Nat} (hi : ts[i]? = some .opening) :
    ∃ j, Partners ts i j := by
  induction h generalizing i with
  | balanced hb => exact (hb.partnered hi).of_opening hi
  | @closing pre ts _ hb ih =>
    rcases getElem?_append_cases hi with hpre | ⟨k, rfl, hk⟩
    · obtain ⟨j, hj⟩ := ih hpre
      exact ⟨j, hj.append _⟩
    · cases k with
      | zero => cases hk
      | succ k =>
        obtain ⟨j, hj⟩ := (hb.partnered hk).of_opening hk
        have hin := hj.shift (pre ++ [.closing])
        rw [List.append_assoc, List.length_append, List.length_singleton, Nat.add_assoc, Nat.add_comm 1] at hin
        exact ⟨_, hin⟩

theorem Opens.lone_behind {ts : List (Token α)} {is : List Nat} {i : Nat} (h : Opens ts is) (hi : i ∈ is)
    (front : List (Token α)) : Lone (front ++ ts) .opening (front.length + i) := by
  obtain ⟨pre, rest, js, rfl, rfl, hrest⟩ := h.exists_behind hi
  have hopen : (front ++ (pre ++ Token.opening :: rest))[front.length + pre.length]? = some .opening := by simp
  refine ⟨hopen, ?_⟩
  rintro ⟨j, hp | hp⟩
  · obtain ⟨pre', body, post, he, hb, hlen, -⟩ := partners_iff.mp hp
    rw [← List.append_assoc] at he
    obtain ⟨-, he⟩ := List.append_inj he (by rw [List.length_append, hlen])
    exact hrest.not_append_closing hb (List.cons.inj he).2
  · cases hopen.symm.trans hp.2.2.1

/-- The indices of the brackets that stay open, innermost first, where closing brackets may meet no open loop. -/
inductive Pends : List (Token α) → List Nat → Prop where
  | behind {front rest : List (Token α)} {is : List Nat} : Excess front → Opens rest is →
      Pends (front ++ rest) (is.map (front.length + ·))

namespace Pends

variable {ts : List (Token α)} {is : List Nat} {i : Nat}

theorem nil : Pends ([] : List (Token α)) [] :=
  .behind (.balanced .nil) (.balanced .nil)

theorem snoc_op (h : Pends ts is) (a : α) : Pends (ts ++ [.op a]) is := by
  obtain ⟨hfront, hrest⟩ := h
  rw [List.append_assoc]
  exact .behind hfront (hrest.snoc_op a)

theorem snoc_opening (h : Pends ts is) : Pends (ts ++ [.opening]) (ts.length :: is) := by
  obtain ⟨hfront, hrest⟩ := h
  rw [List.append_assoc, List.length_append]
  exact .behind hfront hrest.snoc_opening

theorem snoc_closing (h : Pends ts (i :: is)) : Pends (ts ++ [.closing]) is := by
  generalize hjs : i :: is = js at h
  obtain ⟨hfront, hrest⟩ := h
  obtain ⟨k, ks, rfl, -, rfl⟩ := List.map_eq_cons_iff.mp hjs.symm
  rw [List.append_assoc]
  exact .behind hfront hrest.snoc_closing

theorem snoc_excess (h : Pends ts []) : Pends (ts ++ [.closing]) [] := by
  generalize hjs : [] = js at h
  obtain @⟨front, rest, ks, hfront, hrest⟩ := h
  obtain rfl : ks = [] := List.map_eq_nil_iff.mp hjs.symm
  have hexcess : ∀ {front : List (Token α)}, Excess front → Excess (front ++ rest) := by
    intro front hf
    cases hf with
    | balanced hb => exact .balanced (hb.append hrest.balanced_of_nil)
    | closing hpre hb =>
      rw [List.append_assoc]
      exact .closing hpre (hb.append hrest.balanced_of_nil)
  have hends : Excess (front ++ rest ++ [.closing]) := .closing (hexcess hfront) .nil
  simpa using Pends.behind hends (.balanced .nil)

/-- The opening brackets without a partner are those that stay open. -/
theorem lone_iff (h : Pends ts is) : Lone ts .opening i ↔ i ∈ is := by
  obtain @⟨front, rest, js, hfront, hrest⟩ := h
  rw [List.mem_map]
  constructor
  · intro hl
    rcases getElem?_append_cases hl.1 with hpre | ⟨k, rfl, hk⟩
    · obtain ⟨j, hj⟩ := hfront.exists_partner hpre
      exact absurd ⟨j, .inl (hj.append rest)⟩ hl.2
    · refine ⟨k, Decidable.byContradiction fun hn => hl.2 ?_, rfl⟩
      exact (hrest.partnered hk hn).shift front
  · rintro ⟨k, hk, rfl⟩
    exact hrest.lone_behind hk front

theorem noneOpen_iff (h : Pends ts is) : NoneOpen ts ↔ is = [] := by
  rw [List.eq_nil_iff_forall_not_mem]
  exact forall_congr' fun i => not_congr h.lone_iff

/-- The outermost open bracket is the first one. -/
theorem isFirst_getLast (h : Pends ts is) (hi : is.getLast? = some i) : IsFirst (Lone ts .opening) i := by
  have hpend := h
  obtain @⟨front, rest, js, hfront, hrest⟩ := h
  rw [List.getLast?_map] at hi
  obtain ⟨k, hk, rfl⟩ := Option.map_eq_some_iff.mp hi
  refine ⟨hrest.lone_behind (List.mem_of_getLast? hk) front, fun m hm => ?_⟩
  obtain ⟨n, hn, rfl⟩ := List.mem_map.mp (hpend.lone_iff.mp hm)
  have hle := (hrest.isFirst_getLast hk).2 n (hrest.lone_of_mem hn)
  exact Nat.add_le_add_left hle _

end Pends

def Emitter.Request.Encodable (r : Request) : Prop :=
  ∀ o, r.token = .op o → o.Encodable

namespace Emitter

/-- The requests that are granted when all are made. -/
def granted (e : Emitter) : List Request → List Request
  | [] => []
  | r :: rs =>
    match emit e r with
    | .ok e' => r :: granted e' rs
    | .error _ => granted e rs

/-- The code of requests none of which may be refused. -/
def assemble (a : Assembler) (rs : List Request) : Except Failure (Code Native) :=
  match emitAll .empty rs with
  | .ok e => finish a e
  | .error f => .error f

/-- A request with an offset that can be encoded leaves the emitter as it was if it is refused. -/
theorem left_of_emit {e : Emitter} {r : Request} (hr : r.Encodable) {x : Refused} (h : emit e r = .error x) :
    x.left = e := by
  cases r with
  | jumpBegin p => cases h
  | jumpEnd p => exact left_of_emit_jumpEnd h
  | _ => cases h.symm.trans (emit_of_token rfl (hr _ rfl))

theorem length_granted_le (e : Emitter) (rs : List Request) : (granted e rs).length ≤ rs.length := by
  induction rs generalizing e with
  | nil => exact Nat.le_refl _
  | cons r rs ih =>
    rw [granted]
    split
    · exact Nat.succ_le_succ (ih _)
    · exact Nat.le_succ_of_le (ih _)

section Encodable

variable {rs : List Request} (hrs : ∀ r ∈ rs, r.Encodable)

include hrs

theorem emitAll_granted (e : Emitter) : emitAll e (granted e rs) = .ok (afterAll e rs) := by
  induction rs generalizing e with
  | nil => rfl
  | cons r rs ih =>
    have hrest := ih fun r hr => hrs r (List.mem_cons_of_mem _ hr)
    rw [granted, afterAll, List.foldl_cons, after]
    cases h : emit e r with
    | ok e' =>
      rw [emitAll, h]
      exact hrest e'
    | error x =>
      have hleft : x.left = e := left_of_emit (hrs r List.mem_cons_self) h
      simp only [hleft]
      exact hrest e

theorem finish_afterAll (a : Assembler) : finish a (afterAll .empty rs) = assemble a (granted .empty rs) := by
  rw [assemble, emitAll_granted hrs]

theorem takes_afterAll : Linker.Takes .empty ((granted .empty rs).map Request.token) (afterAll .empty rs) :=
  takes_of_emitAll (emitAll_granted hrs .empty)

theorem size_afterAll_le : (afterAll .empty rs).code.size ≤ rs.length := by
  rw [(takes_afterAll hrs).links.size, List.length_map]
  exact length_granted_le _ rs

theorem encodable_afterAll : ∀ o, .op o ∈ (afterAll .empty rs).code → o.Encodable :=
  encodable_of_emitAll (emitAll_granted hrs .empty) fun _ ho => absurd ho (Array.not_mem_empty _)

end Encodable

/-- The open loops of the emitter are those that are open behind the requests, each with the position it was begun at. -/
def Tracks (rs : List Request) (e : Emitter) : Prop :=
  ∃ is, Pends (rs.map Request.token) is ∧
    is.map (fun i => rs[i]?) = e.loops.map fun o => some (.jumpBegin o.place)

namespace Tracks

variable {rs : List Request} {e : Emitter}

theorem empty : Tracks [] .empty :=
  ⟨[], .nil, rfl⟩

theorem noneOpen_iff (h : Tracks rs e) : NoneOpen (rs.map Request.token) ↔ e.loops = [] := by
  obtain ⟨is, hpend, hloops⟩ := h
  rw [hpend.noneOpen_iff, ← List.map_eq_nil_iff (f := fun i => rs[i]?), hloops, List.map_eq_nil_iff]

theorem emit_jumpEnd_iff (h : Tracks rs e) {p : Nat} {x : Refused} : emit e (.jumpEnd p) = .error x ↔
    NoneOpen (rs.map Request.token) ∧ x = ⟨.unmatchedEmitted ⟨.closing, p⟩, e⟩ := by
  rw [h.noneOpen_iff]
  obtain ⟨code, loops⟩ := e
  cases loops with
  | nil =>
    have hemit : emit ⟨code, []⟩ (.jumpEnd p) = .error ⟨.unmatchedEmitted ⟨.closing, p⟩, ⟨code, []⟩⟩ := rfl
    simp [hemit, eq_comm]
  | cons o loops => exact ⟨nofun, nofun⟩

/-- With offsets that can be encoded, all that is refused is a closing bracket where no loop is open. -/
theorem emit_error_iff (h : Tracks rs e) {r : Request} (hr : r.Encodable) {x : Refused} : emit e r = .error x ↔
    ∃ p, r = .jumpEnd p ∧ NoneOpen (rs.map Request.token) ∧ x = ⟨.unmatchedEmitted ⟨.closing, p⟩, e⟩ := by
  have granted : ∀ {e'}, emit e r = .ok e' → (∀ p, r ≠ .jumpEnd p) → (emit e r = .error x ↔
      ∃ p, r = .jumpEnd p ∧ NoneOpen (rs.map Request.token) ∧ x = ⟨.unmatchedEmitted ⟨.closing, p⟩, e⟩) := by
    intro e' he hne
    rw [he]
    exact ⟨nofun, fun ⟨p, hp, _⟩ => absurd hp (hne p)⟩
  cases r with
  | jumpEnd p =>
    rw [h.emit_jumpEnd_iff]
    refine ⟨fun hf => ⟨p, rfl, hf⟩, ?_⟩
    rintro ⟨q, hq, hf⟩
    cases hq
    exact hf
  | jumpBegin p => exact granted rfl nofun
  | _ => exact granted (emit_of_token rfl (hr _ rfl)) nofun

theorem snoc (h : Tracks rs e) {r : Request} (hr : r.Encodable) : Tracks (rs ++ [r]) (after e r) := by
  obtain ⟨is, hpend, hloops⟩ := h
  have stays : is.map (fun i => (rs ++ [r])[i]?) = is.map fun i => rs[i]? := by
    refine List.map_congr_left fun i hi => List.getElem?_append_left ?_
    have hlt := (List.getElem?_eq_some_iff.mp (hpend.lone_iff.mpr hi).1).1
    rwa [List.length_map] at hlt
  rw [← stays] at hloops
  have hop : ∀ {o}, r.token = .op o → Tracks (rs ++ [r]) (after e r) := by
    intro o ho
    rw [after, emit_of_token ho (hr o ho), Tracks, List.map_append, List.map_singleton, ho]
    exact ⟨is, hpend.snoc_op o, hloops⟩
  cases r with
  | jumpBegin p =>
    have hopened := hpend.snoc_opening
    rw [List.length_map] at hopened
    rw [Tracks, List.map_append]
    refine ⟨rs.length :: is, hopened, ?_⟩
    rw [List.map_cons, hloops, List.getElem?_concat_length]
    rfl
  | jumpEnd p =>
    obtain ⟨code, loops⟩ := e
    rw [Tracks, List.map_append]
    cases loops with
    | nil =>
      obtain rfl := List.map_eq_nil_iff.mp hloops
      exact ⟨[], hpend.snoc_excess, rfl⟩
    | cons o loops =>
      obtain ⟨i, is, rfl, -, hloops⟩ := List.map_eq_cons_iff.mp hloops
      exact ⟨is, hpend.snoc_closing, hloops⟩
  | _ => exact hop rfl

theorem afterAll {rest : List Request} (h : Tracks rs e) (hrest : ∀ r ∈ rest, r.Encodable) :
    Tracks (rs ++ rest) (e.afterAll rest) := by
  induction rest generalizing rs e with
  | nil =>
    rw [List.append_nil]
    exact h
  | cons r rest ih =>
    have hstep := ih (h.snoc (hrest r List.mem_cons_self)) fun r hr => hrest r (List.mem_cons_of_mem _ hr)
    rw [List.append_assoc] at hstep
    exact hstep

theorem finish_of_isFirst (h : Tracks rs e) (a : Assembler) {i p : Nat}
    (hi : IsFirst (Lone (rs.map Request.token) .opening) i) (hp : rs[i]? = some (.jumpBegin p)) :
    finish a e = .error (.unmatchedEmitted ⟨.opening, p⟩) := by
  obtain ⟨is, hpend, hloops⟩ := h
  cases hlast : is.getLast? with
  | none =>
    obtain rfl := List.getLast?_eq_none_iff.mp hlast
    exact absurd (hpend.lone_iff.mp hi.1) List.not_mem_nil
  | some k =>
    -- both are the first bracket that stays open
    have hk := hpend.isFirst_getLast hlast
    obtain rfl : k = i := Nat.le_antisymm (hk.2 i hi.1) (hi.2 k hk.1)
    have hplaces := congrArg List.getLast? hloops
    rw [List.getLast?_map, List.getLast?_map, hlast, Option.map_some, hp] at hplaces
    obtain ⟨o, ho, hplace⟩ := Option.map_eq_some_iff.mp hplaces.symm
    have hlast' : (e.loops.map OpenLoop.place).getLast? = some p := by
      cases hplace
      rw [List.getLast?_map, ho, Option.map_some]
    simp only [finish, Linker.finish_of_getLast? hlast']

end Tracks

end Emitter

/-- The offset of the operation, if it has one. -/
def Lowered.offset? : Lowered → Option Nat
  | counted (.move _) n => some n
  | scan _ _ n => some n
  | transfer _ _ n => some n
  | _ => none

/-- The instruction at an index cannot be compiled, for this reason: no loop is open where it closes one, or its offset
cannot be encoded. -/
inductive Faulty (ts : List (Token Lowered)) : Nat → Failure → Prop where
  | closing {i : Nat} : ts[i]? = some .closing → NoneOpen (ts.take i) → Faulty ts i (.unmatchedEmitted ⟨.closing, i⟩)
  | offset {i n : Nat} {o : Lowered} : ts[i]? = some (.op o) → o.offset? = some n → maxOffset < n →
      Faulty ts i .offsetTooLarge

theorem Faulty.lt_length {ts : List (Token Lowered)} {i : Nat} {f : Failure} (h : Faulty ts i f) : i < ts.length := by
  cases h with
  | closing hi => exact (List.getElem?_eq_some_iff.mp hi).1
  | offset hi => exact (List.getElem?_eq_some_iff.mp hi).1

def FirstFault (ts : List (Token Lowered)) (i : Nat) (f : Failure) : Prop :=
  Faulty ts i f ∧ ∀ k g, Faulty ts k g → i ≤ k

theorem Lowered.encodable_of_offset {o : Lowered} (h : ∀ n, o.offset? = some n → n ≤ maxOffset) :
    ∀ a ∈ o.natives, a.Encodable := by
  match o with
  | .counted (.move _) n => exact List.forall_mem_singleton.mpr (h n rfl)
  | .counted .increment _ => exact List.forall_mem_singleton.mpr trivial
  | .counted .decrement _ => exact List.forall_mem_singleton.mpr trivial
  | .counted .read _ =>
    intro a ha
    rw [List.eq_of_mem_replicate ha]
    trivial
  | .counted .write _ =>
    intro a ha
    rw [List.eq_of_mem_replicate ha]
    trivial
  | .clear => exact List.forall_mem_singleton.mpr trivial
  | .scan _ _ n => exact List.forall_mem_singleton.mpr (h n rfl)
  | .transfer _ _ n => exact List.forall_mem_singleton.mpr (h n rfl)

theorem Emitter.emitAll_of_offset {o : Lowered} {n : Nat} (ho : o.offset? = some n) (hn : maxOffset < n) (e : Emitter) :
    emitAll e o.requests = .error .offsetTooLarge := by
  have hfit : ∀ a begun, withOffset e n a begun = .error ⟨.offsetTooLarge, begun e⟩ := fun a begun =>
    if_neg (Nat.not_le_of_lt hn)
  match o with
  | .counted (.move d) _ =>
    cases ho
    simp only [Lowered.requests, emitAll, emit, hfit]
  | .scan _ d _ =>
    cases ho
    simp only [Lowered.requests, emitAll, emit, hfit]
  | .transfer _ d _ =>
    cases ho
    simp only [Lowered.requests, emitAll, emit, hfit]

namespace Native

/-- The emitter is stopped at the first faulty instruction, or it comes to the end with the loops that stay open. -/
def Halts (ts : List (Token Lowered)) (x : Except Failure Emitter) : Prop :=
  (∃ i f, FirstFault ts i f ∧ x = .error f) ∨
    ∃ e is, x = .ok e ∧ Opens ts is ∧ e.loops.map OpenLoop.place = is ∧ ∀ i f, ¬ Faulty ts i f

/-- One instruction is emitted behind the others, or it is faulty and the emitter is stopped for this reason. -/
theorem faulty_or_emits {pre : List (Token Lowered)} {e : Emitter} (h : Opens pre (e.loops.map OpenLoop.place))
    (t : Token Lowered) (rest : List (Token Lowered)) :
    (∃ f, Faulty (pre ++ t :: rest) pre.length f ∧
      Emitter.emitAll e (requestsAt Lowered.requests pre.length t) = .error f) ∨
    ∃ e', Emitter.emitAll e (requestsAt Lowered.requests pre.length t) = .ok e' ∧
      Opens (pre ++ [t]) (e'.loops.map OpenLoop.place) ∧ ∀ f, ¬ Faulty (pre ++ t :: rest) pre.length f := by
  have hat : (pre ++ t :: rest)[pre.length]? = some t := by simp
  have htake : (pre ++ t :: rest).take pre.length = pre := List.take_left
  cases t with
  | op o =>
    by_cases hlarge : ∃ n, o.offset? = some n ∧ maxOffset < n
    · obtain ⟨n, hn, hlt⟩ := hlarge
      exact .inl ⟨_, .offset hat hn hlt, Emitter.emitAll_of_offset hn hlt e⟩
    · have hfit : ∀ n, o.offset? = some n → n ≤ maxOffset := fun n hn => Nat.le_of_not_lt fun hlt => hlarge ⟨n, hn, hlt⟩
      obtain ⟨e', he, hsame⟩ := Emitter.emitAll_of_encodable o.map_token_requests (o.encodable_of_offset hfit) e
      refine .inr ⟨e', he, hsame ▸ h.snoc_op o, fun f hf => ?_⟩
      cases hf with
      | closing hi => cases hat.symm.trans hi
      | offset hi hn hlt =>
        cases hat.symm.trans hi
        exact Nat.not_le_of_lt hlt (hfit _ hn)
  | bracket b =>
    cases b with
    | opening =>
      refine .inr ⟨_, rfl, h.snoc_opening, fun f hf => ?_⟩
      cases hf with
      | closing hi => cases hat.symm.trans hi
      | offset hi => cases hat.symm.trans hi
    | closing =>
      obtain ⟨code, loops⟩ := e
      cases loops with
      | nil =>
        refine .inl ⟨_, .closing hat fun i hi => ?_, rfl⟩
        rw [htake] at hi
        cases (h.lone_iff.mp hi).2
      | cons o loops =>
        refine .inr ⟨_, rfl, h.snoc_closing, fun f hf => ?_⟩
        cases hf with
        | closing _ hnone => exact hnone _ (htake.symm ▸ h.lone_iff.mpr ⟨rfl, List.mem_cons_self⟩)
        | offset hi => cases hat.symm.trans hi

theorem halts_emitFrom {pre rest : List (Token Lowered)} {e : Emitter} (h : Opens pre (e.loops.map OpenLoop.place))
    (hpre : ∀ i f, Faulty (pre ++ rest) i f → pre.length ≤ i) :
    Halts (pre ++ rest) (emitFrom Lowered.requests e pre.length rest) := by
  -- on what is still to be compiled; the loops of the emitter are those that are open behind the rest
  induction rest generalizing pre e with
  | nil =>
    rw [List.append_nil] at *
    exact .inr ⟨e, _, rfl, h, rfl, fun i f hf => Nat.not_le_of_lt hf.lt_length (hpre i f hf)⟩
  | cons t rest ih =>
    rcases faulty_or_emits h t rest with ⟨f, hf, he⟩ | ⟨e', he, hopens, hsound⟩
    · rw [emitFrom, he]
      exact .inl ⟨pre.length, f, ⟨hf, hpre⟩, rfl⟩
    · have hin : (pre ++ [t]) ++ rest = pre ++ t :: rest := by simp
      have hgoes := ih hopens fun i f hf => by
        rw [hin] at hf
        have hne : i ≠ pre.length := fun heq => hsound f (heq ▸ hf)
        have hle := hpre i f hf
        rw [List.length_append, List.length_singleton]
        omega
      rw [hin, List.length_append, List.length_singleton] at hgoes
      rw [emitFrom, he]
      exact hgoes

theorem halts_compile (ts : List (Token Lowered)) : Halts ts (emitFrom Lowered.requests .empty 0 ts) := by
  have hnone : Opens ([] : List (Token Lowered)) [] := .balanced .nil
  exact halts_emitFrom (e := .empty) hnone fun i _ _ => Nat.zero_le i

section Compile

variable {a : Assembler} {ts : List (Token Lowered)} (ha : a.openError? = none)

include ha

theorem compileLowered_of_fault {i : Nat} {f : Failure} (h : Faulty ts i f) :
    ∃ k g, FirstFault ts k g ∧ compileLowered a ts = .error g := by
  rcases halts_compile ts with ⟨k, g, hfirst, hemit⟩ | ⟨e, is, -, -, -, hsound⟩
  · exact ⟨k, g, hfirst, by simp only [compileLowered, compile_of_opens ha, hemit]⟩
  · exact absurd h (hsound i f)

variable (h : ∀ i f, ¬ Faulty ts i f)

include h

theorem compileLowered_of_isFirst {i : Nat} (hi : IsFirst (Lone ts .opening) i) :
    compileLowered a ts = .error (.unmatchedEmitted ⟨.opening, i⟩) := by
  rcases halts_compile ts with ⟨k, g, hfirst, -⟩ | ⟨e, is, hemit, hopens, hloops, -⟩
  · exact absurd hfirst.1 (h k g)
  · obtain ⟨k, hk⟩ := Option.isSome_iff_exists.mp
      (List.getLast?_isSome.mpr (List.ne_nil_of_mem (hopens.lone_iff.mp hi.1).2))
    have hfirst := hopens.isFirst_getLast hk
    obtain rfl : k = i := Nat.le_antisymm (hfirst.2 i hi.1) (hi.2 k hfirst.1)
    simp only [compileLowered, compile_of_opens ha, hemit, Emitter.finish, Linker.finish_of_getLast? (hloops ▸ hk)]

omit ha in
theorem compileLowered_of_noneOpen (hnone : NoneOpen ts)
    (ha : a.Takes (ts.flatMap (Block.bindToken Lowered.natives)).length) : ∃ code, compileLowered a ts = .ok code := by
  rcases halts_compile ts with ⟨k, g, hfirst, -⟩ | ⟨e, is, hemit, hopens, hloops, -⟩
  · exact absurd hfirst.1 (h k g)
  · have hnil : is = [] := List.eq_nil_iff_forall_not_mem.mpr fun i hi => hnone i (hopens.lone_of_mem hi)
    rw [hnil, List.map_eq_nil_iff] at hloops
    have hwilling : compileLowered .willing ts = .ok e.code := compile_eq_ok_iff.mpr ⟨rfl, e, hemit, hloops, rfl, rfl⟩
    have hsize := (takes_of_emitFrom Lowered.map_token_requests hemit).links.size
    exact ⟨e.code, compile_of_takes Lowered.map_token_requests hwilling (hsize ▸ ha)⟩

end Compile

end Native

/-- All of the requests are made, whether they are granted or not. A request is refused only if it closes a loop where none
is open, and it leaves the emitter as it was; what is finished is the code of the granted requests, and it is refused exactly
if a loop stays open. -/
structure Emitter.Forgives (a : Assembler) (rs : List Request) : Prop where
  refused_iff : ∀ {pre post : List Request} {r : Request} {x : Refused}, rs = pre ++ r :: post →
    (emit (afterAll .empty pre) r = .error x ↔ ∃ p, r = .jumpEnd p ∧ NoneOpen (pre.map Request.token) ∧
      x = ⟨.unmatchedEmitted ⟨.closing, p⟩, afterAll .empty pre⟩)
  finish_eq : finish a (afterAll .empty rs) = assemble a (granted .empty rs)
  links : ∀ {code : Code Native}, finish a (afterAll .empty rs) = .ok code →
    Links ((granted .empty rs).map Request.token) code
  runs_iff : ∀ {code code' : Code Native}, finish a (afterAll .empty rs) = .ok code →
    assemble a (granted .empty rs) = .ok code' → ∀ r v r', Runtime.Runs r code v r' ↔ Runtime.Runs r code' v r'
  finish_error_iff : (∃ f, finish a (afterAll .empty rs) = .error f) ↔ ¬ NoneOpen (rs.map Request.token)
  earliest : ∀ {i p : Nat}, IsFirst (Lone (rs.map Request.token) .opening) i → rs[i]? = some (.jumpBegin p) →
    finish a (afterAll .empty rs) = .error (.unmatchedEmitted ⟨.opening, p⟩)

theorem Emitter.forgives {a : Assembler} {rs : List Request} (ha : a.Takes rs.length) (hrs : ∀ r ∈ rs, r.Encodable) :
    Forgives a rs := by
  have htracks : Tracks rs (afterAll .empty rs) := Tracks.empty.afterAll hrs
  refine ⟨?_, finish_afterAll hrs a, ?_, ?_, ?_, htracks.finish_of_isFirst a⟩
  · rintro pre post r x rfl
    have hpre : Tracks pre (afterAll .empty pre) := Tracks.empty.afterAll fun r hr => hrs r (List.mem_append_left _ hr)
    exact hpre.emit_error_iff (hrs r (by simp))
  · intro code hcode
    obtain ⟨-, rfl, -⟩ := finish_eq_ok_iff.mp hcode
    exact (takes_afterAll hrs).links
  · intro code code' hcode hcode'
    have hsame : code = code' := Except.ok.inj (hcode.symm.trans ((finish_afterAll hrs a).trans hcode'))
    rw [hsame]
    exact fun r v r' => Iff.rfl
  · rw [htracks.noneOpen_iff]
    constructor
    · rintro ⟨f, hf⟩ hnil
      cases (finish_of_takes hnil (ha.mono (size_afterAll_le hrs)) (encodable_afterAll hrs)).symm.trans hf
    · intro hopen
      obtain ⟨o, ho⟩ := Option.isSome_iff_exists.mp (List.getLast?_isSome.mpr hopen)
      exact ⟨.unmatchedEmitted ⟨.opening, o.place⟩, by simp only [finish, Linker.finish, ho]⟩

/-- With offsets that can be encoded, the emitter refuses to close a loop where none is open and goes on as if it had not
been asked; it does not finish while a loop is open, and reports the earliest one. Compiling stops at the first instruction
that is refused, or else reports the earliest loop that stays open. The assembler opens, and takes code of this size. -/
theorem refusals_are_exact :
    (∀ (a : Assembler) (rs : List Request), a.Takes rs.length → (∀ r ∈ rs, r.Encodable) → Emitter.Forgives a rs) ∧
    (∀ (a : Assembler) (ts : List (Token Lowered)), a.openError? = none →
      (∀ i f, Faulty ts i f → ∃ k g, FirstFault ts k g ∧ Native.compileLowered a ts = .error g) ∧
      ((∀ i f, ¬ Faulty ts i f) →
        (∀ i, IsFirst (Lone ts .opening) i → Native.compileLowered a ts = .error (.unmatchedEmitted ⟨.opening, i⟩)) ∧
        (NoneOpen ts → a.Takes (ts.flatMap (Block.bindToken Lowered.natives)).length →
          ∃ code, Native.compileLowered a ts = .ok code))) ∧
    ∀ p, (Failure.unmatchedEmitted ⟨.closing, p⟩).message = s!"Unmatched closing ']' at position {p}." ∧
      (Failure.unmatchedEmitted ⟨.opening, p⟩).message = s!"Unmatched opening '[' at position {p}." := by
  refine ⟨fun _ _ => Emitter.forgives, fun a ts ha => ⟨fun i f => Native.compileLowered_of_fault ha, fun h => ?_⟩,
    fun p => ⟨rfl, rfl⟩⟩
  exact ⟨fun i => Native.compileLowered_of_isFirst ha h, Native.compileLowered_of_noneOpen h⟩

/-- A closing bracket too many is skipped, and of two loops that stay open the first one is reported. A program has two
faults. -/
theorem refusals_are_exact_two :
    (NoneOpen ([.opening, .op (.add 44), .closing] : List (Token Native)) ∧
      ¬ NoneOpen ([.opening, .op (.add 44), .closing, .closing, .opening, .opening] : List (Token Native)) ∧
      Emitter.finish .willing
          (Emitter.afterAll .empty [.jumpBegin 7, .add 300, .jumpEnd 8, .jumpEnd 9, .jumpBegin 5, .jumpBegin 6]) =
        .error (.unmatchedEmitted ⟨.opening, 5⟩)) ∧
      ∃ k g, k ≤ 1 ∧ FirstFault [.op .clear, .op (.scan 1 .forward 2147483648), .closing] k g ∧
        Native.compileLowered .willing [.op .clear, .op (.scan 1 .forward 2147483648), .closing] = .error g := by
  obtain ⟨hemit, hcompile, -⟩ := refusals_are_exact
  constructor
  · have hforgives := hemit .willing [.jumpBegin 7, .add 300, .jumpEnd 8, .jumpEnd 9, .jumpBegin 5, .jumpBegin 6]
      (Assembler.takes_willing _) (by
        intro r hr o ho
        simp only [List.mem_cons, List.not_mem_nil, or_false] at hr
        rcases hr with rfl | rfl | rfl | rfl | rfl | rfl <;> cases ho
        trivial)
    have hsplit : [Request.jumpBegin 7, .add 300, .jumpEnd 8, .jumpEnd 9, .jumpBegin 5, .jumpBegin 6] =
        [.jumpBegin 7, .add 300, .jumpEnd 8] ++ .jumpEnd 9 :: [.jumpBegin 5, .jumpBegin 6] := rfl
    obtain ⟨p, -, hnone, -⟩ := (hforgives.refused_iff hsplit).mp rfl
    exact ⟨hnone, hforgives.finish_error_iff.mp ⟨_, rfl⟩, rfl⟩
  · have hfault : Faulty [.op .clear, .op (.scan 1 .forward 2147483648), .closing] 1 .offsetTooLarge :=
      .offset rfl rfl (by decide)
    obtain ⟨k, g, hfirst, herror⟩ := (hcompile .willing _ rfl).1 1 _ hfault
    exact ⟨k, g, hfirst.2 _ _ hfault, hfirst, herror⟩

end TapeMachine
