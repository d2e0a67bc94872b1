import TapeMachine.Engine.Tabled
import TapeMachine.Proofs.Unmatched

namespace TapeMachine

variable {α : Type}

/-- The tokens as code, each bracket as a jump that holds its partner. -/
structure Links (ts : List (Token α)) (code : Code α) : Prop where
  size : code.size = ts.length
  op : ∀ {i : Nat} {a : α}, ts[i]? = some (.op a) → code[i]? = some (.op a)
  opening : ∀ {i j : Nat}, Partners ts i j → code[i]? = some (.ifZero j)
  closing : ∀ {i j : Nat}, Partners ts i j → code[j]? = some (.ifNonzero i)

namespace Linker

theorem closeLoop_eq_ok {l m : Linker α} {place : Nat} (h : l.closeLoop place = .ok m) :
    ∃ o loops, l.loops = o :: loops ∧ m.loops = loops ∧
      m.code = (l.code.setIfInBounds o.index (.ifZero l.code.size)).push (.ifNonzero o.index) := by
  obtain ⟨code, loops⟩ := l
  cases loops with
  | nil => cases h
  | cons o loops => cases h; exact ⟨o, loops, rfl, rfl, rfl⟩

/-- The linker takes the tokens one after the other, at whatever places. -/
inductive Takes : Linker α → List (Token α) → Linker α → Prop where
  | nil (l : Linker α) : Takes l [] l
  | op {l m : Linker α} {a : α} {ts : List (Token α)} :
      Takes (l.pushOp a) ts m → Takes l (.op a :: ts) m
  | opening {l m : Linker α} {ts : List (Token α)} (place : Nat) :
      Takes (l.openLoop place) ts m → Takes l (.opening :: ts) m
  | closing {l k m : Linker α} {ts : List (Token α)} {place : Nat} :
      l.closeLoop place = .ok k → Takes k ts m → Takes l (.closing :: ts) m

namespace Takes

theorem append {l k m : Linker α} {xs ys : List (Token α)} (h : Takes l xs k) (h' : Takes k ys m) :
    Takes l (xs ++ ys) m := by
  induction h with
  | nil => exact h'
  | op _ ih => exact .op (ih h')
  | opening place _ ih => exact .opening place (ih h')
  | closing hc _ ih => exact .closing hc (ih h')

theorem split {l m : Linker α} (xs : List (Token α)) {ys : List (Token α)}
    (h : Takes l (xs ++ ys) m) : ∃ k, Takes l xs k ∧ Takes k ys m := by
  induction xs generalizing l with
  | nil => exact ⟨l, .nil l, h⟩
  | cons x xs ih =>
    cases h with
    | op h =>
      obtain ⟨k, hk, hm⟩ := ih h
      exact ⟨k, .op hk, hm⟩
    | opening place h =>
      obtain ⟨k, hk, hm⟩ := ih h
      exact ⟨k, .opening place hk, hm⟩
    | closing hc h =>
      obtain ⟨k, hk, hm⟩ := ih h
      exact ⟨k, .closing hc hk, hm⟩

theorem size_eq {l m : Linker α} {ts : List (Token α)} (h : Takes l ts m) :
    m.code.size = l.code.size + ts.length := by
  induction h with
  | nil => rfl
  | op _ ih =>
    rw [ih]
    simp only [pushOp, Array.size_push, List.length_cons]
    omega
  | opening _ _ ih =>
    rw [ih]
    simp only [openLoop, Array.size_push, List.length_cons]
    omega
  | closing hc _ ih =>
    obtain ⟨o, loops, -, -, hcode⟩ := closeLoop_eq_ok hc
    rw [ih, hcode]
    simp only [Array.size_push, Array.size_setIfInBounds, List.length_cons]
    omega

theorem index_lt {l m : Linker α} {ts : List (Token α)} (h : Takes l ts m)
    (hl : ∀ o ∈ l.loops, o.index < l.code.size) : ∀ o ∈ m.loops, o.index < m.code.size := by
  induction h with
  | nil => exact hl
  | op _ ih =>
    apply ih
    intro o ho
    have hlt := hl o ho
    simp only [pushOp, Array.size_push]
    omega
  | opening place _ ih =>
    apply ih
    intro o ho
    simp only [openLoop, Array.size_push, List.mem_cons] at ho ⊢
    rcases ho with rfl | ho
    · simp
    · have hlt := hl o ho
      omega
  | closing hc _ ih =>
    obtain ⟨o, loops, hloops, hk, hcode⟩ := closeLoop_eq_ok hc
    apply ih
    intro o' ho'
    have hlt := hl o' (by rw [hloops]; exact List.mem_cons_of_mem o (hk ▸ ho'))
    rw [hcode]
    simp only [Array.size_push, Array.size_setIfInBounds]
    omega

/-- An instruction that waits for no partner stays. -/
theorem getElem?_eq {l m : Linker α} {ts : List (Token α)} (h : Takes l ts m) {k : Nat}
    (hk : k < l.code.size) (hw : ∀ o ∈ l.loops, o.index ≠ k) : m.code[k]? = l.code[k]? := by
  induction h with
  | nil => rfl
  | @op l _ a _ _ ih =>
    rw [ih (by simp only [pushOp, Array.size_push]; omega) hw]
    simp only [pushOp, Array.getElem?_push, show k ≠ l.code.size by omega, if_false]
  | @opening l _ _ place _ ih =>
    rw [ih (by simp only [openLoop, Array.size_push]; omega)]
    · simp only [openLoop, Array.getElem?_push, show k ≠ l.code.size by omega, if_false]
    · intro o ho
      rcases List.mem_cons.mp ho with rfl | ho
      · simp only
        omega
      · exact hw o ho
  | @closing l _ _ _ _ hc _ ih =>
    obtain ⟨o, loops, hloops, hk', hcode⟩ := closeLoop_eq_ok hc
    have hne : o.index ≠ k := hw o (by rw [hloops]; exact List.mem_cons_self)
    rw [ih (by rw [hcode]; simp only [Array.size_push, Array.size_setIfInBounds]; omega)]
    · rw [hcode, Array.getElem?_push, Array.size_setIfInBounds, if_neg (by omega),
        Array.getElem?_setIfInBounds_ne hne]
    · intro o' ho'
      exact hw o' (by rw [hloops]; exact List.mem_cons_of_mem o (hk' ▸ ho'))

theorem loops_eq_of_balanced {ts : List (Token α)} (hb : Balanced ts) {l m : Linker α}
    (h : Takes l ts m) : m.loops = l.loops := by
  induction hb generalizing l m with
  | nil => cases h; rfl
  | op a _ ih =>
    cases h with
    | op h =>
      have hm := ih h
      exact hm
  | @loop body rest _ _ ihb ihr =>
    rw [List.cons_append] at h
    cases h with
    | opening place h =>
      obtain ⟨k, hk, hrest⟩ := split body h
      cases hrest with
      | closing hc hrest =>
        obtain ⟨o, loops, hloops, hk', -⟩ := closeLoop_eq_ok hc
        rw [ihb hk] at hloops
        rw [ihr hrest, hk']
        exact (List.cons.inj hloops).2.symm

theorem closes {l m : Linker α} {ts : List (Token α)} (h : Takes l ts m) (hm : m.loops = []) :
    TapeMachine.closes l.loops.length ts = true := by
  induction h with
  | nil => simp [TapeMachine.closes, hm]
  | op _ ih => exact ih hm
  | opening _ _ ih => exact ih hm
  | closing hc _ ih =>
    obtain ⟨o, loops, hloops, hk, -⟩ := closeLoop_eq_ok hc
    rw [hloops, List.length_cons, TapeMachine.closes, ← hk]
    exact ih hm

section Start

variable {l : Linker α} {pre post : List (Token α)}

theorem size_of_start (h : Takes empty pre l) : l.code.size = pre.length := by
  simpa [empty] using h.size_eq

theorem index_lt_of_start (h : Takes empty pre l) : ∀ o ∈ l.loops, o.index < pre.length := by
  have hlt := h.index_lt (by simp [empty])
  rw [h.size_of_start] at hlt
  exact hlt

theorem op_code {a : α} (h : Takes empty (pre ++ .op a :: post) l) : l.code[pre.length]? = some (.op a) := by
  obtain ⟨k, hk, hrest⟩ := split pre h
  have hsize := hk.size_of_start
  cases hrest with
  | op hrest =>
    rw [hrest.getElem?_eq (by simp only [pushOp, Array.size_push]; omega)]
    · simp only [pushOp]
      rw [Array.getElem?_push, if_pos hsize.symm]
    · intro o ho
      exact Nat.ne_of_lt (hk.index_lt_of_start o ho)

/-- When a loop is closed its two jumps hold each other, and what follows leaves them alone. -/
theorem loop_code {body : List (Token α)} (hb : Balanced body)
    (h : Takes empty (pre ++ .opening :: (body ++ .closing :: post)) l) :
    l.code[pre.length]? = some (.ifZero (pre.length + body.length + 1)) ∧
      l.code[pre.length + body.length + 1]? = some (.ifNonzero pre.length) := by
  obtain ⟨k, hk, hrest⟩ := split pre h
  have hksize := hk.size_of_start
  have hwait := hk.index_lt_of_start
  cases hrest with
  | opening place hrest =>
    obtain ⟨k', hk', hrest⟩ := split body hrest
    have hk'size : k'.code.size = pre.length + body.length + 1 := by
      rw [hk'.size_eq]
      simp only [openLoop, Array.size_push]
      omega
    have hk'loops := hk'.loops_eq_of_balanced hb
    cases hrest with
    | @closing _ k'' _ _ _ hc hrest =>
      obtain ⟨o, loops, hloops, hk'', hcode⟩ := closeLoop_eq_ok hc
      rw [hk'loops] at hloops
      obtain ⟨rfl, rfl⟩ := List.cons_eq_cons.mp hloops
      simp only [hksize] at hcode
      have hwait' : ∀ o ∈ k''.loops, o.index < pre.length := by rw [hk'']; exact hwait
      have hsize : k''.code.size = pre.length + body.length + 2 := by
        rw [hcode]
        simp only [Array.size_push, Array.size_setIfInBounds]
        omega
      constructor
      · rw [hrest.getElem?_eq (by omega) fun o ho => Nat.ne_of_lt (hwait' o ho), hcode,
          Array.getElem?_push, Array.size_setIfInBounds, if_neg (by omega),
          Array.getElem?_setIfInBounds_self_of_lt (by omega), hk'size]
      · rw [hrest.getElem?_eq (by omega) fun o ho => by have := hwait' o ho; omega, hcode,
          Array.getElem?_push, Array.size_setIfInBounds, if_pos hk'size.symm]

end Start

theorem links {l : Linker α} {ts : List (Token α)} (h : Takes empty ts l) : Links ts l.code := by
  have pair : ∀ {i j}, Partners ts i j →
      l.code[i]? = some (.ifZero j) ∧ l.code[j]? = some (.ifNonzero i) := by
    intro i j hp
    obtain ⟨pre, body, post, rfl, hb, rfl, rfl⟩ := partners_iff.mp hp
    exact h.loop_code hb
  refine ⟨h.size_of_start, ?_, fun hp => (pair hp).1, fun hp => (pair hp).2⟩
  intro i a hi
  obtain ⟨hlt, he⟩ := List.getElem?_eq_some_iff.mp hi
  have hts : ts = ts.take i ++ .op a :: ts.drop (i + 1) := by
    rw [← he, ← List.drop_eq_getElem_cons hlt, List.take_append_drop]
  have hlen : (ts.take i).length = i := by
    rw [List.length_take]
    omega
  rw [hts] at h
  have hop := h.op_code
  rw [hlen] at hop
  exact hop

end Takes

theorem takes_of_pushAll {width : α → Nat} {ts : List (Token α)} {l m : Linker α} {place : Nat}
    (h : l.pushAll width place ts = .ok m) : Takes l ts m := by
  induction ts generalizing l place with
  | nil => cases h; exact .nil _
  | cons t ts ih =>
    rw [pushAll] at h
    match t with
    | .op a => exact .op (ih h)
    | .opening => exact .opening place (ih h)
    | .closing =>
      simp only [push] at h
      split at h
      · exact .closing ‹_› (ih h)
      · cases h

theorem pushAll_of_closes (width : α → Nat) {ts : List (Token α)} {l : Linker α} (place : Nat)
    (h : TapeMachine.closes l.loops.length ts = true) :
    ∃ m, l.pushAll width place ts = .ok m ∧ m.loops = [] := by
  induction ts generalizing l place with
  | nil =>
    refine ⟨l, rfl, ?_⟩
    simpa [TapeMachine.closes] using h
  | cons t ts ih =>
    cases t with
    | op a => exact ih (l := l.pushOp a) _ h
    | bracket b =>
      cases b with
      | opening => exact ih (l := l.openLoop place) _ h
      | closing =>
        obtain ⟨code, loops⟩ := l
        cases loops with
        | nil => simp [TapeMachine.closes] at h
        | cons o loops => exact ih (l := ⟨_, loops⟩) _ h

theorem finish_eq_ok_iff {l : Linker α} {code : Code α} :
    l.finish = .ok code ↔ l.loops = [] ∧ l.code = code := by
  unfold finish
  split
  · simp_all
  · rename_i o ho
    have hne : l.loops ≠ [] := by
      intro he
      simp [he] at ho
    simp [hne]

end Linker

open Linker

theorem links_of_link {width : α → Nat} {ts : List (Token α)} {code : Code α}
    (h : link width ts = .ok code) : Links ts code := by
  unfold link at h
  split at h
  · obtain ⟨-, rfl⟩ := finish_eq_ok_iff.mp h
    exact (takes_of_pushAll ‹_›).links
  · cases h

theorem link_of_balanced (width : α → Nat) {ts : List (Token α)} (h : Balanced ts) :
    ∃ code, link width ts = .ok code := by
  obtain ⟨l, hl, hloops⟩ := pushAll_of_closes width (l := empty) 0 (balanced_iff_closes.mp h)
  exact ⟨l.code, by simp only [link, hl, finish_eq_ok_iff.mpr ⟨hloops, rfl⟩]⟩

theorem balanced_of_link {width : α → Nat} {ts : List (Token α)} {code : Code α}
    (h : link width ts = .ok code) : Balanced ts := by
  unfold link at h
  split at h
  · obtain ⟨hloops, -⟩ := finish_eq_ok_iff.mp h
    have hc := (takes_of_pushAll ‹_›).closes hloops
    exact balanced_iff_closes.mpr hc
  · cases h

/-- Every jump leads to an instruction of the code. -/
theorem Links.destination_lt {ts : List (Token α)} {code : Code α} (h : Links ts code) (hb : Balanced ts) {x : Instr α}
    (hx : x ∈ code) : x.destination < code.size := by
  obtain ⟨i, hi, hget⟩ := Array.mem_iff_getElem.mp hx
  have hxi : code[i]? = some x := by rw [Array.getElem?_eq_getElem hi, hget]
  obtain ⟨t, ht⟩ : ∃ t, ts[i]? = some t := ⟨_, List.getElem?_eq_getElem (h.size ▸ hi)⟩
  cases t with
  | op a =>
    cases hxi.symm.trans (h.op ht)
    exact Nat.zero_lt_of_lt hi
  | bracket b =>
    cases b with
    | opening =>
      obtain ⟨j, hj⟩ := (hb.partnered ht).of_opening ht
      cases hxi.symm.trans (h.opening hj)
      rw [h.size]
      exact (List.getElem?_eq_some_iff.mp hj.2.2.1).1
    | closing =>
      obtain ⟨j, hj⟩ := (hb.partnered ht).of_closing ht
      cases hxi.symm.trans (h.closing hj)
      rw [h.size]
      exact (List.getElem?_eq_some_iff.mp hj.2.1).1

end TapeMachine
