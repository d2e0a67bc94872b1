import TapeMachine.Proofs.Words

namespace TapeMachine

open Tape (Operation Answer)

namespace RawTape

/-- There are 30000 bytes, and the index is that of one of them. -/
structure Sound (m : RawTape) : Prop where
  size : m.bytes.size = 30000
  index : m.index < 30000

section Access

variable {m : RawTape} {i : Nat}

theorem load_of_lt (h : i < m.bytes.size) (next : UInt8 → Answer × RawTape) : m.load i next = next m.bytes[i] := by
  rw [load, Array.getElem?_eq_getElem h]

theorem load_of_le (h : m.bytes.size ≤ i) (next : UInt8 → Answer × RawTape) : m.load i next = (.crashed, m) := by
  rw [load, Array.getElem?_eq_none h]

theorem store_of_lt (h : i < m.bytes.size) (b : UInt8) (next : RawTape → Answer × RawTape) :
    m.store i b next = next ⟨m.bytes.set i b, m.index⟩ :=
  dif_pos h

end Access

end RawTape

namespace Tape

variable {t : Tape} {o : Operation}

theorem raw_blank : blank.raw = .blank := by
  show RawTape.mk (Vector.replicate 30000 (0 : UInt8)).toArray 0 = .blank
  rw [Vector.toArray_replicate]
  rfl

theorem size_raw (t : Tape) : t.raw.bytes.size = 30000 :=
  t.cells.size_toArray

theorem sound_raw (t : Tape) : t.raw.Sound :=
  ⟨t.size_raw, t.head.isLt⟩

theorem target?_raw (t : Tape) (d : Direction) (n : Nat) : t.raw.target? d n = (t.cellAt? d n).map Fin.val := by
  rw [map_val_cellAt?]
  cases d with
  | forward => rw [RawTape.target?, size_raw]; rfl
  | backward => rw [RawTape.target?, size_raw]; rfl

theorem load_raw (t : Tape) (i : Fin 30000) (next : UInt8 → Answer × RawTape) :
    t.raw.load i next = next (t.cells.get i) := by
  have hi : (i : Nat) < t.raw.bytes.size := i.isLt.trans_eq t.size_raw.symm
  exact RawTape.load_of_lt hi next

theorem store_raw (t : Tape) (i : Fin 30000) (b : UInt8) (next : RawTape → Answer × RawTape) :
    t.raw.store i b next = next (raw ⟨t.cells.set i b i.isLt, t.head⟩) := by
  have hi : (i : Nat) < t.raw.bytes.size := i.isLt.trans_eq t.size_raw.symm
  exact RawTape.store_of_lt hi b next

theorem ofNat_mod_256 (n : Nat) : UInt8.ofNat (n % 256) = UInt8.ofNat n := by
  apply UInt8.toNat_inj.mp
  simp

/-- An operation does in memory what it does on the tape. -/
theorem apply_raw (t : Tape) (o : Operation) : t.raw.apply o = ((t.apply o).1, (t.apply o).2.raw) := by
  have hindex : t.raw.index = t.head := rfl
  cases o with
  | set b =>
    rw [RawTape.apply, hindex, store_raw]
    rfl
  | add n =>
    rw [RawTape.apply, hindex, load_raw, store_raw, ofNat_mod_256]
    rfl
  | sub n =>
    rw [RawTape.apply, hindex, load_raw, store_raw, ofNat_mod_256]
    rfl
  | move d n pc =>
    rw [RawTape.apply, target?_raw, apply, move?]
    cases t.cellAt? d n with
    | some i => rfl
    | none => rfl
  | cellAt d n pc =>
    rw [RawTape.apply, target?_raw, apply]
    cases t.cellAt? d n with
    | some i => rfl
    | none => rfl
  | transferTo i =>
    rw [RawTape.apply, hindex, load_raw, apply]
    by_cases hi : i < 30000
    · rw [dif_pos hi, load_raw t ⟨i, hi⟩, store_raw t ⟨i, hi⟩]
      exact store_raw _ t.head 0 _
    · have hout : t.raw.bytes.size ≤ i := t.size_raw.trans_le (Nat.le_of_not_lt hi)
      rw [dif_neg hi, RawTape.load_of_le hout]

theorem applyAll_raw (t : Tape) (ops : List Operation) : t.raw.applyAll ops = (t.applyAll ops).raw := by
  induction ops generalizing t with
  | nil => rfl
  | cons o ops ih =>
    rw [RawTape.applyAll, List.foldl_cons, apply_raw]
    exact ih (t.apply o).2

def total (t : Tape) : Nat :=
  (t.cells.toList.map UInt8.toNat).sum

theorem sum_set {l : List Nat} {i : Nat} (h : i < l.length) (n : Nat) : (l.set i n).sum + l[i] = l.sum + n := by
  induction l generalizing i with
  | nil => cases h
  | cons k l ih =>
    cases i with
    | zero =>
      simp only [List.set_cons_zero, List.getElem_cons_zero, List.sum_cons]
      omega
    | succ i =>
      have hi := ih (Nat.lt_of_succ_lt_succ h)
      simp only [List.set_cons_succ, List.getElem_cons_succ, List.sum_cons]
      omega

/-- A cell that is written exchanges its value in the sum, wherever the head is. -/
theorem total_set (cells : Vector UInt8 30000) (head i : Fin 30000) (b : UInt8) :
    (mk (cells.set i b i.isLt) head).total + (cells.get i).toNat = (mk cells head).total + b.toNat := by
  have hi : (i : Nat) < (cells.toList.map UInt8.toNat).length := by simp
  have hsum := sum_set hi b.toNat
  rw [← List.map_set, List.getElem_map, Vector.getElem_toList] at hsum
  rw [total, Vector.toList_set]
  exact hsum

theorem total_transferTo {i : Fin 30000} (h : i ≠ t.head) : (t.transferTo i).total % 256 = t.total % 256 := by
  obtain ⟨cells, head⟩ := t
  have hv : (i : Nat) ≠ head := fun he => h (Fin.ext he)
  have hadded := total_set cells head i (cells.get i + cells.get head)
  have hcleared := total_set (cells.set i (cells.get i + cells.get head) i.isLt) head head 0
  have hkept : (cells.set i (cells.get i + cells.get head) i.isLt).get head = cells.get head :=
    Vector.getElem_set_ne i.isLt head.isLt hv
  have hzero : (0 : UInt8).toNat = 0 := rfl
  rw [hkept, hzero] at hcleared
  rw [UInt8.toNat_add] at hadded
  show (mk ((cells.set i (cells.get i + cells.get head) i.isLt).set head 0 head.isLt) head).total % 256 =
    (mk cells head).total % 256
  omega

/-- All that an operation can do. -/
inductive Outcome (t : Tape) : Operation → Answer × Tape → Prop where
  | set (b : UInt8) : Outcome t (.set b) (.done, t.set b)
  | add (n : Nat) : Outcome t (.add n) (.done, t.add n)
  | sub (n : Nat) : Outcome t (.sub n) (.done, t.sub n)
  | moved {d : Direction} {n pc : Nat} {i : Fin 30000} : t.cellAt? d n = some i →
      Outcome t (.move d n pc) (.done, ⟨t.cells, i⟩)
  | notMoved {d : Direction} {n pc : Nat} : t.cellAt? d n = none →
      Outcome t (.move d n pc) (.failed (.outOfBounds (some pc)), t)
  | found {d : Direction} {n pc : Nat} {i : Fin 30000} : t.cellAt? d n = some i →
      Outcome t (.cellAt d n pc) (.cell i, t)
  | notFound {d : Direction} {n pc : Nat} : t.cellAt? d n = none →
      Outcome t (.cellAt d n pc) (.failed (.outOfBounds (some pc)), t)
  | transferred (i : Fin 30000) : Outcome t (.transferTo i) (.done, t.transferTo i)
  | crashed {i : Nat} : size ≤ i → Outcome t (.transferTo i) (.crashed, t)

theorem outcome (t : Tape) (o : Operation) : t.Outcome o (t.apply o) := by
  cases o with
  | set b => exact .set b
  | add n => exact .add n
  | sub n => exact .sub n
  | move d n pc =>
    rw [apply, move?]
    cases h : t.cellAt? d n with
    | some i => exact .moved h
    | none => exact .notMoved h
  | cellAt d n pc =>
    rw [apply]
    cases h : t.cellAt? d n with
    | some i => exact .found h
    | none => exact .notFound h
  | transferTo i =>
    rw [apply]
    split
    next h => exact .transferred ⟨i, h⟩
    next h => exact .crashed (Nat.le_of_not_lt h)

def Answer.Refusal : Answer → Prop
  | .failed _ => True
  | .crashed => True
  | _ => False

def Operation.Writes (t : Tape) (i : Fin 30000) : Operation → Prop
  | .set _ => i = t.head
  | .add _ => i = t.head
  | .sub _ => i = t.head
  | .move _ _ _ => False
  | .cellAt _ _ _ => False
  | .transferTo target => i = t.head ∨ i = target

theorem cells_set {i : Fin 30000} (h : i ≠ t.head) (b : UInt8) : (t.set b).cells.get i = t.cells.get i := by
  have hv : (t.head : Nat) ≠ i := fun he => h (Fin.ext he.symm)
  exact Vector.getElem_set_ne t.head.isLt i.isLt hv

theorem cells_transferTo {i j : Fin 30000} (h : i ≠ t.head) (hj : i ≠ j) :
    (t.transferTo j).cells.get i = t.cells.get i := by
  have hv : (t.head : Nat) ≠ i := fun he => h (Fin.ext he.symm)
  have hvj : (j : Nat) ≠ i := fun he => hj (Fin.ext he.symm)
  have hcleared : (t.transferTo j).cells.get i = (t.cells.set j (t.cells.get j + t.current) j.isLt).get i :=
    Vector.getElem_set_ne t.head.isLt i.isLt hv
  exact hcleared.trans (Vector.getElem_set_ne j.isLt i.isLt hvj)

namespace Outcome

variable {x : Answer × Tape}

theorem eq_of_refusal (h : t.Outcome o x) (hx : x.1.Refusal) : x.2 = t := by
  cases h with
  | notMoved => rfl
  | notFound => rfl
  | crashed => rfl
  | _ => cases hx

theorem crashed_iff (h : t.Outcome o x) : x.1 = .crashed ↔ ∃ i, o = .transferTo i ∧ size ≤ i := by
  cases h with
  | crashed hi => exact ⟨fun _ => ⟨_, rfl, hi⟩, fun _ => rfl⟩
  | transferred i =>
    refine ⟨nofun, ?_⟩
    rintro ⟨j, hj, hle⟩
    cases hj
    exact absurd i.isLt (Nat.not_lt_of_le hle)
  | _ => exact ⟨nofun, nofun⟩

theorem head_eq (h : t.Outcome o x) (ho : ∀ d n pc, o ≠ .move d n pc) : x.2.head = t.head := by
  cases h with
  | moved => exact absurd rfl (ho _ _ _)
  | _ => rfl

theorem cell_eq (h : t.Outcome o x) {i : Fin 30000} (hi : ¬ o.Writes t i) : x.2.cells.get i = t.cells.get i := by
  cases h with
  | set b => exact cells_set hi b
  | add n => exact cells_set hi _
  | sub n => exact cells_set hi _
  | transferred j =>
    obtain ⟨hhead, htarget⟩ := not_or.mp hi
    exact cells_transferTo hhead fun he => htarget (congrArg Fin.val he)
  | _ => rfl

theorem eq_of_cellAt {d : Direction} {n pc : Nat} (h : t.Outcome (.cellAt d n pc) x) : x.2 = t := by
  cases h with
  | found => rfl
  | notFound => rfl

end Outcome

/-- What the operation leaves alone, and what a transfer leaves behind. -/
structure Framed (t : Tape) (o : Operation) : Prop where
  refused : (t.apply o).1.Refusal → (t.apply o).2 = t
  crashed_iff : (t.apply o).1 = .crashed ↔ ∃ i, o = .transferTo i ∧ size ≤ i
  head : (∀ d n pc, o ≠ .move d n pc) → (t.apply o).2.head = t.head
  cell : ∀ i : Fin 30000, ¬ o.Writes t i → (t.apply o).2.cells.get i = t.cells.get i
  looked : ∀ d n pc, o = .cellAt d n pc → (t.apply o).2 = t
  cleared : ∀ i, o = .transferTo i → i < size → (t.apply o).1 = .done ∧ (t.apply o).2.current = 0
  total : ∀ i, o = .transferTo i → i ≠ t.head → (t.apply o).2.total % 256 = t.total % 256

theorem framed (t : Tape) (o : Operation) : t.Framed o := by
  have h := t.outcome o
  refine ⟨h.eq_of_refusal, h.crashed_iff, h.head_eq, fun i => h.cell_eq, ?_, ?_, ?_⟩
  · rintro d n pc rfl
    exact h.eq_of_cellAt
  · rintro i rfl hi
    generalize t.apply (.transferTo i) = x at h
    cases h with
    | transferred j => exact ⟨rfl, current_transferTo t j⟩
    | crashed hle => exact absurd hi (Nat.not_lt_of_le hle)
  · rintro i rfl hne
    generalize t.apply (.transferTo i) = x at h
    cases h with
    | transferred j => exact total_transferTo fun he => hne (congrArg Fin.val he)
    | crashed => rfl

end Tape

/-- Whatever operations come first, and whether they are refused or not, a tape in memory has 30000 cells, its index is
that of one of them, and the next operation answers and does what it does on the tape: it crashes only on its way to a
cell that is not there, a refused one changes nothing, a move changes no cell, and every other one no more than the
cells it writes. -/
theorem operations_stay_in_frame :
    (∀ (t : Tape) (o : Operation), t.Framed o) ∧
    ∀ ops : List Operation, (RawTape.blank.applyAll ops).Sound ∧
      RawTape.blank.applyAll ops = (Tape.blank.applyAll ops).raw ∧
      ∀ o, (RawTape.blank.applyAll ops).apply o =
        (((Tape.blank.applyAll ops).apply o).1, ((Tape.blank.applyAll ops).apply o).2.raw) := by
  refine ⟨Tape.framed, fun ops => ?_⟩
  have hraw : RawTape.blank.applyAll ops = (Tape.blank.applyAll ops).raw := by
    rw [← Tape.raw_blank, Tape.applyAll_raw]
  rw [hraw]
  exact ⟨Tape.sound_raw _, rfl, Tape.apply_raw _⟩

end TapeMachine
