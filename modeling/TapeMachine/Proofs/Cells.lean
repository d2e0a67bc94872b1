import TapeMachine.Tape

namespace TapeMachine

theorem addCount_addCount (b : UInt8) (m n : Nat) : addCount (addCount b m) n = addCount b (m + n) := by
  simp only [addCount, UInt8.ofNat_add, UInt8.add_assoc]

theorem subCount_subCount (b : UInt8) (m n : Nat) : subCount (subCount b m) n = subCount b (m + n) := by
  simp only [subCount, UInt8.ofNat_add]
  rw [UInt8.sub_eq_add_neg, UInt8.sub_eq_add_neg, UInt8.sub_eq_add_neg, UInt8.neg_add, UInt8.add_assoc,
    UInt8.sub_eq_add_neg]

theorem subCount_eq_addCount (b : UInt8) (n : Nat) : subCount b n = addCount b (255 * n) := by
  rw [subCount, addCount, UInt8.ofNat_mul, UInt8.sub_eq_add_neg, UInt8.neg_eq_neg_one_mul]
  rfl

theorem toNat_addCount (b : UInt8) (n : Nat) : (addCount b n).toNat = (b.toNat + n) % 256 := by
  simp [addCount, UInt8.toNat_add]

/-- Counting by `n` keeps the remainders modulo the common divisor of `n` and 256. -/
theorem gcd_dvd_addCount {n : Nat} {b : UInt8} :
    Nat.gcd n 256 ∣ (addCount b n).toNat ↔ Nat.gcd n 256 ∣ b.toNat := by
  rw [toNat_addCount, Nat.dvd_mod_iff (Nat.gcd_dvd_right n 256)]
  exact (Nat.dvd_add_iff_left (Nat.gcd_dvd_left n 256)).symm

namespace Tape

def SameCells (t u : Tape) : Prop := t.cells = u.cells

def bump (t : Tape) (i : Fin 30000) : Tape where
  cells := (add ⟨t.cells, i⟩ 1).cells
  head := t.head

/-- The same cells, except that at most one cell of the second tape has one more. -/
def OneMore (t u : Tape) : Prop :=
  t.SameCells u ∨ ∃ i, (t.bump i).SameCells u

theorem SameCells.symm {t u : Tape} (h : t.SameCells u) : u.SameCells t :=
  Eq.symm h

theorem SameCells.trans {t u v : Tape} (h : t.SameCells u) (h' : u.SameCells v) : t.SameCells v :=
  Eq.trans h h'

theorem set_set (t : Tape) (a b : UInt8) : (t.set a).set b = t.set b := by
  simp [set]

theorem set_current (t : Tape) : t.set t.current = t := by
  simp [set, current]

theorem add_zero (t : Tape) : t.add 0 = t := by
  simp [add, addCount, set_current]

theorem sub_zero (t : Tape) : t.sub 0 = t := by
  simp [sub, subCount, set_current]

theorem current_add (t : Tape) (n : Nat) : (t.add n).current = addCount t.current n :=
  current_set _ _

theorem current_sub (t : Tape) (n : Nat) : (t.sub n).current = subCount t.current n :=
  current_set _ _

theorem add_add (t : Tape) (m n : Nat) : (t.add m).add n = t.add (m + n) := by
  rw [add, current_add, add, set_set, addCount_addCount, add]

theorem sub_sub (t : Tape) (m n : Nat) : (t.sub m).sub n = t.sub (m + n) := by
  rw [sub, current_sub, sub, set_set, subCount_subCount, sub]

theorem sub_eq_add (t : Tape) (n : Nat) : t.sub n = t.add (255 * n) := by
  rw [sub, add, subCount_eq_addCount]

theorem set_zero_of_zero {t : Tape} (h : t.current = 0) : t.set 0 = t := by
  rw [← h, set_current]

theorem move?_zero (t : Tape) (d : Direction) : t.move? d 0 = some t := by
  rw [move?, cellAt?_zero]

theorem move?_add (t : Tape) (d : Direction) (m n : Nat) :
    t.move? d (m + n) = (t.move? d m).bind fun u => u.move? d n := by
  cases d with
  | forward =>
    by_cases hm : t.head + m < 30000
    · by_cases hn : t.head + m + n < 30000
      · simp [move?, cellAt?, hm, hn, ← Nat.add_assoc]
      · simp [move?, cellAt?, hm, hn, ← Nat.add_assoc]
    · have hn : ¬ t.head + m + n < 30000 := by omega
      simp [move?, cellAt?, hm, hn, ← Nat.add_assoc]
  | backward =>
    by_cases hm : m ≤ t.head
    · by_cases hn : m + n ≤ t.head
      · have hn' : n ≤ t.head - m := by omega
        simp [move?, cellAt?, hm, hn, hn', Nat.sub_sub]
      · have hn' : ¬ n ≤ t.head - m := by omega
        simp [move?, cellAt?, hm, hn, hn']
    · have hn : ¬ m + n ≤ t.head := by omega
      simp [move?, cellAt?, hm, hn]

theorem move?_head (t : Tape) : t.move? .backward t.head = some t.rewind := by
  refine move?_eq_some_iff.mpr ⟨0, ?_, rfl⟩
  simp [cellAt?]

theorem SameCells.of_move? {t u : Tape} {d : Direction} {n : Nat} (h : t.move? d n = some u) :
    t.SameCells u := by
  obtain ⟨i, -, rfl⟩ := move?_eq_some_iff.mp h
  rfl

def room (t : Tape) : Direction → Nat
  | .forward => 30000 - t.head
  | .backward => t.head

theorem room_lt_of_move? {t u : Tape} {d : Direction} {n : Nat} (hn : 0 < n) (h : t.move? d n = some u) :
    u.room d < t.room d := by
  obtain ⟨i, hi, rfl⟩ := move?_eq_some_iff.mp h
  cases d with
  | forward =>
    simp only [cellAt?, Option.dite_none_right_eq_some, Option.some.injEq] at hi
    obtain ⟨hlt, rfl⟩ := hi
    simp only [room]
    omega
  | backward =>
    simp only [cellAt?, Option.ite_none_right_eq_some, Option.some.injEq] at hi
    obtain ⟨hle, rfl⟩ := hi
    simp only [room]
    omega

theorem cellAt?_ne {t : Tape} {d : Direction} {n : Nat} (hn : 0 < n) {i : Fin 30000}
    (h : t.cellAt? d n = some i) : i ≠ t.head := by
  rintro rfl
  have hlt := room_lt_of_move? hn (move?_eq_some_iff.mpr ⟨_, h, rfl⟩)
  simp [room] at hlt

theorem cellAt?_opposite {t : Tape} {d : Direction} {n : Nat} {i : Fin 30000} (h : t.cellAt? d n = some i)
    (cells : Vector UInt8 30000) : (⟨cells, i⟩ : Tape).cellAt? d.opposite n = some t.head := by
  cases d with
  | forward =>
    simp only [cellAt?, Option.dite_none_right_eq_some, Option.some.injEq] at h
    obtain ⟨hlt, rfl⟩ := h
    simp [cellAt?, Direction.opposite]
  | backward =>
    simp only [cellAt?, Option.ite_none_right_eq_some, Option.some.injEq] at h
    obtain ⟨hle, rfl⟩ := h
    have hlt : t.head - n + n < 30000 := by omega
    simp [cellAt?, Direction.opposite, Nat.sub_add_cancel hle]

def carry (t : Tape) (i : Fin 30000) : Tape :=
  (t.sub 1).bump i

/-- A round trip to a cell on the tape leaves one more there. -/
theorem roundTrip_eq (t : Tape) (d : Direction) (n : Nat) :
    ((t.move? d n).bind fun u => (u.add 1).move? d.opposite n) = (t.cellAt? d n).map t.bump := by
  cases hc : t.cellAt? d n with
  | none => simp [move?, hc]
  | some i =>
    have hmove : t.move? d n = some ⟨t.cells, i⟩ := move?_eq_some_iff.mpr ⟨i, hc, rfl⟩
    rw [hmove]
    exact move?_eq_some_iff.mpr ⟨_, cellAt?_opposite hc _, rfl⟩

theorem cellAt?_sub (t : Tape) (d : Direction) (m n : Nat) : (t.sub m).cellAt? d n = t.cellAt? d n := by
  cases d <;> rfl

theorem cellAt?_carry (t : Tape) (i : Fin 30000) (d : Direction) (n : Nat) :
    (t.carry i).cellAt? d n = t.cellAt? d n := by
  cases d <;> rfl

section Carry

variable {t : Tape} {i : Fin 30000} (h : i ≠ t.head)

include h

theorem sub_bump : (t.bump i).sub 1 = t.carry i := by
  have hv : (i : Nat) ≠ t.head := fun he => h (Fin.ext he)
  simp only [carry, bump, add, sub, set, current, Fin.getElem_fin, Vector.getElem_set_ne _ _ hv,
    Vector.getElem_set_ne _ _ hv.symm, Tape.mk.injEq, and_true]
  exact Vector.set_comm _ _ hv

theorem current_carry : (t.carry i).current = t.current - 1 := by
  have hv : (i : Nat) ≠ t.head := fun he => h (Fin.ext he)
  simp [carry, bump, add, sub, set, current, subCount, hv]

theorem transferTo_carry : (t.carry i).transferTo i = t.transferTo i := by
  have hv : (i : Nat) ≠ t.head := fun he => h (Fin.ext he)
  simp only [carry, bump, add, sub, set, current, addCount, subCount, transferTo, Fin.getElem_fin, Tape.mk.injEq,
    and_true]
  apply Vector.ext
  intro k hk
  by_cases hhead : (t.head : Nat) = k
  · subst hhead
    simp
  · by_cases hi : (i : Nat) = k
    · subst hi
      have hsum : t.cells[(i : Nat)] + 1 + (t.cells[(t.head : Nat)] - UInt8.ofNat 1) =
          t.cells[(i : Nat)] + t.cells[(t.head : Nat)] := by
        rw [UInt8.add_assoc, UInt8.add_comm 1]
        exact congrArg _ (UInt8.sub_add_cancel _ _)
      simp only [ne_eq, hv, hv.symm, not_false_eq_true, Vector.getElem_set_ne, Vector.getElem_set_self,
        Vector.set_set]
      exact hsum
    · simp [hhead, hi]

end Carry

theorem transferTo_of_zero {t : Tape} (h : t.current = 0) (i : Fin 30000) : t.transferTo i = t := by
  have hz : t.cells[t.head] = 0 := h
  have hset : t.cells.set t.head 0 = t.cells := by rw [← hz]; exact Vector.set_getElem_self _
  have hset' : t.cells.set i t.cells[i] = t.cells := Vector.set_getElem_self _
  simp only [transferTo, hz, UInt8.add_zero, hset', hset]

theorem SameCells.oneMore {t u : Tape} (h : t.SameCells u) : t.OneMore u :=
  .inl h

theorem OneMore.trans_sameCells {t u v : Tape} (h : t.OneMore u) (h' : u.SameCells v) : t.OneMore v := by
  rcases h with h | ⟨i, hi⟩
  · exact .inl (h.trans h')
  · exact .inr ⟨i, hi.trans h'⟩

theorem SameCells.oneMore_of_sub {t u : Tape} (h : t.SameCells (u.sub 1)) : t.OneMore u := by
  refine .inr ⟨u.head, ?_⟩
  have hcells : t.cells = u.cells.set u.head (subCount u.cells[u.head] 1) := h
  have hsum : addCount (subCount u.cells[u.head] 1) 1 = u.cells[u.head] := UInt8.sub_add_cancel _ _
  simp only [SameCells, bump, add, set, current, hcells, Fin.getElem_fin, Vector.getElem_set_self,
    Vector.set_set] at hsum ⊢
  rw [hsum, Vector.set_getElem_self]

end Tape

end TapeMachine
