import TapeMachine.Proofs.Bracket

namespace TapeMachine

variable {α : Type}

def Partnered (ts : List (Token α)) (i : Nat) : Prop :=
  ∃ j, Partners ts i j ∨ Partners ts j i

def Lone (ts : List (Token α)) (b : Bracket) (i : Nat) : Prop :=
  ts[i]? = some (.bracket b) ∧ ¬ Partnered ts i

def IsFirst (p : Nat → Prop) (i : Nat) : Prop :=
  p i ∧ ∀ k, p k → i ≤ k

def IsLast (p : Nat → Prop) (i : Nat) : Prop :=
  p i ∧ ∀ k, p k → k ≤ i

section Context

variable {ts : List (Token α)} {i j : Nat}

theorem Partners.append (h : Partners ts i j) (us : List (Token α)) : Partners (ts ++ us) i j := by
  obtain ⟨pre, body, post, rfl, hb, hi, hj⟩ := partners_iff.mp h
  exact partners_iff.mpr ⟨pre, body, post ++ us, by simp, hb, hi, hj⟩

theorem Partners.shift (h : Partners ts i j) (us : List (Token α)) :
    Partners (us ++ ts) (us.length + i) (us.length + j) := by
  obtain ⟨pre, body, post, rfl, hb, rfl, rfl⟩ := partners_iff.mp h
  refine partners_iff.mpr ⟨us ++ pre, body, post, by simp, hb, List.length_append, ?_⟩
  omega

theorem Partnered.append (h : Partnered ts i) (us : List (Token α)) : Partnered (ts ++ us) i := by
  obtain ⟨j, h | h⟩ := h
  · exact ⟨j, .inl (h.append us)⟩
  · exact ⟨j, .inr (h.append us)⟩

theorem Partnered.shift (h : Partnered ts i) (us : List (Token α)) : Partnered (us ++ ts) (us.length + i) := by
  obtain ⟨j, h | h⟩ := h
  · exact ⟨us.length + j, .inl (h.shift us)⟩
  · exact ⟨us.length + j, .inr (h.shift us)⟩

theorem Partnered.of_opening (h : Partnered ts i) (ho : ts[i]? = some .opening) : ∃ j, Partners ts i j := by
  obtain ⟨j, h | h⟩ := h
  · exact ⟨j, h⟩
  · cases ho.symm.trans h.2.2.1

theorem Partnered.of_closing (h : Partnered ts i) (hc : ts[i]? = some .closing) : ∃ j, Partners ts j i := by
  obtain ⟨j, h | h⟩ := h
  · cases hc.symm.trans h.2.1
  · exact ⟨j, h⟩

theorem getElem?_append_cases {xs ys : List (Token α)} {t : Token α} (h : (xs ++ ys)[i]? = some t) :
    xs[i]? = some t ∨ ∃ k, i = xs.length + k ∧ ys[k]? = some t := by
  by_cases hi : i < xs.length
  · rw [List.getElem?_append_left hi] at h
    exact .inl h
  · rw [List.getElem?_append_right (by omega)] at h
    exact .inr ⟨i - xs.length, by omega, h⟩

end Context

theorem Balanced.partnered {ts : List (Token α)} (hb : Balanced ts) {b : Bracket} {i : Nat}
    (h : ts[i]? = some (.bracket b)) : Partnered ts i := by
  induction hb generalizing i with
  | nil => cases h
  | @op a rest _ ih =>
    cases i with
    | zero => cases h
    | succ i =>
      have hin := (ih h).shift [.op a]
      rw [List.length_singleton, Nat.add_comm] at hin
      exact hin
  | @loop body rest hbody _ ihb ihr =>
    have hloop : Partners (Token.opening :: body ++ .closing :: rest) 0 (body.length + 1) :=
      partners_iff.mpr ⟨[], body, rest, rfl, hbody, rfl, by omega⟩
    cases i with
    | zero => exact ⟨_, .inl hloop⟩
    | succ i =>
      rw [List.cons_append, List.getElem?_cons_succ] at h
      rcases getElem?_append_cases h with hi | ⟨k, rfl, hi⟩
      · have hin := ((ihb hi).append (.closing :: rest)).shift [.opening]
        rw [List.length_singleton, Nat.add_comm] at hin
        exact hin
      · cases k with
        | zero => exact ⟨0, .inr hloop⟩
        | succ k =>
          have hin := (ihr hi).shift (.opening :: body ++ [.closing])
          have hlen : (Token.opening :: body ++ [.closing] : List (Token α)).length + k = body.length + (k + 1) + 1 := by
            simp only [List.length_append, List.length_cons, List.length_nil]
            omega
          rw [hlen, List.append_assoc] at hin
          exact hin

/-- The indices of the brackets that stay open, innermost first, in tokens without a lone closing bracket. -/
inductive Opens : List (Token α) → List Nat → Prop where
  | balanced {ts : List (Token α)} : Balanced ts → Opens ts []
  | opening {pre body : List (Token α)} {is : List Nat} : Opens pre is → Balanced body →
      Opens (pre ++ .opening :: body) (pre.length :: is)

namespace Opens

variable {ts : List (Token α)} {is : List Nat} {i : Nat}

theorem append_balanced (h : Opens ts is) {body : List (Token α)} (hb : Balanced body) : Opens (ts ++ body) is := by
  cases h with
  | balanced h => exact .balanced (h.append hb)
  | opening h hb' =>
    rw [List.append_assoc]
    exact .opening h (hb'.append hb)

theorem snoc_op (h : Opens ts is) (a : α) : Opens (ts ++ [.op a]) is :=
  h.append_balanced (.op a .nil)

theorem snoc_opening (h : Opens ts is) : Opens (ts ++ [.opening]) (ts.length :: is) :=
  .opening h .nil

theorem snoc_closing (h : Opens ts (i :: is)) : Opens (ts ++ [.closing]) is := by
  cases h with
  | @opening pre body _ h hb =>
    have hloop := h.append_balanced (.loop hb .nil)
    simpa using hloop

theorem balanced_of_nil (h : Opens ts []) : Balanced ts := by
  cases h
  assumption

/-- What follows must close the brackets that stay open. -/
theorem closes_append (h : Opens ts is) (depth : Nat) (us : List (Token α)) :
    closes depth (ts ++ us) = closes (depth + is.length) us := by
  induction h generalizing us with
  | balanced hb => exact hb.closes_append depth us
  | opening _ hb ih =>
    rw [List.append_assoc, ih, List.cons_append, closes, hb.closes_append, List.length_cons, Nat.add_assoc]

theorem not_append_closing (h : Opens ts is) {body post : List (Token α)} (hb : Balanced body) :
    ts ≠ body ++ .closing :: post := by
  rintro rfl
  -- as many closing brackets as are open would balance the tokens
  have hclose := h.closes_append 0 (List.replicate is.length .closing)
  have hpop : ∀ n, closes n (List.replicate n (.closing : Token α)) = true := by
    intro n
    induction n with
    | zero => rfl
    | succ n ih => exact ih
  rw [Nat.zero_add, hpop, List.append_assoc, hb.closes_append] at hclose
  cases hclose

/-- Behind a bracket that stays open the tokens have no lone closing bracket either. -/
theorem exists_behind (h : Opens ts is) (hi : i ∈ is) :
    ∃ pre rest js, ts = pre ++ .opening :: rest ∧ pre.length = i ∧ Opens rest js := by
  induction h with
  | balanced => cases hi
  | @opening pre body is _ hb ih =>
    rcases List.mem_cons.mp hi with rfl | hi
    · exact ⟨pre, body, [], rfl, rfl, .balanced hb⟩
    · obtain ⟨pre', rest, js, rfl, hlen, hrest⟩ := ih hi
      exact ⟨pre', rest ++ .opening :: body, rest.length :: js, by simp, hlen, .opening hrest hb⟩

theorem lone_of_mem (h : Opens ts is) (hi : i ∈ is) : Lone ts .opening i := by
  obtain ⟨pre, rest, js, rfl, rfl, hrest⟩ := h.exists_behind hi
  have hopen : (pre ++ Token.opening :: rest)[pre.length]? = some .opening := by simp
  refine ⟨hopen, ?_⟩
  rintro ⟨j, hp | hp⟩
  · obtain ⟨pre', body, post, he, hb, hlen, -⟩ := partners_iff.mp hp
    obtain ⟨-, he⟩ := List.append_inj he hlen.symm
    exact hrest.not_append_closing hb (List.cons.inj he).2
  · cases hopen.symm.trans hp.2.2.1

theorem partnered (h : Opens ts is) {b : Bracket} (hb : ts[i]? = some (.bracket b)) (hi : i ∉ is) :
    Partnered ts i := by
  induction h generalizing i with
  | balanced hbal => exact hbal.partnered hb
  | @opening pre body is _ hbody ih =>
    rw [List.mem_cons, not_or] at hi
    rcases getElem?_append_cases hb with hpre | ⟨k, rfl, hin⟩
    · exact (ih hpre hi.2).append _
    · cases k with
      | zero => exact absurd rfl hi.1
      | succ k =>
        have hp := (hbody.partnered hin).shift (pre ++ [.opening])
        rw [List.append_assoc, List.length_append, List.length_singleton, Nat.add_assoc, Nat.add_comm 1] at hp
        exact hp

theorem lone_iff (h : Opens ts is) {b : Bracket} : Lone ts b i ↔ b = .opening ∧ i ∈ is := by
  constructor
  · intro hl
    have hi : i ∈ is := Decidable.byContradiction fun hi => hl.2 (h.partnered hl.1 hi)
    have hb := (h.lone_of_mem hi).1.symm.trans hl.1
    cases hb
    exact ⟨rfl, hi⟩
  · rintro ⟨rfl, hi⟩
    exact h.lone_of_mem hi

theorem lt_length (h : Opens ts is) (hi : i ∈ is) : i < ts.length :=
  (List.getElem?_eq_some_iff.mp (h.lone_of_mem hi).1).1

theorem pairwise_gt (h : Opens ts is) : is.Pairwise (· > ·) := by
  induction h with
  | balanced => exact .nil
  | opening h _ ih => exact List.pairwise_cons.mpr ⟨fun _ hi => h.lt_length hi, ih⟩

/-- The innermost open bracket is the last one. -/
theorem isLast_head (h : Opens ts (i :: is)) : IsLast (Lone ts .opening) i := by
  refine ⟨h.lone_of_mem List.mem_cons_self, fun k hk => ?_⟩
  rcases List.mem_cons.mp (h.lone_iff.mp hk).2 with rfl | hk
  · exact Nat.le_refl _
  · exact Nat.le_of_lt ((List.pairwise_cons.mp h.pairwise_gt).1 k hk)

theorem isFirst_getLast (h : Opens ts is) (hi : is.getLast? = some i) : IsFirst (Lone ts .opening) i := by
  obtain ⟨js, rfl⟩ := List.getLast?_eq_some_iff.mp hi
  refine ⟨h.lone_of_mem (by simp), fun k hk => ?_⟩
  rcases List.mem_append.mp (h.lone_iff.mp hk).2 with hk | hk
  · exact Nat.le_of_lt ((List.pairwise_append.mp h.pairwise_gt).2.2 k hk i (by simp))
  · exact Nat.le_of_eq (List.mem_singleton.mp hk).symm

end Opens

/-- A closing bracket behind balanced tokens is the first one without a partner. -/
theorem Balanced.isFirst_closing {pre : List (Token α)} (hb : Balanced pre) (post : List (Token α)) :
    IsFirst (Lone (pre ++ .closing :: post) .closing) pre.length := by
  have hclose : (pre ++ Token.closing :: post)[pre.length]? = some .closing := by simp
  have inside : ∀ {i b}, i < pre.length → (pre ++ Token.closing :: post)[i]? = some (.bracket b) →
      pre[i]? = some (.bracket b) := by
    intro i b hi h
    rw [List.getElem?_append_left hi] at h
    exact h
  refine ⟨⟨hclose, ?_⟩, ?_⟩
  · rintro ⟨i, hp | hp⟩
    · cases hclose.symm.trans hp.2.1
    · have hopen := inside hp.1 hp.2.1
      obtain ⟨j, hj⟩ := (hb.partnered hopen).of_opening hopen
      have hlt := (List.getElem?_eq_some_iff.mp hj.2.2.1).1
      have he := hp.unique (hj.append _)
      omega
  · intro i hi
    refine Nat.le_of_not_lt fun hlt => hi.2 ?_
    exact (hb.partnered (inside hlt hi.1)).append _

end TapeMachine
