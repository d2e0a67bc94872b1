import TapeMachine.Counted

namespace TapeMachine

variable {α β : Type}

/-- Runs that are not empty and that cannot be joined with their neighbours. -/
inductive Canonical : List (Token (Counted α)) → Prop where
  | nil : Canonical []
  | bracket (b : Bracket) {rs : List (Token (Counted α))} : Canonical rs → Canonical (.bracket b :: rs)
  | run {r : Counted α} {rs : List (Token (Counted α))} :
      0 < r.count → (∀ n, rs.head? ≠ some (.op ⟨r.op, n⟩)) → Canonical rs → Canonical (.op r :: rs)

section Fold

variable [DecidableEq α]

/-- What is put behind `done` is canonical, and it begins with the run that had begun. -/
theorem exists_canonical_of_foldOnto (done : Array (Token (Counted α))) (run : Option (Counted α))
    (hrun : ∀ r, run = some r → 0 < r.count) (ts : List (Token α)) :
    ∃ rs, (foldOnto done run ts).toList = done.toList ++ rs ∧ Canonical rs ∧
      ∀ r, run = some r → ∃ n, rs.head? = some (.op ⟨r.op, n⟩) := by
  have one : ∀ (a : α) r, some (⟨a, 1⟩ : Counted α) = some r → 0 < r.count := by
    intro a r h
    obtain ⟨⟩ := h
    exact Nat.one_pos
  fun_induction foldOnto done run ts with
  | case1 => exact ⟨[], by simp, .nil, fun _ h => by cases h⟩
  | case2 done r =>
    refine ⟨[.op r], by simp, .run (hrun r rfl) (fun _ h => by cases h) .nil, ?_⟩
    rintro _ ⟨⟩
    exact ⟨r.count, rfl⟩
  | case3 done a ts ih =>
    obtain ⟨rs, heq, hrs, -⟩ := ih (one a)
    exact ⟨rs, heq, hrs, fun _ h => by cases h⟩
  | case4 done r ts ih =>
    obtain ⟨rs, heq, hrs, hhead⟩ := ih (by rintro _ ⟨⟩; exact Nat.succ_pos _)
    refine ⟨rs, heq, hrs, ?_⟩
    rintro _ ⟨⟩
    exact hhead ⟨r.op, r.count + 1⟩ rfl
  | case5 done r a ts hne ih =>
    obtain ⟨rs, heq, hrs, hhead⟩ := ih (one a)
    obtain ⟨n, hn⟩ := hhead _ rfl
    refine ⟨.op r :: rs, by rw [heq]; simp, .run (hrun r rfl) ?_ hrs, ?_⟩
    · intro m hm
      rw [hn] at hm
      cases hm
      exact hne rfl
    · rintro _ ⟨⟩
      exact ⟨r.count, rfl⟩
  | case6 done b ts ih =>
    obtain ⟨rs, heq, hrs, -⟩ := ih fun _ h => by cases h
    exact ⟨.bracket b :: rs, by rw [heq]; simp, .bracket b hrs, fun _ h => by cases h⟩
  | case7 done r b ts ih =>
    obtain ⟨rs, heq, hrs, -⟩ := ih fun _ h => by cases h
    refine ⟨.op r :: .bracket b :: rs, by rw [heq]; simp, ?_, ?_⟩
    · exact .run (hrun r rfl) (fun _ h => by cases h) (.bracket b hrs)
    · rintro _ ⟨⟩
      exact ⟨r.count, rfl⟩

theorem canonical_foldRuns (ts : List (Token α)) : Canonical (foldRuns ts) := by
  obtain ⟨rs, heq, hrs, -⟩ := exists_canonical_of_foldOnto #[] none (fun _ h => by cases h) ts
  rw [List.nil_append] at heq
  rw [foldRuns, heq]
  exact hrs

end Fold

theorem replicate_infix_append_cases {s t : β} {n m : Nat} {rest : List β}
    (h : List.replicate n t <:+: List.replicate m s ++ rest) (hn : 0 < n) (hrest : rest.head? ≠ some s) :
    (t = s ∧ n ≤ m) ∨ List.replicate n t <:+: rest := by
  rcases List.infix_append_iff.mp h with hrun | hrest | ⟨xs, ys, hsplit, hxs, hys⟩
  · obtain ⟨hle, heq⟩ := List.infix_replicate_iff.mp hrun
    rw [List.length_replicate] at hle heq
    exact .inl ⟨(List.replicate_inj.mp heq).2.resolve_left (Nat.ne_of_gt hn), hle⟩
  · exact .inr hrest
  · have hmem : ∀ z ∈ xs ++ ys, z = t := fun z hz => List.eq_of_mem_replicate (hsplit ▸ hz)
    have hmem' : ∀ z ∈ xs, z = s := fun z hz => List.eq_of_mem_replicate (hxs.subset hz)
    have hlen : n = xs.length + ys.length := by
      rw [← List.length_append, ← hsplit, List.length_replicate]
    cases xs with
    | nil =>
      rw [hsplit]
      exact .inr hys.isInfix
    | cons x xs =>
      have hts : t = s := (hmem x List.mem_cons_self).symm.trans (hmem' x List.mem_cons_self)
      cases ys with
      | nil =>
        have hle := hxs.length_le
        rw [List.length_replicate] at hle
        rw [List.length_nil] at hlen
        exact .inl ⟨hts, by omega⟩
      | cons y ys =>
        -- what is behind the run would continue it
        obtain ⟨zs, rfl⟩ := hys
        have hy : y = t := hmem y (by simp)
        exact absurd (by rw [List.cons_append, List.head?_cons, hy, hts]) hrest

namespace Canonical

variable {rs : List (Token (Counted α))}

theorem count_pos (h : Canonical rs) {r : Counted α} (hr : .op r ∈ rs) : 0 < r.count := by
  induction h with
  | nil => cases hr
  | bracket b _ ih => exact ih (List.mem_of_ne_of_mem (by simp) hr)
  | run hpos _ _ ih =>
    rcases List.mem_cons.mp hr with heq | hr
    · cases heq
      exact hpos
    · exact ih hr

theorem op_mem_expand (h : Canonical rs) {r : Counted α} (hr : .op r ∈ rs) :
    .op r.op ∈ rs.flatMap Token.expand := by
  have hpos := h.count_pos hr
  exact List.mem_flatMap.mpr ⟨_, hr, List.mem_replicate.mpr ⟨Nat.ne_of_gt hpos, rfl⟩⟩

/-- Neighbouring runs are runs of different operations. -/
theorem op_ne (h : Canonical rs) {i : Nat} {r s : Counted α} (hr : rs[i]? = some (.op r))
    (hs : rs[i + 1]? = some (.op s)) : r.op ≠ s.op := by
  induction h generalizing i with
  | nil => cases hr
  | bracket b _ ih =>
    cases i with
    | zero => cases hr
    | succ i => exact ih hr hs
  | @run r' rs _ hhead _ ih =>
    cases i with
    | zero =>
      cases hr
      intro heq
      apply hhead s.count
      rw [List.head?_eq_getElem?, heq]
      exact hs
    | succ i => exact ih hr hs

/-- What a canonical list stands for begins like the list. -/
theorem head?_flatMap_expand (h : Canonical rs) {a : α} (ha : (rs.flatMap Token.expand).head? = some (.op a)) :
    ∃ n, rs.head? = some (.op ⟨a, n⟩) := by
  cases h with
  | nil => cases ha
  | bracket => cases ha
  | @run r rs hpos =>
    obtain ⟨m, hm⟩ := Nat.exists_eq_succ_of_ne_zero (Nat.ne_of_gt hpos)
    rw [List.flatMap_cons, Token.expand, hm, List.replicate_succ] at ha
    cases ha
    exact ⟨r.count, rfl⟩

/-- Every stretch of an operation lies in one of the runs. -/
theorem exists_run (h : Canonical rs) {a : α} {n : Nat} (hn : 0 < n)
    (hin : List.replicate n (.op a) <:+: rs.flatMap Token.expand) : ∃ m, n ≤ m ∧ .op ⟨a, m⟩ ∈ rs := by
  induction h with
  | nil =>
    rw [List.flatMap_nil, List.infix_nil, List.replicate_eq_nil_iff] at hin
    omega
  | bracket b _ ih =>
    obtain ⟨k, rfl⟩ := Nat.exists_eq_succ_of_ne_zero (Nat.ne_of_gt hn)
    rw [List.flatMap_cons, Token.expand, List.singleton_append, List.infix_cons_iff] at hin
    rcases hin with hpre | hin
    · rw [List.replicate_succ, List.cons_prefix_cons] at hpre
      cases hpre.1
    · obtain ⟨m, hle, hm⟩ := ih hin
      exact ⟨m, hle, List.mem_cons_of_mem _ hm⟩
  | @run r rs _ hhead hrs ih =>
    rw [List.flatMap_cons, Token.expand] at hin
    have hne : (rs.flatMap Token.expand).head? ≠ some (.op r.op) := by
      intro heq
      obtain ⟨m, hm⟩ := hrs.head?_flatMap_expand heq
      exact hhead m hm
    rcases replicate_infix_append_cases hin hn hne with ⟨heq, hle⟩ | hin
    · cases heq
      exact ⟨r.count, hle, List.mem_cons_self⟩
    · obtain ⟨m, hle, hm⟩ := ih hin
      exact ⟨m, hle, List.mem_cons_of_mem _ hm⟩

end Canonical

/-- The counts are bounded by what bounds the stretches of equal operations. -/
theorem count_le_iff [DecidableEq α] {ts : List (Token α)} {limit : Nat} :
    (∀ r, .op r ∈ foldRuns ts → r.count ≤ limit) ↔ ∀ a n, List.replicate n (.op a) <:+: ts → n ≤ limit := by
  constructor
  · intro h a n hin
    rcases Nat.eq_zero_or_pos n with rfl | hn
    · exact Nat.zero_le _
    · rw [← flatMap_expand_foldRuns ts] at hin
      obtain ⟨m, hle, hm⟩ := (canonical_foldRuns ts).exists_run hn hin
      exact Nat.le_trans hle (h _ hm)
  · intro h r hr
    apply h r.op
    rw [← flatMap_expand_foldRuns ts, List.flatMap_def]
    exact List.infix_of_mem_flatten (List.mem_map_of_mem hr)

end TapeMachine
