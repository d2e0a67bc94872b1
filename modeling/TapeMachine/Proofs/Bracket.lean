import TapeMachine.Partner

namespace TapeMachine

variable {α β : Type}

/-- Whether the tokens close `depth` open loops and every loop that they open. -/
def closes : Nat → List (Token α) → Bool
  | depth, [] => depth == 0
  | depth, .op _ :: ts => closes depth ts
  | depth, .opening :: ts => closes (depth + 1) ts
  | 0, .closing :: _ => false
  | depth + 1, .closing :: ts => closes depth ts

theorem Balanced.closes_append {xs : List (Token α)} (h : Balanced xs) (depth : Nat)
    (ys : List (Token α)) : closes depth (xs ++ ys) = closes depth ys := by
  induction h generalizing depth ys with
  | nil => rfl
  | op a _ ih => simpa [closes] using ih depth ys
  | loop _ _ ihb ihr =>
    simp only [List.append_assoc, List.cons_append, closes]
    rw [ihb, closes, ihr]

theorem split_of_closes (ts : List (Token α)) :
    (closes 0 ts = true → Balanced ts) ∧
      ∀ depth, closes (depth + 1) ts = true →
        ∃ body rest, Balanced body ∧ ts = body ++ .closing :: rest ∧ closes depth rest = true := by
  match ts with
  | [] => exact ⟨fun _ => .nil, fun _ h => by simp [closes] at h⟩
  | .op a :: ts =>
    obtain ⟨hzero, hsucc⟩ := split_of_closes ts
    refine ⟨fun h => .op a (hzero h), ?_⟩
    intro depth h
    obtain ⟨body, rest, hb, rfl, hr⟩ := hsucc depth h
    exact ⟨.op a :: body, rest, .op a hb, rfl, hr⟩
  | .closing :: ts =>
    exact ⟨fun h => by simp [closes] at h, fun depth h => ⟨[], ts, .nil, rfl, h⟩⟩
  | .opening :: ts =>
    have hsucc := (split_of_closes ts).2
    constructor
    · intro h
      obtain ⟨body, rest, hb, rfl, hr⟩ := hsucc 0 h
      exact .loop hb ((split_of_closes rest).1 hr)
    · intro depth h
      obtain ⟨body, rest, hb, rfl, hr⟩ := hsucc (depth + 1) h
      obtain ⟨body', rest', hb', rfl, hr'⟩ := (split_of_closes rest).2 depth hr
      exact ⟨_, rest', .loop hb hb', by simp, hr'⟩
termination_by ts.length
decreasing_by all_goals subst_vars; simp; try omega

theorem balanced_iff_closes {ts : List (Token α)} : Balanced ts ↔ closes 0 ts = true := by
  constructor
  · intro h
    have happ := h.closes_append 0 []
    rw [List.append_nil] at happ
    exact happ
  · exact (split_of_closes ts).1

instance (ts : List (Token α)) : Decidable (Balanced ts) :=
  decidable_of_iff _ balanced_iff_closes.symm

theorem Balanced.append_closing_inj {xs ys us vs : List (Token α)} (hx : Balanced xs)
    (hy : Balanced ys) (h : xs ++ .closing :: us = ys ++ .closing :: vs) : xs = ys ∧ us = vs := by
  have extra : ∀ {xs zs : List (Token α)}, Balanced xs → Balanced (xs ++ .closing :: zs) → False := by
    intro xs zs hx hz
    rw [balanced_iff_closes, hx.closes_append] at hz
    simp [closes] at hz
  rcases List.append_eq_append_iff.mp h with ⟨zs, rfl, hz⟩ | ⟨zs, rfl, hz⟩
  · cases zs with
    | nil => simpa using hz
    | cons z zs =>
      obtain ⟨rfl, _⟩ := List.cons_eq_cons.mp hz
      exact (extra hx hy).elim
  · cases zs with
    | nil => simpa [eq_comm] using hz
    | cons z zs =>
      obtain ⟨rfl, _⟩ := List.cons_eq_cons.mp hz
      exact (extra hy hx).elim

/-- Partners split the list: what is before, between and behind them. -/
theorem partners_iff {ts : List (Token α)} {i j : Nat} :
    Partners ts i j ↔ ∃ pre body post, ts = pre ++ .opening :: (body ++ .closing :: post) ∧
      Balanced body ∧ pre.length = i ∧ i + body.length + 1 = j := by
  constructor
  · intro h
    obtain ⟨hlt, hi, hj, hb⟩ := h
    obtain ⟨hil, hie⟩ := List.getElem?_eq_some_iff.mp hi
    obtain ⟨hjl, hje⟩ := List.getElem?_eq_some_iff.mp hj
    refine ⟨ts.take i, _, ts.drop (j + 1), ?_, hb, ?_, ?_⟩
    · have hinner : ts.drop (i + 1) = (ts.drop (i + 1)).take (j - i - 1) ++ .closing :: ts.drop (j + 1) := by
        have hj' : ts.drop j = .closing :: ts.drop (j + 1) := by rw [List.drop_eq_getElem_cons hjl, hje]
        rw [← hj']
        have hd : ts.drop j = (ts.drop (i + 1)).drop (j - i - 1) := by
          rw [List.drop_drop]; congr 1; omega
        rw [hd, List.take_append_drop]
      rw [← hinner, ← hie, ← List.drop_eq_getElem_cons hil, List.take_append_drop]
    · simp only [List.length_take]; omega
    · simp only [List.length_take, List.length_drop]; omega
  · intro h
    obtain ⟨pre, body, post, rfl, hb, rfl, rfl⟩ := h
    refine ⟨by omega, by simp, ?_, ?_⟩
    · rw [List.getElem?_append_right (by omega)]
      simp [show pre.length + body.length + 1 - pre.length = body.length + 1 by omega]
    · have hd : (pre ++ Token.opening :: (body ++ .closing :: post)).drop (pre.length + 1) =
          body ++ .closing :: post := by
        rw [← List.drop_drop, List.drop_left]; rfl
      rw [hd, show pre.length + body.length + 1 - pre.length - 1 = body.length by omega, List.take_left]
      exact hb

theorem Partners.unique {ts : List (Token α)} {i j k : Nat} (hj : Partners ts i j)
    (hk : Partners ts i k) : j = k := by
  obtain ⟨pre, body, post, rfl, hb, rfl, rfl⟩ := partners_iff.mp hj
  obtain ⟨pre', body', post', he, hb', hl, rfl⟩ := partners_iff.mp hk
  obtain ⟨-, hrest⟩ := List.append_inj he hl.symm
  obtain ⟨rfl, -⟩ := hb.append_closing_inj hb' (List.cons.inj hrest).2
  rfl

theorem getElem?_of_drop_eq_cons {ts rest : List β} {i : Nat} {t : β}
    (h : ts.drop i = t :: rest) : ts[i]? = some t ∧ ts.drop (i + 1) = rest := by
  constructor
  · rw [← List.head?_drop, h]; rfl
  · rw [← List.drop_drop, h]; rfl

/-- A loop at index `i`: its body, its closing bracket and what is behind it. -/
theorem loop_of_drop {ts body post : List (Token α)} {i : Nat} (hb : Balanced body)
    (h : ts.drop i = .opening :: (body ++ .closing :: post)) :
    ts.drop (i + 1) = body ++ .closing :: post ∧ ts.drop (i + body.length + 2) = post ∧
      Partners ts i (i + body.length + 1) := by
  have hbody := (getElem?_of_drop_eq_cons h).2
  have hclose : ts.drop (i + 1 + body.length) = .closing :: post := by
    rw [← List.drop_drop, hbody, List.drop_left]
  have hrest := (getElem?_of_drop_eq_cons hclose).2
  have hlen : i ≤ ts.length := by
    have hl := congrArg List.length h
    simp only [List.length_drop, List.length_cons] at hl
    omega
  refine ⟨hbody, by rw [← hrest]; congr 1; omega, partners_iff.mpr ?_⟩
  refine ⟨ts.take i, body, post, ?_, hb, ?_, by omega⟩
  · rw [← h, List.take_append_drop]
  · rw [List.length_take]; omega

theorem scanForward_eq {ts : List (Token α)} {depth i : Nat} :
    scanForward ts.toArray depth i =
      match ts[i]? with
      | none => none
      | some (.op _) => scanForward ts.toArray depth (i + 1)
      | some .opening => scanForward ts.toArray (depth + 1) (i + 1)
      | some .closing =>
        match depth with
        | 0 => some i
        | depth + 1 => scanForward ts.toArray depth (i + 1) := by
  rw [scanForward.eq_def]
  by_cases h : i < ts.length
  · simp only [List.size_toArray, h, ↓reduceDIte, List.getElem_toArray, List.getElem?_eq_getElem]
    cases ts[i] with
    | op a => rfl
    | bracket b => cases b <;> rfl
  · simp [h]

theorem scanBackward_succ {ts : List (Token α)} {depth i : Nat} {t : Token α}
    (h : ts[i]? = some t) :
    scanBackward ts.toArray depth (i + 1) =
      match t with
      | .op _ => scanBackward ts.toArray depth i
      | .closing => scanBackward ts.toArray (depth + 1) i
      | .opening =>
        match depth with
        | 0 => some i
        | depth + 1 => scanBackward ts.toArray depth i := by
  rw [scanBackward.eq_def]
  simp only [List.getElem?_toArray, h]
  cases t with
  | op a => rfl
  | bracket b => cases b <;> rfl

theorem Balanced.scanForward {body : List (Token α)} (hb : Balanced body) {ts rest : List (Token α)}
    {i : Nat} (depth : Nat) (h : ts.drop i = body ++ rest) :
    TapeMachine.scanForward ts.toArray depth i =
      TapeMachine.scanForward ts.toArray depth (i + body.length) := by
  induction hb generalizing i depth rest with
  | nil => rfl
  | op a _ ih =>
    obtain ⟨hi, ht⟩ := getElem?_of_drop_eq_cons h
    rw [scanForward_eq, hi]
    simpa [Nat.add_assoc, Nat.add_comm 1] using ih depth ht
  | @loop b r _ _ ihb ihr =>
    simp only [List.append_assoc, List.cons_append] at h
    obtain ⟨hi, ht⟩ := getElem?_of_drop_eq_cons h
    have hc : ts.drop (i + 1 + b.length) = .closing :: (r ++ rest) := by
      rw [← List.drop_drop, ht, List.drop_left]
    obtain ⟨hj, hr⟩ := getElem?_of_drop_eq_cons hc
    rw [scanForward_eq, hi]
    simp only
    rw [ihb (depth + 1) ht, scanForward_eq, hj]
    simp only
    rw [ihr depth hr]
    congr 1
    simp only [List.length_append, List.length_cons]
    omega

theorem Balanced.scanBackward {body : List (Token α)} (hb : Balanced body) {ts rest : List (Token α)}
    {i : Nat} (depth : Nat) (h : ts.drop i = body ++ rest) :
    TapeMachine.scanBackward ts.toArray depth (i + body.length) =
      TapeMachine.scanBackward ts.toArray depth i := by
  induction hb generalizing i depth rest with
  | nil => rfl
  | op a _ ih =>
    obtain ⟨hi, ht⟩ := getElem?_of_drop_eq_cons h
    have hstep := ih depth ht
    rw [scanBackward_succ hi] at hstep
    simpa [Nat.add_assoc, Nat.add_comm 1] using hstep
  | @loop b r _ _ ihb ihr =>
    simp only [List.append_assoc, List.cons_append] at h
    obtain ⟨hi, ht⟩ := getElem?_of_drop_eq_cons h
    have hc : ts.drop (i + 1 + b.length) = .closing :: (r ++ rest) := by
      rw [← List.drop_drop, ht, List.drop_left]
    obtain ⟨hj, hr⟩ := getElem?_of_drop_eq_cons hc
    have hlen : i + (Token.opening :: b ++ .closing :: r).length = i + 1 + b.length + 1 + r.length := by
      simp only [List.length_append, List.length_cons]
      omega
    rw [hlen, ihr depth hr, scanBackward_succ hj]
    simp only
    rw [ihb (depth + 1) ht, scanBackward_succ hi]

theorem Partners.closingOf_eq {ts : List (Token α)} {i j : Nat} (h : Partners ts i j) :
    closingOf ts.toArray i = some j := by
  obtain ⟨pre, body, post, rfl, hb, rfl, rfl⟩ := partners_iff.mp h
  have hd : (pre ++ Token.opening :: (body ++ .closing :: post)).drop (pre.length + 1) =
      body ++ .closing :: post := by
    rw [← List.drop_drop, List.drop_left]; rfl
  have hj := h.2.2.1
  rw [Nat.add_right_comm] at hj ⊢
  rw [closingOf, hb.scanForward 0 hd, scanForward_eq, hj]

theorem Partners.openingOf_eq {ts : List (Token α)} {i j : Nat} (h : Partners ts i j) :
    openingOf ts.toArray j = some i := by
  obtain ⟨pre, body, post, rfl, hb, rfl, rfl⟩ := partners_iff.mp h
  have hd : (pre ++ Token.opening :: (body ++ .closing :: post)).drop (pre.length + 1) =
      body ++ .closing :: post := by
    rw [← List.drop_drop, List.drop_left]; rfl
  rw [Nat.add_right_comm, openingOf, hb.scanBackward 0 hd, scanBackward_succ h.2.1]

theorem closes_map (f : α → β) (ts : List (Token α)) (depth : Nat) :
    closes depth (ts.map (Token.map f)) = closes depth ts := by
  induction ts generalizing depth with
  | nil => rfl
  | cons t ts ih =>
    match t with
    | .op a => exact ih depth
    | .opening => exact ih (depth + 1)
    | .closing =>
      cases depth with
      | zero => rfl
      | succ depth => exact ih depth

theorem balanced_map (f : α → β) (ts : List (Token α)) :
    Balanced (ts.map (Token.map f)) ↔ Balanced ts := by
  rw [balanced_iff_closes, balanced_iff_closes, closes_map]

theorem getElem?_map_eq_bracket (f : α → β) {ts : List (Token α)} {i : Nat} {b : Bracket} :
    (ts.map (Token.map f))[i]? = some (.bracket b) ↔ ts[i]? = some (.bracket b) := by
  rw [List.getElem?_map]
  cases ts[i]? with
  | none => simp
  | some t => cases t <;> simp [Token.map]

theorem partners_map (f : α → β) {ts : List (Token α)} {i j : Nat} :
    Partners (ts.map (Token.map f)) i j ↔ Partners ts i j := by
  rw [Partners, Partners, getElem?_map_eq_bracket, getElem?_map_eq_bracket, ← List.map_drop, ← List.map_take,
    balanced_map]

end TapeMachine
