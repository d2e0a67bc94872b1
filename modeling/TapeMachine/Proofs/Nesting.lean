import TapeMachine.Proofs.Unmatched

namespace TapeMachine

variable {α : Type}

/-- What a search for a partner comes to. -/
inductive Search where
  | found (i : Nat)
  | absent
  /-- A bracket would be taken off a counter at zero. -/
  | underflow
  deriving DecidableEq, Repr

def Search.ofPartner : Option Nat → Search
  | some i => found i
  | none => absent

/-- From index `i` on, with `nesting` opening brackets that are not closed yet. -/
def searchForward (code : Array (Token α)) (nesting i : Nat) : Search :=
  if h : i < code.size then
    match code[i] with
    | .op _ => searchForward code nesting (i + 1)
    | .opening => searchForward code (nesting + 1) (i + 1)
    | .closing =>
      if nesting = 0 then .underflow
      else if nesting - 1 = 0 then .found i
      else searchForward code (nesting - 1) (i + 1)
  else .absent
termination_by code.size - i

/-- Through the first `i` tokens from behind, with `nesting` closing brackets that are not opened yet. -/
def searchBackward (code : Array (Token α)) (nesting : Nat) : Nat → Search
  | 0 => .absent
  | i + 1 =>
    match code[i]? with
    | some .closing => searchBackward code (nesting + 1) i
    | some .opening =>
      if nesting = 0 then .underflow
      else if nesting - 1 = 0 then .found i
      else searchBackward code (nesting - 1) i
    | _ => searchBackward code nesting i

theorem searchForward_succ (code : Array (Token α)) (depth i : Nat) :
    searchForward code (depth + 1) i = .ofPartner (scanForward code depth i) := by
  fun_induction scanForward code depth i with
  | case1 depth i h a hi ih => rw [searchForward, dif_pos h, hi]; exact ih
  | case2 depth i h hi ih => rw [searchForward, dif_pos h, hi]; exact ih
  | case3 i h hi => rw [searchForward, dif_pos h, hi]; rfl
  | case4 i h hi depth ih => rw [searchForward, dif_pos h, hi]; exact ih
  | case5 depth i h => rw [searchForward, dif_neg h]; rfl

theorem searchBackward_succ (code : Array (Token α)) (depth i : Nat) :
    searchBackward code (depth + 1) i = .ofPartner (scanBackward code depth i) := by
  fun_induction scanBackward code depth i with
  | case1 => rfl
  | case2 depth i hi ih => rw [searchBackward, hi]; exact ih
  | case3 i hi => rw [searchBackward, hi]; rfl
  | case4 i hi depth ih => rw [searchBackward, hi]; exact ih
  | case5 depth i hclosing hopening ih =>
    rw [searchBackward]
    split
    · exact absurd ‹_› hclosing
    · exact absurd ‹_› hopening
    · exact ih

/-- The search from an opening bracket counts the bracket first, and then it is the scan for the partner. -/
theorem searchForward_of_opening {ts : List (Token α)} {i : Nat} (h : ts[i]? = some .opening) :
    searchForward ts.toArray 0 i = .ofPartner (closingOf ts.toArray i) := by
  obtain ⟨hi, he⟩ := List.getElem?_eq_some_iff.mp h
  have hi' : i < ts.toArray.size := hi
  rw [searchForward, dif_pos hi', List.getElem_toArray, he]
  exact searchForward_succ ts.toArray 0 (i + 1)

theorem searchBackward_of_closing {ts : List (Token α)} {j : Nat} (h : ts[j]? = some .closing) :
    searchBackward ts.toArray 0 (j + 1) = .ofPartner (openingOf ts.toArray j) := by
  rw [searchBackward, List.getElem?_toArray, h]
  exact searchBackward_succ ts.toArray 0 j

theorem scanForward_lt {code : Array (Token α)} {depth i j : Nat} (h : scanForward code depth i = some j) :
    j < code.size := by
  fun_induction scanForward code depth i with
  | case1 _ _ _ _ _ ih => exact ih h
  | case2 _ _ _ _ ih => exact ih h
  | case3 i hi => cases h; exact hi
  | case4 _ _ _ _ ih => exact ih h
  | case5 => cases h

theorem scanBackward_lt {code : Array (Token α)} {depth i j : Nat} (h : scanBackward code depth i = some j) :
    j < i := by
  fun_induction scanBackward code depth i with
  | case1 => cases h
  | case2 _ _ _ ih => exact Nat.lt_succ_of_lt (ih h)
  | case3 => cases h; omega
  | case4 _ _ _ ih => exact Nat.lt_succ_of_lt (ih h)
  | case5 _ _ _ _ ih => exact Nat.lt_succ_of_lt (ih h)

/-- A bracket for which the scan finds nothing has no partner. -/
theorem lone_of_closingOf {ts : List (Token α)} {i : Nat} (hi : ts[i]? = some .opening)
    (h : closingOf ts.toArray i = none) : Lone ts .opening i := by
  refine ⟨hi, fun hp => ?_⟩
  obtain ⟨j, hj⟩ := hp.of_opening hi
  cases h.symm.trans hj.closingOf_eq

theorem lone_of_openingOf {ts : List (Token α)} {j : Nat} (hj : ts[j]? = some .closing)
    (h : openingOf ts.toArray j = none) : Lone ts .closing j := by
  refine ⟨hj, fun hp => ?_⟩
  obtain ⟨i, hi⟩ := hp.of_closing hj
  cases h.symm.trans hi.openingOf_eq

end TapeMachine
