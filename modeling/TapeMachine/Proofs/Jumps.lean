import TapeMachine.Proofs.Link
import TapeMachine.Proofs.Unmatched

namespace TapeMachine

variable {α : Type}

def Instr.token : Instr α → Token α
  | op a => .op a
  | ifZero _ => .opening
  | ifNonzero _ => .closing

def Code.tokens (code : Code α) : List (Token α) :=
  code.toList.map Instr.token

/-- Every jump and its destination hold each other, the first one of them jumps forward, and a loop that begins
inside another one ends there. -/
structure Paired (code : Code α) : Prop where
  ifZero : ∀ {i j : Nat}, code[i]? = some (.ifZero j) → i < j ∧ code[j]? = some (.ifNonzero i)
  ifNonzero : ∀ {i j : Nat}, code[j]? = some (.ifNonzero i) → i < j ∧ code[i]? = some (.ifZero j)
  nested : ∀ {i j k l : Nat}, code[i]? = some (.ifZero j) → code[k]? = some (.ifZero l) → i < k → k < j → l < j

theorem Code.getElem?_tokens (code : Code α) (i : Nat) : code.tokens[i]? = code[i]?.map Instr.token := by
  rw [Code.tokens, List.getElem?_map, Array.getElem?_toList]

section Tokens

variable {ts : List (Token α)}

theorem Partners.nested {i j k l : Nat} (h : Partners ts i j) (h' : Partners ts k l) (hik : i < k) (hkj : k < j) :
    l < j := by
  obtain ⟨pre, body, post, rfl, hb, rfl, rfl⟩ := partners_iff.mp h
  obtain ⟨n, rfl⟩ := Nat.exists_eq_add_of_lt hik
  have hn : body[n]? = some .opening := by
    have hk := h'.2.1
    rw [List.getElem?_append_right (by omega), show pre.length + n + 1 - pre.length = n + 1 by omega,
      List.getElem?_cons_succ, List.getElem?_append_left (by omega)] at hk
    exact hk
  -- The inner bracket has its partner in the body.
  obtain ⟨m, hm⟩ := (hb.partnered hn).of_opening hn
  have hlt : m < body.length := (List.getElem?_eq_some_iff.mp hm.2.2.1).1
  have hin := (hm.append (.closing :: post)).shift (pre ++ [.opening])
  rw [List.append_assoc, List.singleton_append, List.length_append, List.length_singleton,
    Nat.add_right_comm pre.length 1 n] at hin
  have hl := h'.unique hin
  omega

variable {code : Code α}

theorem Links.tokens_eq (h : Links ts code) (hb : Balanced ts) : code.tokens = ts := by
  refine List.ext_getElem? fun i => ?_
  rw [Code.getElem?_tokens]
  cases hi : ts[i]? with
  | none =>
    have hle : code.size ≤ i := by
      rw [h.size]
      exact List.getElem?_eq_none_iff.mp hi
    rw [Array.getElem?_eq_none hle]
    rfl
  | some t =>
    match t with
    | .op a => rw [h.op hi]; rfl
    | .opening =>
      obtain ⟨j, hj⟩ := (hb.partnered hi).of_opening hi
      rw [h.opening hj]
      rfl
    | .closing =>
      obtain ⟨j, hj⟩ := (hb.partnered hi).of_closing hi
      rw [h.closing hj]
      rfl

theorem Links.partners_of_ifZero (h : Links ts code) (hb : Balanced ts) {i j : Nat}
    (hi : code[i]? = some (.ifZero j)) : Partners ts i j := by
  have ht : ts[i]? = some .opening := by
    rw [← h.tokens_eq hb, Code.getElem?_tokens, hi]
    rfl
  obtain ⟨k, hk⟩ := (hb.partnered ht).of_opening ht
  cases hi.symm.trans (h.opening hk)
  exact hk

theorem Links.partners_of_ifNonzero (h : Links ts code) (hb : Balanced ts) {i j : Nat}
    (hj : code[j]? = some (.ifNonzero i)) : Partners ts i j := by
  have ht : ts[j]? = some .closing := by
    rw [← h.tokens_eq hb, Code.getElem?_tokens, hj]
    rfl
  obtain ⟨k, hk⟩ := (hb.partnered ht).of_closing ht
  cases hj.symm.trans (h.closing hk)
  exact hk

theorem Links.paired (h : Links ts code) (hb : Balanced ts) : Paired code where
  ifZero hi := by
    have hp := h.partners_of_ifZero hb hi
    exact ⟨hp.1, h.closing hp⟩
  ifNonzero hj := by
    have hp := h.partners_of_ifNonzero hb hj
    exact ⟨hp.1, h.opening hp⟩
  nested hi hk hik hkj :=
    (h.partners_of_ifZero hb hi).nested (h.partners_of_ifZero hb hk) hik hkj

end Tokens

end TapeMachine
