import TapeMachine.Proofs.Lockstep
import TapeMachine.Proofs.Nesting

namespace TapeMachine

section Scans

variable {α : Type} {ts : List (Token α)} {i j : Nat}

/-- Balanced tokens may be left out. -/
theorem Balanced.closes_insert {body : List (Token α)} (hb : Balanced body) (xs ys : List (Token α)) (depth : Nat) :
    closes depth (xs ++ (body ++ ys)) = closes depth (xs ++ ys) := by
  induction xs generalizing depth with
  | nil => exact hb.closes_append depth ys
  | cons x xs ih =>
    match x with
    | .op a => exact ih depth
    | .opening => exact ih (depth + 1)
    | .closing =>
      cases depth with
      | zero => rfl
      | succ depth => exact ih depth

/-- What a scan forward has passed closes the loops that it was inside of. -/
theorem exists_of_scanForward {code : Array (Token α)} {depth : Nat} (h : scanForward code depth i = some j) :
    ∃ mid post, code.toList.drop i = mid ++ .closing :: post ∧ closes depth mid = true ∧ i + mid.length = j := by
  have pass : ∀ {i : Nat} {t : Token α} {mid post : List (Token α)} (hi : i < code.size), code[i] = t →
      code.toList.drop (i + 1) = mid ++ post → code.toList.drop i = t :: mid ++ post := by
    intro i t mid post hi ht hdrop
    rw [List.cons_append, ← hdrop, ← ht]
    exact List.drop_eq_getElem_cons hi
  fun_induction scanForward code depth i with
  | case1 depth i hlt a hi ih =>
    obtain ⟨mid, post, hdrop, hmid, hlen⟩ := ih h
    exact ⟨.op a :: mid, post, pass hlt hi hdrop, hmid, by rw [List.length_cons]; omega⟩
  | case2 depth i hlt hi ih =>
    obtain ⟨mid, post, hdrop, hmid, hlen⟩ := ih h
    exact ⟨.opening :: mid, post, pass hlt hi hdrop, hmid, by rw [List.length_cons]; omega⟩
  | case3 i hlt hi =>
    cases h
    exact ⟨[], _, pass hlt hi (List.nil_append _).symm, rfl, rfl⟩
  | case4 i hlt hi depth ih =>
    obtain ⟨mid, post, hdrop, hmid, hlen⟩ := ih h
    exact ⟨.closing :: mid, post, pass hlt hi hdrop, hmid, by rw [List.length_cons]; omega⟩
  | case5 => cases h

/-- What a scan backward has passed opens the loops that it was inside of: with as many closing brackets behind it, it is
balanced. -/
theorem exists_of_scanBackward {code : Array (Token α)} {depth : Nat} (h : scanBackward code depth j = some i) :
    ∃ pre mid, code.toList.take j = pre ++ .opening :: mid ∧
      closes 0 (mid ++ List.replicate depth .closing) = true ∧ pre.length = i := by
  have pass : ∀ {j : Nat} {t : Token α} {pre mid : List (Token α)}, code[j]? = some t →
      code.toList.take j = pre ++ .opening :: mid → code.toList.take (j + 1) = pre ++ .opening :: (mid ++ [t]) := by
    intro j t pre mid ht htake
    rw [List.take_add_one, Array.getElem?_toList, ht, htake, List.append_assoc]
    rfl
  fun_induction scanBackward code depth j with
  | case1 => cases h
  | case2 depth j hj ih =>
    obtain ⟨pre, mid, htake, hmid, hlen⟩ := ih h
    refine ⟨pre, mid ++ [.closing], pass hj htake, ?_, hlen⟩
    rw [List.append_assoc]
    exact hmid
  | case3 k hj =>
    cases h
    have hlt : i < code.size := (Array.getElem?_eq_some_iff.mp hj).1
    refine ⟨code.toList.take i, [], ?_, rfl, ?_⟩
    · rw [List.take_add_one, Array.getElem?_toList, hj]
      rfl
    · rw [List.length_take, Array.length_toList]
      omega
  | case4 j hj depth ih =>
    obtain ⟨pre, mid, htake, hmid, hlen⟩ := ih h
    refine ⟨pre, mid ++ [.opening], pass hj htake, ?_, hlen⟩
    have hloop := (Balanced.loop (α := α) .nil .nil).closes_insert mid (List.replicate depth .closing) 0
    rw [List.append_assoc]
    exact hloop.trans hmid
  | case5 depth j hclosing hopening ih =>
    obtain ⟨pre, mid, htake, hmid, hlen⟩ := ih h
    cases ht : code[j]? with
    | none =>
      have hle : code.toList.length ≤ j := Array.getElem?_eq_none_iff.mp ht
      refine ⟨pre, mid, ?_, hmid, hlen⟩
      rw [List.take_of_length_le (Nat.le_succ_of_le hle), ← htake, List.take_of_length_le hle]
    | some t =>
      cases t with
      | op a =>
        refine ⟨pre, mid ++ [.op a], pass ht htake, ?_, hlen⟩
        have hop := (Balanced.op a .nil).closes_insert mid (List.replicate depth .closing) 0
        rw [List.append_assoc]
        exact hop.trans hmid
      | bracket b =>
        cases b with
        | opening => exact absurd ht hopening
        | closing => exact absurd ht hclosing

theorem closingOf_eq_some_iff (hi : ts[i]? = some .opening) : closingOf ts.toArray i = some j ↔ Partners ts i j := by
  refine ⟨fun h => ?_, Partners.closingOf_eq⟩
  obtain ⟨body, post, hdrop, hbody, hlen⟩ := exists_of_scanForward h
  obtain ⟨hlt, he⟩ := List.getElem?_eq_some_iff.mp hi
  have hloop : ts.drop i = .opening :: (body ++ .closing :: post) := by
    rw [List.drop_eq_getElem_cons hlt, he, hdrop]
  have hp := (loop_of_drop (balanced_iff_closes.mpr hbody) hloop).2.2
  rwa [show i + body.length + 1 = j by omega] at hp

theorem openingOf_eq_some_iff (hj : ts[j]? = some .closing) : openingOf ts.toArray j = some i ↔ Partners ts i j := by
  refine ⟨fun h => ?_, Partners.openingOf_eq⟩
  obtain ⟨pre, body, htake, hbody, hlen⟩ := exists_of_scanBackward h
  obtain ⟨hlt, he⟩ := List.getElem?_eq_some_iff.mp hj
  rw [List.replicate_zero, List.append_nil] at hbody
  have hts : ts = ts.take j ++ .closing :: ts.drop (j + 1) := by
    rw [← he, ← List.drop_eq_getElem_cons hlt, List.take_append_drop]
  have hsize := congrArg List.length htake
  rw [List.length_take, List.length_append, List.length_cons, Array.length_toList, List.size_toArray] at hsize
  refine partners_iff.mpr ⟨pre, body, ts.drop (j + 1), ?_, balanced_iff_closes.mpr hbody, hlen, by omega⟩
  rw [htake, List.append_assoc, List.cons_append] at hts
  exact hts

end Scans

theorem Search.ofPartner_eq_found {o : Option Nat} {n : Nat} : ofPartner o = found n ↔ o = some n := by
  cases o <;> simp [ofPartner]

theorem Search.ofPartner_eq_absent {o : Option Nat} : ofPartner o = absent ↔ o = none := by
  cases o <;> simp [ofPartner]

theorem Search.ofPartner_ne_underflow (o : Option Nat) : ofPartner o ≠ underflow := by
  cases o <;> simp [ofPartner]

/-- The jump of a bracket is taken. -/
def Bracket.Taken : Bracket → Tape → Prop
  | opening, t => t.current = 0
  | closing, t => t.current ≠ 0

/-- The search from the bracket `b` at index `k` finds the index that `partner` holds of. If there is no such index the
search ends without a result, and the jump of the bracket, once it is taken, fails with the bracket's index. -/
structure Finds (cs : List Command) (b : Bracket) (k : Nat) (partner : Nat → Prop) (search : Search) : Prop where
  found : ∀ n, search = .found n ↔ partner n
  absent : search = .absent ↔ ¬ ∃ n, partner n
  counted : search ≠ .underflow
  jumps : ∀ {t : Tape}, b.Taken t → ∀ n, Scanning.step cs.toArray ⟨k, t⟩ = .resume ⟨n + 1, t⟩ ↔ partner n
  refused : ∀ {t : Tape}, b.Taken t →
    (Scanning.step cs.toArray ⟨k, t⟩ = .halt ⟨k, t⟩ (.failed (.unmatchedCommand ⟨b, k⟩)) ↔ ¬ ∃ n, partner n)

section Commands

variable {cs : List Command} {b : Bracket} {i j k : Nat}

theorem finds_of_jump {o : Option Nat} {partner : Nat → Prop} (hpartner : ∀ n, o = some n ↔ partner n)
    (hstep : ∀ t, b.Taken t → Scanning.step cs.toArray ⟨k, t⟩ = Scanning.jump ⟨k, t⟩ b o) :
    Finds cs b k partner (.ofPartner o) := by
  have hnone : o = none ↔ ¬ ∃ n, partner n := by
    rw [Option.eq_none_iff_forall_ne_some]
    simp only [hpartner, ne_eq, not_exists]
  refine ⟨fun n => Search.ofPartner_eq_found.trans (hpartner n), Search.ofPartner_eq_absent.trans hnone,
    Search.ofPartner_ne_underflow o, ?_, ?_⟩
  · intro t ht n
    rw [hstep t ht, ← hpartner n]
    cases o <;> simp [Scanning.jump]
  · intro t ht
    rw [hstep t ht, ← hnone]
    cases o <;> simp [Scanning.jump]

theorem finds_closing (hi : cs[i]? = some .opening) :
    Finds cs .opening i (Partners cs i) (searchForward cs.toArray 0 i) := by
  rw [searchForward_of_opening hi]
  refine finds_of_jump (fun j => closingOf_eq_some_iff hi) fun t ht => ?_
  simp only [Scanning.step, List.getElem?_toArray, hi]
  exact if_pos ht

theorem finds_opening (hj : cs[j]? = some .closing) :
    Finds cs .closing j (Partners cs · j) (searchBackward cs.toArray 0 (j + 1)) := by
  rw [searchBackward_of_closing hj]
  refine finds_of_jump (fun i => openingOf_eq_some_iff hj) fun t ht => ?_
  simp only [Scanning.step, List.getElem?_toArray, hj]
  exact if_pos ht

end Commands

/-- A table with the partner of every bracket. -/
structure Tabulates (cs : List Command) (table : Array Nat) : Prop where
  size : table.size = cs.length
  partners : ∀ {i j : Nat}, Partners cs i j → table[i]? = some j ∧ table[j]? = some i
  bracket : ∀ {i : Nat} {b : Bracket}, cs[i]? = some (.bracket b) →
    ∃ j b', cs[j]? = some (.bracket b') ∧ table[i]? = some j ∧ table[j]? = some i
  op : ∀ {i : Nat} {a : Basic}, cs[i]? = some (.op a) → table[i]? = some 0

theorem tabulates_of_links {cs : List Command} {code : Code Basic} (hb : Balanced cs) (h : Links cs code) :
    Tabulates cs (code.map Instr.destination) := by
  have hpair : ∀ {i j : Nat}, Partners cs i j →
      (code.map Instr.destination)[i]? = some j ∧ (code.map Instr.destination)[j]? = some i := by
    intro i j hp
    rw [Array.getElem?_map, Array.getElem?_map, h.opening hp, h.closing hp]
    exact ⟨rfl, rfl⟩
  refine ⟨by rw [Array.size_map, h.size], hpair, ?_, ?_⟩
  · intro i b hi
    obtain ⟨j, hp | hp⟩ := hb.partnered hi
    · exact ⟨j, .closing, hp.2.2.1, hpair hp⟩
    · exact ⟨j, .opening, hp.2.1, (hpair hp).symm⟩
  · intro i a hi
    rw [Array.getElem?_map, h.op hi]
    rfl

theorem exists_jumpTable {cs : List Command} (hb : Balanced cs) :
    ∃ table, TabledProgram.jumpTable cs = .ok table ∧ Tabulates cs table := by
  obtain ⟨code, hcode⟩ := link_of_balanced (fun _ => 1) hb
  exact ⟨code.map Instr.destination, by simp only [TabledProgram.jumpTable, hcode],
    tabulates_of_links hb (links_of_link hcode)⟩

/-- Both searches find the partners and nothing else, so that they are inverse to each other, and their counters never
fall below zero. If all brackets have partners, the table holds what the searches find. -/
theorem searches_find_partners (cs : List Command) :
    (∀ i, cs[i]? = some .opening → Finds cs .opening i (Partners cs i) (searchForward cs.toArray 0 i)) ∧
      (∀ j, cs[j]? = some .closing → Finds cs .closing j (Partners cs · j) (searchBackward cs.toArray 0 (j + 1))) ∧
      (∀ i, cs[i]? = some .opening → ∀ j, searchForward cs.toArray 0 i = .found j ↔
        cs[j]? = some .closing ∧ searchBackward cs.toArray 0 (j + 1) = .found i) ∧
      (Balanced cs → ∃ table, TabledProgram.jumpTable cs = .ok table ∧ Tabulates cs table) ∧
      ∀ k, (Failure.unmatchedCommand ⟨.opening, k⟩).message = s!"unmatched '[' at pc={k}" ∧
        (Failure.unmatchedCommand ⟨.closing, k⟩).message = s!"unmatched ']' at pc={k}" := by
  refine ⟨fun i => finds_closing, fun j => finds_opening, fun i hi j => ?_, exists_jumpTable, fun k => ⟨rfl, rfl⟩⟩
  rw [(finds_closing hi).found]
  constructor
  · intro hp
    exact ⟨hp.2.2.1, ((finds_opening hp.2.2.1).found i).mpr hp⟩
  · rintro ⟨hj, hfound⟩
    exact ((finds_opening hj).found i).mp hfound

theorem searches_find_partners_lone :
    searchForward (Source.commands "][[-]").toArray 0 2 = .found 4 ∧
      searchBackward (Source.commands "][[-]").toArray 0 5 = .found 2 ∧
      (∀ t : Tape, t.current = 0 → Scanning.step (Source.commands "][[-]").toArray ⟨1, t⟩ =
        .halt ⟨1, t⟩ (.failed (.unmatchedCommand ⟨.opening, 1⟩))) ∧
      Tabulates (Source.commands "[[-]>[-]]") #[8, 3, 0, 1, 0, 7, 0, 5, 0] := by
  obtain ⟨hforward, -, hinverse, -⟩ := searches_find_partners (Source.commands "][[-]")
  have hp : Partners (Source.commands "][[-]") 2 4 := ⟨by decide, rfl, rfl, by decide⟩
  have hfound := ((hforward 2 rfl).found 4).mpr hp
  refine ⟨hfound, ((hinverse 2 rfl 4).mp hfound).2, fun t ht => ((hforward 1 rfl).refused ht).mpr ?_, ?_⟩
  · have habsent : searchForward (Source.commands "][[-]").toArray 0 1 = .absent := by cbv
    exact (hforward 1 rfl).absent.mp habsent
  · obtain ⟨-, -, -, htable, -⟩ := searches_find_partners (Source.commands "[[-]>[-]]")
    obtain ⟨table, hok, htabulates⟩ := htable (by decide)
    have hrun : TabledProgram.jumpTable (Source.commands "[[-]>[-]]") = .ok #[8, 3, 0, 1, 0, 7, 0, 5, 0] := by
      cbv
    cases hok.symm.trans hrun
    exact htabulates

end TapeMachine
