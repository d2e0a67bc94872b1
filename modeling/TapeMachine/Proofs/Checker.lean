import TapeMachine.Proofs.Emit
import TapeMachine.Proofs.Unmatched
import TapeMachine.Tree.Build

namespace TapeMachine

variable {α : Type}

/-- The places of the brackets that stay open, or that of a closing bracket which meets no open one. -/
def openPlaces (opened : List Nat) : List (Located α) → Except Nat (List Nat)
  | [] => .ok opened
  | ⟨_, .op _⟩ :: ls => openPlaces opened ls
  | ⟨p, .opening⟩ :: ls => openPlaces (p :: opened) ls
  | ⟨p, .closing⟩ :: ls =>
    match opened with
    | [] => .error p
    | _ :: opened => openPlaces opened ls

def placeAt (ls : List (Located α)) (i : Nat) : Nat :=
  (ls[i]?.map Located.place).getD 0

theorem drop_of_map_token {ls : List (Located α)} {pre rest : List (Token α)} {t : Token α}
    (h : ls.map Located.token = pre ++ t :: rest) :
    ls.drop pre.length = ⟨placeAt ls pre.length, t⟩ :: ls.drop (pre.length + 1) := by
  obtain ⟨ls₁, ls₂, rfl, rfl, h₂⟩ := List.map_eq_append_iff.mp h
  obtain ⟨l, ls₃, rfl, rfl, -⟩ := List.map_eq_cons_iff.mp h₂
  have hplace : placeAt (ls₁ ++ l :: ls₃) ls₁.length = l.place := by simp [placeAt]
  rw [List.length_map, List.drop_left, hplace, ← List.drop_drop, List.drop_left]
  rfl

/-- A checker that has read `pre` stops at the first closing bracket without a partner, or ends with the opening
brackets without a partner, whatever places it reports. -/
def Settles (pre rest : List (Token α)) (is : List Nat) : Prop :=
  (∃ i, IsFirst (Lone (pre ++ rest) .closing) i ∧ ∀ ls, ls.map Located.token = pre ++ rest →
    openPlaces (is.map (placeAt ls)) (ls.drop pre.length) = .error (placeAt ls i)) ∨
  ∃ js, Opens (pre ++ rest) js ∧ ∀ ls, ls.map Located.token = pre ++ rest →
    openPlaces (is.map (placeAt ls)) (ls.drop pre.length) = .ok (js.map (placeAt ls))

/-- One token: reading `t` changes the stack from `is` to `js`. -/
theorem Settles.cons {pre rest : List (Token α)} {t : Token α} {is js : List Nat} (h : Settles (pre ++ [t]) rest js)
    (hstep : ∀ ls, ls.map Located.token = pre ++ t :: rest → openPlaces (is.map (placeAt ls)) (ls.drop pre.length) =
      openPlaces (js.map (placeAt ls)) (ls.drop (pre.length + 1))) : Settles pre (t :: rest) is := by
  rw [Settles, List.append_assoc, List.length_append] at h
  rcases h with ⟨i, hi, hls⟩ | ⟨ks, hks, hls⟩
  · exact .inl ⟨i, hi, fun ls h => (hstep ls h).trans (hls ls h)⟩
  · exact .inr ⟨ks, hks, fun ls h => (hstep ls h).trans (hls ls h)⟩

theorem Opens.settles {pre : List (Token α)} {is : List Nat} (h : Opens pre is) (rest : List (Token α)) :
    Settles pre rest is := by
  -- on the tokens that are still to be read; the stack holds what stays open of the others
  induction rest generalizing pre is with
  | nil =>
    refine .inr ⟨is, (List.append_nil pre).symm ▸ h, fun ls hls => ?_⟩
    have hlen := congrArg List.length hls
    rw [List.length_map, List.append_nil] at hlen
    rw [List.drop_eq_nil_of_le (Nat.le_of_eq hlen)]
    rfl
  | cons t rest ih =>
    match t with
    | .op a => exact (ih (h.snoc_op a)).cons fun ls hls => by rw [drop_of_map_token hls, openPlaces]
    | .opening => exact (ih h.snoc_opening).cons fun ls hls => by rw [drop_of_map_token hls, openPlaces]; rfl
    | .closing =>
      cases is with
      | nil =>
        refine .inl ⟨pre.length, h.balanced_of_nil.isFirst_closing rest, fun ls hls => ?_⟩
        rw [drop_of_map_token hls]
        rfl
      | cons i is => exact (ih h.snoc_closing).cons fun ls hls => by rw [drop_of_map_token hls]; rfl

theorem openPlaces_cases (ts : List (Token α)) :
    (∃ i, IsFirst (Lone ts .closing) i ∧ ∀ ls, ls.map Located.token = ts →
      openPlaces [] ls = .error (placeAt ls i)) ∨
    ∃ is, Opens ts is ∧ ∀ ls, ls.map Located.token = ts → openPlaces [] ls = .ok (is.map (placeAt ls)) :=
  (Opens.balanced .nil).settles ts

/-- Tokens are balanced exactly when every bracket has a partner. -/
theorem balanced_iff_not_lone {ts : List (Token α)} : Balanced ts ↔ ∀ b i, ¬ Lone ts b i := by
  constructor
  · intro h b i hl
    exact hl.2 (h.partnered hl.1)
  · intro h
    rcases openPlaces_cases ts with ⟨i, hi, -⟩ | ⟨is, his, -⟩
    · exact absurd hi.1 (h _ _)
    · cases is with
      | nil => exact his.balanced_of_nil
      | cons i is => exact absurd his.isLast_head.1 (h _ _)

theorem openPlaces_map {β : Type} (f : α → β) (opened : List Nat) (ls : List (Located α)) :
    openPlaces opened (ls.map fun l => ⟨l.place, l.token.map f⟩) = openPlaces opened ls := by
  fun_induction openPlaces opened ls with
  | case1 => rfl
  | case2 _ _ _ _ ih => exact ih
  | case3 _ _ _ ih => exact ih
  | case4 => rfl
  | case5 _ _ _ _ ih => exact ih

/-- Tokens with the number of places before them. -/
def locate (width : α → Nat) (place : Nat) : List (Token α) → List (Located α)
  | [] => []
  | t :: ts => ⟨place, t⟩ :: locate width (place + Linker.places width t) ts

theorem map_token_locate (width : α → Nat) (place : Nat) (ts : List (Token α)) :
    (locate width place ts).map Located.token = ts := by
  induction ts generalizing place with
  | nil => rfl
  | cons t ts ih => rw [locate, List.map_cons, ih]

abbrev single : α → Nat := fun _ => 1

theorem locate_single_cons (place : Nat) (t : Token α) (ts : List (Token α)) :
    locate single place (t :: ts) = ⟨place, t⟩ :: locate single (place + 1) ts := by
  cases t <;> rfl

theorem placeAt_locate_single {ts : List (Token α)} {i : Nat} (hi : i < ts.length) (place : Nat) :
    placeAt (locate single place ts) i = place + i := by
  induction ts generalizing i place with
  | nil => cases hi
  | cons t ts ih =>
    rw [locate_single_cons]
    cases i with
    | zero => rfl
    | succ i =>
      have hin := ih (Nat.lt_of_succ_lt_succ hi) (place + 1)
      rw [placeAt, List.getElem?_cons_succ]
      rw [placeAt] at hin
      rw [hin]
      omega

section Counted

variable (opened : List Nat)

theorem openPlaces_locate_replicate (place n : Nat) (a : α) (ts : List (Token α)) :
    openPlaces opened (locate single place (List.replicate n (.op a) ++ ts)) =
      openPlaces opened (locate single (place + n) ts) := by
  induction n generalizing place with
  | zero => rfl
  | succ n ih =>
    rw [List.replicate_succ, List.cons_append, locate_single_cons, openPlaces, ih, Nat.add_assoc, Nat.add_comm 1]

/-- Operations that are counted take as many places as they are counted. -/
theorem openPlaces_locate_count (place : Nat) (ts : List (Token (Counted α))) :
    openPlaces opened (locate Counted.count place ts) =
      openPlaces opened (locate single place (ts.flatMap Token.expand)) := by
  induction ts generalizing opened place with
  | nil => rfl
  | cons t ts ih =>
    rw [List.flatMap_cons]
    match t with
    | .op r =>
      rw [Token.expand, openPlaces_locate_replicate, ← ih]
      rfl
    | .opening => exact ih (place :: opened) (place + 1)
    | .closing =>
      cases opened with
      | nil => rfl
      | cons p opened => exact ih opened (place + 1)

end Counted

section Except

variable {ε β : Type} {x : Except ε α} {f : α → β}

theorem eq_error_of_map {e : ε} (h : x.map f = .error e) : x = .error e := by
  cases x with
  | ok a => cases h
  | error e' => cases h; rfl

theorem exists_of_map_eq_ok {b : β} (h : x.map f = .ok b) : ∃ a, x = .ok a ∧ f a = b := by
  cases x with
  | ok a => cases h; exact ⟨a, rfl, rfl⟩
  | error e => cases h

end Except

section Linker

variable (width : α → Nat)

/-- The linker's open loops are those of the checker. -/
theorem Linker.map_place_pushAll (l : Linker α) (place : Nat) (ts : List (Token α)) :
    (l.pushAll width place ts).map (fun m => m.loops.map OpenLoop.place) =
      (openPlaces (l.loops.map OpenLoop.place) (locate width place ts)).mapError (Unmatched.mk .closing) := by
  induction ts generalizing l place with
  | nil => rfl
  | cons t ts ih =>
    match t with
    | .op a => exact ih (l.pushOp a) _
    | .opening => exact ih (l.openLoop place) _
    | .closing =>
      obtain ⟨code, loops⟩ := l
      cases loops with
      | nil => rfl
      | cons o loops => exact ih ⟨_, loops⟩ _

theorem Linker.finish_of_getLast? {l : Linker α} {p : Nat}
    (h : (l.loops.map OpenLoop.place).getLast? = some p) : l.finish = .error ⟨.opening, p⟩ := by
  rw [List.getLast?_map] at h
  obtain ⟨o, ho, rfl⟩ := Option.map_eq_some_iff.mp h
  simp only [finish, ho]

variable {width} {ts : List (Token α)} {p : Nat} {ps : List Nat}

theorem link_of_error (h : openPlaces [] (locate width 0 ts) = .error p) : link width ts = .error ⟨.closing, p⟩ := by
  have hpush := Linker.map_place_pushAll width Linker.empty 0 ts
  simp only [Linker.empty, List.map_nil, h] at hpush
  simp only [link, Linker.empty, eq_error_of_map hpush]

/-- Of the brackets that stay open the linker reports the outermost one. -/
theorem link_of_open (h : openPlaces [] (locate width 0 ts) = .ok ps) (hp : ps.getLast? = some p) :
    link width ts = .error ⟨.opening, p⟩ := by
  have hpush := Linker.map_place_pushAll width Linker.empty 0 ts
  simp only [Linker.empty, List.map_nil, h] at hpush
  obtain ⟨l, hl, hloops⟩ := exists_of_map_eq_ok hpush
  simp only [link, Linker.empty, hl]
  exact Linker.finish_of_getLast? (hloops ▸ hp)

end Linker

section Emitter

variable {a : Assembler} {commands : List Command} {p : Nat} {ps : List Nat}

/-- The emitter's open loops are those of the checker. -/
theorem Native.map_place_emitFrom (e : Emitter) (i : Nat) (commands : List Command) :
    (emitFrom Basic.requests e i commands).map (fun m => m.loops.map OpenLoop.place) =
      (openPlaces (e.loops.map OpenLoop.place) (locate single i commands)).mapError
        fun p => .unmatchedEmitted ⟨.closing, p⟩ := by
  induction commands generalizing e i with
  | nil => rfl
  | cons t ts ih =>
    rw [locate_single_cons]
    match t with
    | .op b =>
      obtain ⟨k, hk, hloops⟩ := Emitter.emitAll_of_encodable b.map_token_requests
        (List.forall_mem_singleton.mpr b.encodable_native) e
      rw [emitFrom]
      simp only [requestsAt, hk, ih, hloops, openPlaces]
    | .opening => exact ih (e.openLoop i) _
    | .closing =>
      obtain ⟨code, loops⟩ := e
      cases loops with
      | nil => rfl
      | cons o loops => exact ih ⟨_, loops⟩ _

theorem Native.compilePlain_of_error (ha : a.openError? = none)
    (h : openPlaces [] (locate single 0 commands) = .error p) :
    compilePlain a commands = .error (.unmatchedEmitted ⟨.closing, p⟩) := by
  have hemit := map_place_emitFrom Linker.empty 0 commands
  simp only [Linker.empty, List.map_nil, h] at hemit
  simp only [compilePlain, compile_of_opens ha, Linker.empty, eq_error_of_map hemit]

theorem Native.compilePlain_of_open (ha : a.openError? = none) (h : openPlaces [] (locate single 0 commands) = .ok ps)
    (hp : ps.getLast? = some p) : compilePlain a commands = .error (.unmatchedEmitted ⟨.opening, p⟩) := by
  have hemit := map_place_emitFrom Linker.empty 0 commands
  simp only [Linker.empty, List.map_nil, h] at hemit
  obtain ⟨e, he, hloops⟩ := exists_of_map_eq_ok hemit
  simp only [compilePlain, compile_of_opens ha, Linker.empty, he, Emitter.finish, Linker.finish_of_getLast? (hloops ▸ hp)]

end Emitter

namespace Tree

variable {ls : List (Located Op)} {p : Nat} {ps : List Nat}

theorem buildOnto_of_error {done : Tree} {outer : List Pending}
    (h : openPlaces (outer.map Pending.place) ls = .error p) : buildOnto done outer ls = .error ⟨.closing, p⟩ := by
  fun_induction buildOnto done outer ls with
  | case1 => cases h
  | case2 => cases h
  | case3 _ _ _ _ _ ih => exact ih h
  | case4 _ _ _ _ ih => exact ih h
  | case5 => cases h; rfl
  | case6 _ _ _ _ _ ih => exact ih h

/-- Of the brackets that stay open the builder reports the innermost one. -/
theorem buildOnto_of_open {done : Tree} {outer : List Pending}
    (h : openPlaces (outer.map Pending.place) ls = .ok (p :: ps)) :
    buildOnto done outer ls = .error ⟨.opening, p⟩ := by
  fun_induction buildOnto done outer ls with
  | case1 => cases h
  | case2 => cases h; rfl
  | case3 _ _ _ _ _ ih => exact ih h
  | case4 _ _ _ _ ih => exact ih h
  | case5 => cases h
  | case6 _ _ _ _ _ ih => exact ih h

end Tree

namespace Source

/-- The character of command `i` lies at byte `p` of the text. -/
def CommandAt (text : String) (i p : Nat) : Prop :=
  ∃ pre c post, text.toList = pre ++ c :: post ∧ (Command.ofChar? c).isSome ∧
    (pre.filterMap Command.ofChar?).length = i ∧ (String.ofList pre).utf8ByteSize = p

theorem toList_locateOnto (found : Array (Located Basic)) (offset : Nat) (cs : List Char) :
    (locateOnto found offset cs).toList = found.toList ++ (locateOnto #[] offset cs).toList := by
  induction cs generalizing found offset with
  | nil => simp [locateOnto]
  | cons c cs ih =>
    rw [locateOnto, locateOnto]
    cases Command.ofChar? c with
    | none => exact ih _ _
    | some k =>
      simp only
      rw [ih (found.push _), ih (Array.push #[] _)]
      simp

theorem getElem?_locateOnto {cs : List Char} {offset i : Nat} {l : Located Basic}
    (h : (locateOnto #[] offset cs).toList[i]? = some l) :
    ∃ pre c post, cs = pre ++ c :: post ∧ (Command.ofChar? c).isSome ∧
      (pre.filterMap Command.ofChar?).length = i ∧ offset + (String.ofList pre).utf8ByteSize = l.place := by
  induction cs generalizing offset i with
  | nil => simp [locateOnto] at h
  | cons c cs ih =>
    have behind : ∀ {j}, (locateOnto #[] (offset + c.utf8Size) cs).toList[j]? = some l →
        ∃ pre x post, c :: cs = c :: pre ++ x :: post ∧ (Command.ofChar? x).isSome ∧
          (pre.filterMap Command.ofChar?).length = j ∧ offset + (String.ofList (c :: pre)).utf8ByteSize = l.place := by
      intro j hj
      obtain ⟨pre, x, post, rfl, hx, hlen, hp⟩ := ih hj
      refine ⟨pre, x, post, rfl, hx, hlen, ?_⟩
      rw [← hp, ← List.singleton_append, String.ofList_append, String.utf8ByteSize_append]
      simp [Nat.add_assoc]
    rw [locateOnto] at h
    cases hc : Command.ofChar? c with
    | none =>
      simp only [hc] at h
      obtain ⟨pre, x, post, he, hx, hlen, hp⟩ := behind h
      exact ⟨c :: pre, x, post, he, hx, by simp [hc, hlen], hp⟩
    | some k =>
      simp only [hc] at h
      rw [toList_locateOnto] at h
      cases i with
      | zero =>
        cases h
        exact ⟨[], c, cs, rfl, by simp [hc], rfl, by simp⟩
      | succ i =>
        obtain ⟨pre, x, post, he, hx, hlen, hp⟩ := behind h
        exact ⟨c :: pre, x, post, he, hx, by simp [hc, hlen], hp⟩

theorem commandAt_placeAt {text : String} {i : Nat} (hi : i < (commands text).length) :
    CommandAt text i (placeAt (located text) i) := by
  rw [← map_token_located, List.length_map] at hi
  have hl : (located text)[i]? = some (located text)[i] := List.getElem?_eq_getElem hi
  obtain ⟨pre, c, post, he, hc, hlen, hp⟩ := getElem?_locateOnto hl
  rw [Nat.zero_add] at hp
  exact ⟨pre, c, post, he, hc, hlen, by rw [placeAt, hl, hp]; rfl⟩

end Source

end TapeMachine
