import TapeMachine.Proofs.Callback
import TapeMachine.Proofs.Session

namespace TapeMachine

open Meaning Block

section Placed

variable {b : Block Op}

theorem Block.refines_placed (b : Block Op) (i j : Nat) :
    Refines (Exit.Alike Eq) Exit.none (b.meaning Op.act .nothing i) (b.meaning Op.act .nothing j) := by
  induction b generalizing i j with
  | nil => exact .skip
  | op o r ih =>
    rw [meaning, meaning]
    exact (Refines.instruction (ActAlike.idiomatic _ i j) fun _ h => h).seq (ih _ _)
  | loop b r ihb ihr =>
    rw [meaning, meaning]
    exact ((ihb _ _).rounds.watched (fun _ h => h) fun _ _ _ h => ⟨h, rfl⟩).seq (ihr _ _)

theorem Block.ended_placed {i n : Nat} {r : Runtime} {e : Ended}
    (h : seq (b.meaning Op.act .nothing i) (finish n) r (.left (.ended e))) (j m : Nat) :
    ∃ e', e.Alike Eq e' ∧ seq (b.meaning Op.act .nothing j) (finish m) r (.left (.ended e')) := by
  obtain ⟨y, hy | hy, hl⟩ := ((refines_placed b i j).seq (.finish .done n m)).left h
  · cases y with
    | met => exact hy.elim
    | ended e' => exact ⟨e', hy, hl⟩
  · exact hy.elim

/-- No operation ends a run with success. -/
theorem Block.failed_of_left {i : Nat} {r : Runtime} {e : Ended}
    (h : b.meaning Op.act .nothing i r (.left (.ended e))) : ∃ f, e.verdict = .failed f := by
  induction b generalizing i r with
  | nil => cases h
  | op o b ih =>
    cases h with
    | pass _ hb => exact ih hb
    | leave ha =>
      obtain ⟨r', hp⟩ := ha.exists_halt
      have hl := (fitsAt_op o ⟨i, r'.tape⟩).perform r'.io
      rw [hp] at hl
      obtain ⟨f, hf, -⟩ := hl
      exact ⟨f, hf⟩
  | loop b c ihb ihc =>
    cases h with
    | pass _ hc => exact ihc hc
    | leave ha =>
      cases ha with
      | run ha =>
        obtain ⟨r', hr⟩ := ha.exists_left
        exact ihb hr

theorem Block.passed_of_done {r : Runtime} {c : Config} {io : Streams}
    (h : b.Leaves Op.act .nothing r (.ended ⟨.done, c, io⟩)) :
    b.meaning Op.act .nothing 0 r (.passed ⟨c.tape, io⟩) := by
  cases h with
  | pass ha hf =>
    cases hf
    exact ha
  | leave ha =>
    obtain ⟨f, hf⟩ := failed_of_left ha
    cases hf

end Placed

/-- As many moves back as the head has come. -/
def Block.home (p : Nat) : Block Op :=
  ofOps (List.replicate p (Idiom.moveOp .backward))

/-- Behind a block that is passed and the moves back, the second block starts at the first cell. -/
theorem Block.leaves_home {a b : Block Op} {r s : Runtime} (ha : a.meaning Op.act .nothing 0 r (.passed s)) {x : Exit} :
    (a.append ((home s.tape.head).append b)).Leaves Op.act .nothing r x ↔
      seq (b.meaning Op.act .nothing (a.length + (home s.tape.head).length))
        (finish (a.append ((home s.tape.head).append b)).length) ⟨s.tape.rewind, s.io⟩ (.left x) := by
  have hhome : ∀ i, (home s.tape.head).meaning Op.act .nothing i s (.passed ⟨s.tape.rewind, s.io⟩) :=
    fun i => (Does.moves .nothing .backward s.tape.head i).pass s.tape.move?_head
  rw [Leaves, meaning_append, meaning_append, seq_assoc, seq_assoc, Nat.zero_add,
    (meaning_unique a 0).seq_iff ha, (meaning_unique _ _).seq_iff (hhome _)]

namespace Ended.Alike

variable {e e' e'' : Ended}

theorem sameCells (h : e.Alike Eq e') : e.Alike Tape.SameCells e' :=
  Exit.Alike.mono (x := .ended e) (y := .ended e') (fun _ _ => congrArg Tape.cells) h

theorem symm (h : e.Alike Tape.SameCells e') : e'.Alike Tape.SameCells e :=
  Exit.Alike.symm (x := .ended e) (y := .ended e') (fun _ _ => Tape.SameCells.symm) h

theorem trans (h : e.Alike Tape.SameCells e') (h' : e'.Alike Tape.SameCells e'') : e.Alike Tape.SameCells e'' :=
  Exit.Alike.trans (x := .ended e) (y := .ended e') (z := .ended e'') h h' fun _ _ _ => Tape.SameCells.trans

end Ended.Alike

/-- The result of a run as an end. -/
def Runtime.ended (r : Runtime) (v : Verdict) : Ended where
  verdict := v
  config := ⟨0, r.tape⟩
  io := r.io

theorem Ended.alike_unplaced (e : Ended) :
    e.Alike Tape.SameCells (Runtime.ended ⟨e.config.tape, e.io⟩ e.verdict.unplaced) :=
  ⟨e.verdict.unplaced_unplaced.symm, rfl, fun _ => rfl, fun _ => rfl⟩

/-- The runs of the code end as the block is left. -/
structure Realises (code : Code Native) (b : Block Op) : Prop where
  leaves : ∀ {r r' : Runtime} {v : Verdict}, r.Runs code v r' →
    ∃ e, b.Leaves Op.act .nothing ⟨r.tape.rewind, r.io⟩ (.ended e) ∧ e.Alike Tape.SameCells (r'.ended v)
  runs : ∀ {r : Runtime} {e : Ended}, b.Leaves Op.act .nothing ⟨r.tape.rewind, r.io⟩ (.ended e) →
    ∃ v r', r.Runs code v r' ∧ e.Alike Tape.SameCells (r'.ended v)

section Text

variable {a : Assembler} {text : String} {t : Tree} (ht : Tree.ofSource text = .ok t) (ha : a.Takes text.length)

include ht ha

theorem realises_plain : ∃ code, Native.plain a text = .ok code ∧ Realises code t.block := by
  obtain ⟨code, hcode⟩ := (Native.compilePlain_isOk_iff (ha.mono (Source.length_commands_le text))).mpr
    (Tree.ofSource_isOk_iff.mp ⟨t, ht⟩)
  have hleaves : ∀ {r : Runtime} {e : Ended}, Ends (Scanning.step (Source.commands text).toArray) (.start r.tape) r.io e ↔
      t.block.Leaves Op.act .nothing ⟨r.tape.rewind, r.io⟩ (.ended e) :=
    (follows_scanning ht).ends_iff_leaves local_op .nothing
  refine ⟨code, hcode, ?_, ?_⟩
  · intro r r' v h
    obtain ⟨e, he, rfl, rfl⟩ := (Runtime.runs_plain hcode).mp h
    exact ⟨e, hleaves.mp he, e.alike_unplaced⟩
  · intro r e h
    exact ⟨_, _, (Runtime.runs_plain hcode).mpr ⟨e, hleaves.mpr h, rfl, rfl⟩, e.alike_unplaced⟩

theorem realises_optimised (hlen : text.length ≤ maxOffset) :
    ∃ code, Native.optimised a text = .ok code ∧ Realises code t.replaceIdioms.block := by
  obtain ⟨p, -, hlinks⟩ := exists_idiomatic ht
  have hb := t.balanced_lower_optimise
  have hc : ∀ o, .op o ∈ t.optimise.lower → o.Compilable := fun o => Tree.compilable_lower ht hlen
  obtain ⟨code, hsize, hall⟩ := Native.exists_optimised hlen ht
  have hcode := (Native.optimised_eq hlen ht).symm.trans (hall a (ha.mono hsize))
  have hleaves : ∀ {r : Runtime} {e : Ended}, Ends (Idiomatic.step p) (.start r.tape) r.io e ↔
      t.program.Leaves Counted.act .nothing ⟨r.tape.rewind, r.io⟩ (.ended e) :=
    (follows_idiomatic hlinks).ends_iff_leaves local_counted .nothing
  have hprogram : t.program = t.replaceIdioms.block.fold := by rw [Tree.program, Tree.optimise_eq_replaceIdioms]
  rw [hprogram] at hleaves
  refine ⟨code, hall a (ha.mono hsize), ?_, ?_⟩
  · intro r r' v h
    obtain ⟨e, he, rfl, rfl⟩ := (Runtime.runs_lowered hb hc hcode hlinks).mp h
    obtain ⟨e', hee, he'⟩ := (hleaves.mp he).ended (refines_of_fold _)
    exact ⟨e', he', hee.symm.trans e.alike_unplaced⟩
  · intro r e h
    obtain ⟨e', hee, he'⟩ := h.ended (refines_fold _)
    exact ⟨_, _, (Runtime.runs_lowered hb hc hcode hlinks).mpr ⟨e', hleaves.mpr he', rfl, rfl⟩,
      hee.trans e'.alike_unplaced⟩

end Text

/-- The results of two runs say the same. The heads stand alike too, unless one would have left the tape. -/
structure SameResult (v : Verdict) (r r' : Runtime) : Prop where
  io : r'.io = r.io
  cells : r.tape.SameCells r'.tape
  tape : ¬ v.Off → r'.tape = r.tape

theorem SameResult.of_alike {v v' : Verdict} {r r' : Runtime} (hv : v.unplaced = v) (hv' : v'.unplaced = v')
    (h : (r.ended v).Alike Tape.SameCells (r'.ended v')) : v' = v ∧ SameResult v r r' := by
  have hcells : r.tape.SameCells r'.tape := by
    by_cases ho : v.Off
    · exact h.off ho
    · exact congrArg Tape.cells (h.tape ho)
  have hverdict : v' = v := by
    rw [← hv', ← hv]
    exact h.verdict.symm
  exact ⟨hverdict, h.io.symm, hcells, fun ho => (h.tape ho).symm⟩

/-- The first code from the first runtime and the second code from the second one have the same results. -/
structure SameRuns (s : Runtime) (b : Code Native) (r : Runtime) (c : Code Native) : Prop where
  forth : ∀ {v t}, s.Runs b v t → ∃ u, r.Runs c v u ∧ SameResult v t u
  back : ∀ {v u}, r.Runs c v u → ∃ t, s.Runs b v t ∧ SameResult v t u

/-- The end of the second code is an end of its block, of the joined block and so of the joined code, and back. -/
theorem SameRuns.of_realises {a b c : Code Native} {x y : Block Op} (ha : Realises a x) (hb : Realises b y) {r s : Runtime}
    (hc : Realises c (x.append ((Block.home s.tape.head).append y))) (hrun : r.Runs a .done s) : SameRuns s b r c := by
  have hpassed : x.meaning Op.act .nothing 0 ⟨r.tape.rewind, r.io⟩ (.passed s) := by
    obtain ⟨⟨v, k, io⟩, hleaves, h⟩ := ha.leaves hrun
    obtain rfl : v = .done := Verdict.eq_done_of_unplaced h.verdict
    have hon : ¬ Verdict.done.Off := fun ho => by cases ho
    have htape : k.tape = s.tape := h.tape hon
    have hio : io = s.io := h.io
    have hpass := Block.passed_of_done hleaves
    rw [htape, hio] at hpass
    exact hpass
  constructor
  · intro v t h
    obtain ⟨e, he, het⟩ := hb.leaves h
    obtain ⟨e', hee, he'⟩ := Block.ended_placed he _ _
    obtain ⟨v', u, hu, heu⟩ := hc.runs ((Block.leaves_home hpassed).mpr he')
    obtain ⟨rfl, hsame⟩ := SameResult.of_alike h.unplaced hu.unplaced (het.symm.trans (hee.sameCells.trans heu))
    exact ⟨u, hu, hsame⟩
  · intro v u h
    obtain ⟨e, he, heu⟩ := hc.leaves h
    obtain ⟨e', hee, he'⟩ := Block.ended_placed ((Block.leaves_home hpassed).mp he) 0 y.length
    obtain ⟨v', t, ht, het⟩ := hb.runs he'
    obtain ⟨rfl, hsame⟩ := SameResult.of_alike ht.unplaced h.unplaced (het.symm.trans (hee.sameCells.symm.trans heu))
    exact ⟨t, ht, hsame⟩

def Source.joined (A : String) (p : Nat) (B : String) : String :=
  A ++ String.ofList (List.replicate p '<') ++ B

theorem Source.commands_joined (A : String) (p : Nat) (B : String) :
    commands (joined A p B) = commands A ++ (List.replicate p (.op (.move .backward)) ++ commands B) := by
  have hback : (List.replicate p '<').filterMap Command.ofChar? = List.replicate p (.op (.move .backward)) :=
    List.filterMap_replicate_of_some rfl
  simp only [commands, joined, String.toList_append, String.toList_ofList, List.filterMap_append, hback, List.append_assoc]

theorem Tree.ofSource_joined {A B : String} {a b : Tree} (ha : ofSource A = .ok a) (hb : ofSource B = .ok b) (p : Nat) :
    ofSource (Source.joined A p B) = .ok (a.append ((straight (List.replicate p (Idiom.moveOp .backward))).append b)) := by
  rw [ofSource_eq_ok_iff, Source.commands_joined, List.map_append, List.map_append, ← ofSource_eq_ok_iff.mp ha,
    ← ofSource_eq_ok_iff.mp hb, ← tokens_block, ← tokens_block, ← tokens_block]
  simp only [block_append, block_straight, tokens_append, Block.tokens_ofOps, List.map_replicate]
  rfl

/-- The compiler and the blocks that its code realises, which are put together as the texts are. -/
structure Compiles (a : Assembler) (compile : String → Except Failure (Code Native)) (block : Tree → Block Op) :
    Prop where
  realises : ∀ {text t}, Tree.ofSource text = .ok t → text.length ≤ maxOffset → a.Takes text.length →
    ∃ code, compile text = .ok code ∧ Realises code (block t)
  append : ∀ t u, block (t.append u) = (block t).append (block u)
  home : ∀ p, block (.straight (List.replicate p (Idiom.moveOp .backward))) = Block.home p
  compiled : ∀ {text code}, compile text = .ok code → Native.Compiled code

theorem compiles_plain (a : Assembler) : Compiles a (Native.plain a) Tree.block where
  realises ht _ ha := realises_plain ht ha
  append := Tree.block_append
  home _ := Tree.block_straight _
  compiled := Native.compiled_of_plain

theorem compiles_optimised (a : Assembler) : Compiles a (Native.optimised a) fun t => t.replaceIdioms.block where
  realises ht hlen ha := realises_optimised ht ha hlen
  append t u := by rw [Tree.replaceIdioms_append, Tree.block_append]
  home p := by rw [Tree.replaceIdioms_of_block_eq (Tree.block_straight _), Tree.block_straight, Block.home]
  compiled := Native.compiled_of_optimised

theorem Compiles.sameRuns {x : Assembler} {compile : String → Except Failure (Code Native)} {block : Tree → Block Op}
    (h : Compiles x compile block) {A B : String} (hA : Balanced (Source.commands A)) (hB : Balanced (Source.commands B))
    {p : Nat} (hlen : (Source.joined A p B).length ≤ maxOffset) (hx : x.Takes (Source.joined A p B).length) :
    ∃ a b c, compile A = .ok a ∧ compile B = .ok b ∧ compile (Source.joined A p B) = .ok c ∧
      ∀ r s, r.Runs a .done s → s.tape.head = p → SameRuns s b r c := by
  obtain ⟨t, ht⟩ := Tree.ofSource_isOk_iff.mpr hA
  obtain ⟨u, hu⟩ := Tree.ofSource_isOk_iff.mpr hB
  have hsum : (Source.joined A p B).length = A.length + p + B.length := by
    simp [Source.joined, String.length_append]
  obtain ⟨a, ha, hat⟩ := h.realises ht (by omega) (hx.mono (by omega))
  obtain ⟨b, hb, hbu⟩ := h.realises hu (by omega) (hx.mono (by omega))
  obtain ⟨c, hc, hcv⟩ := h.realises (Tree.ofSource_joined ht hu p) hlen hx
  rw [h.append, h.append, h.home] at hcv
  refine ⟨a, b, c, ha, hb, hc, ?_⟩
  intro r s hrun hp
  rw [← hp] at hcv
  exact .of_realises hat hbu hcv hrun

/-- If the run of a text is done with the head at cell `p`, a second text run on the runtime that it leaves has the
result of one run of both texts with `p` moves back between them: the same verdict, streams and cells, and one ends
exactly if the other does. Whatever runs came before, and however they ended, a run has the result that it has on the
tape and the streams as they were left, it reports no error but its own, and no error is kept for later runs. The assembler
takes code that is not longer than the texts. -/
theorem runs_compose {x : Assembler} {compile : String → Except Failure (Code Native)}
    (hcompile : compile = Native.plain x ∨ compile = Native.optimised x) {A B : String}
    (hA : Balanced (Source.commands A)) (hB : Balanced (Source.commands B)) {p : Nat}
    (hlen : (Source.joined A p B).length ≤ maxOffset) (hx : x.Takes (Source.joined A p B).length) :
    (∃ a b c, compile A = .ok a ∧ compile B = .ok b ∧ compile (Source.joined A p B) = .ok c ∧
      ∀ r s, r.Runs a .done s → s.tape.head = p → SameRuns s b r c) ∧
    ∀ h k : Host, h.Later k →
      (∀ text code, compile text = .ok code → k.Afresh code) ∧ (h.callbacks.slot = none → k.callbacks.slot = none) := by
  have hall : ∃ block, Compiles x compile block := by
    rcases hcompile with rfl | rfl
    · exact ⟨_, compiles_plain x⟩
    · exact ⟨_, compiles_optimised x⟩
  obtain ⟨block, h⟩ := hall
  exact ⟨h.sameRuns hA hB hlen hx, fun _ k hk => ⟨fun _ _ hcode => k.afresh (h.compiled hcode), hk.slot_eq_none⟩⟩

/-- The move that comes back and the one that leaves the tape are one instruction of the joined text. A run at the end of
the input reports that, and not the error that an earlier run left. -/
theorem runs_compose_seam :
    (∃ a c s u, Native.optimised .willing "+.>" = .ok a ∧
      Native.optimised .willing (Source.joined "+.>" 1 "<") = .ok c ∧
      (Runtime.start (.start [] {})).Runs a .done s ∧ s.tape.head = 1 ∧
      (Runtime.start (.start [] {})).Runs c (.failed (.outOfBounds none)) u ∧ u.io.written = #[1]) ∧
    ∃ code k, Native.plain .willing "," = .ok code ∧
      (Host.mk .standard .blank ⟨.start [] {}, some .flushFailed⟩).run? 9 code =
        some (.failed (.stream .endOfInput), k) := by
  have hA : Balanced (Source.commands "+.>") := by decide
  have hB : Balanced (Source.commands "<") := by decide
  obtain ⟨⟨a, b, c, ha, hb, hc, hjoined⟩, -⟩ :=
    @runs_compose .willing (Native.optimised .willing) (.inr rfl) _ _ hA hB 1 (by decide) (Assembler.takes_willing _)
  obtain ⟨-, hlater⟩ :=
    @runs_compose .willing (Native.plain .willing) (.inl rfl) _ _ hA hB 1 (by decide) (Assembler.takes_willing _)
  constructor
  · have hplain : ∃ x y s t, Native.plain .willing "+.>" = .ok x ∧ Native.plain .willing "<" = .ok y ∧
        (Runtime.start (.start [] {})).Runs x .done s ∧ s.Runs y (.failed (.outOfBounds none)) t ∧
        (s.tape.head : Nat) = 1 ∧ t.io.written = #[1] := ⟨_, _, _, _, rfl, rfl, ⟨9, rfl⟩, ⟨9, rfl⟩, rfl, rfl⟩
    obtain ⟨x, y, s, t, hx, hy, hfirst, hsecond, hhead, hwritten⟩ := hplain
    obtain ⟨a', ⟨tape, io⟩, ha', hrun, hsame⟩ :=
      Native.runs_optimised (by decide) (Assembler.takes_willing _) hx hfirst
    obtain ⟨b', t', hb', hrun', hsame'⟩ := Native.runs_optimised (by decide) (Assembler.takes_willing _) hy hsecond
    obtain rfl : a' = a := Except.ok.inj (ha'.symm.trans ha)
    obtain rfl : b' = b := Except.ok.inj (hb'.symm.trans hb)
    obtain rfl : tape = s.tape := hsame.tape fun h => nomatch h
    obtain rfl : io = s.io := hsame.io
    obtain ⟨u, hu, hresult⟩ := (hjoined _ s hrun hhead).forth hrun'
    have hu' : u.io.written = t.io.written := congrArg Streams.written (hresult.io.trans hsame'.io)
    exact ⟨a', c, s, u, ha, hc, hrun, Fin.ext hhead, hu, hu'.trans hwritten⟩
  · have hread : ∃ code r, Native.plain .willing "," = .ok code ∧
        Runtime.run? 9 code (.start (.start [] {})) = some (.failed (.stream .endOfInput), r) := ⟨_, _, rfl, rfl⟩
    obtain ⟨code, r, hcode, hrun⟩ := hread
    have hafresh := (hlater ⟨.standard, .blank, ⟨.start [] {}, some .flushFailed⟩⟩ _ .refl).1 _ code hcode
    obtain ⟨⟨v, k⟩, hk, hv⟩ := Option.map_eq_some_iff.mp ((hafresh.result 9 .blank rfl).trans hrun)
    obtain rfl : v = .failed (.stream .endOfInput) := congrArg Prod.fst hv
    exact ⟨code, k, hcode, hk⟩

end TapeMachine
