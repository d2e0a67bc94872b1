import TapeMachine.Proofs.Optimiser
import TapeMachine.Proofs.Size

namespace TapeMachine

namespace Native

variable {target : Target} {text : String}

theorem prepare_plainNative : Engine.plainNative.prepare target text = (plain target.assembler text).map Native.step := by
  rw [Engine.prepare, Engine.load]
  cases plain target.assembler text <;> rfl

theorem prepare_idiomaticNative :
    Engine.idiomaticNative.prepare target text = (optimised target.assembler text).map Native.step := by
  rw [Engine.prepare, Engine.load]
  cases optimised target.assembler text <;> rfl

theorem exists_of_loweredSource {ts : List (Token Lowered)} (h : loweredSource text = .ok ts) :
    ∃ t, Tree.ofSource text = .ok t ∧ ts = t.optimise.lower := by
  unfold loweredSource at h
  cases ht : Tree.ofSource text with
  | error u => simp [ht] at h
  | ok t =>
    simp only [ht, Tree.lowerWithin?] at h
    split at h
    · rename_i hsome
      split at hsome
      · cases hsome
        cases h
        exact ⟨t, rfl, rfl⟩
      · cases hsome
    · cases h

theorem exists_links_of_optimised {a : Assembler} {code : Code Native} (h : optimised a text = .ok code) :
    ∃ b : Block Lowered, loweredSource text = .ok b.tokens ∧ Links (b.bind Lowered.natives).tokens code := by
  obtain ⟨ts, hts, hcode⟩ := exists_of_optimised h
  obtain ⟨b, rfl⟩ := Block.exists_tokens_eq (balanced_of_compile Lowered.map_token_requests hcode)
  exact ⟨b, hts, links_of_compile Lowered.map_token_requests hcode⟩

end Native

/-- Source texts run one after the other on one runtime, with the verdict of each run and the runtime it
leaves. A text that is rejected is not run. -/
inductive Session (compile : String → Except Failure (Code Native)) :
    Runtime → List String → List (Verdict × Runtime) → Prop where
  | nil (r : Runtime) : Session compile r [] []
  | rejected {text : String} {f : Failure} {r : Runtime} {texts : List String} {xs : List (Verdict × Runtime)} :
      compile text = .error f → Session compile r texts xs → Session compile r (text :: texts) xs
  | run {text : String} {code : Code Native} {r r' : Runtime} {v : Verdict} {texts : List String}
      {xs : List (Verdict × Runtime)} : compile text = .ok code → r.Runs code v r' → Session compile r' texts xs →
      Session compile r (text :: texts) ((v, r') :: xs)

theorem Session.of_nil {compile : String → Except Failure (Code Native)} {r : Runtime} {texts : List String}
    (h : Session compile r texts []) (s : Runtime) : Session compile s texts [] := by
  generalize hx : [] = xs at h
  induction h with
  | nil => exact .nil s
  | rejected hf _ ih => exact .rejected hf (ih hx)
  | run => cases hx

/-- The result of the plain code of a text, and a result of its optimised code that can stand for it. Only if
the head would leave the tape do the tapes differ, by one in one cell. -/
structure Replaces (x y : Verdict × Runtime) : Prop where
  verdict : y.1 = x.1
  io : y.2.io = x.2.io
  tape : x.1 ≠ .failed (.outOfBounds none) → y.2.tape = x.2.tape
  off : x.1 = .failed (.outOfBounds none) → x.2.tape.OneMore y.2.tape

section Text

variable {a : Assembler} {text : String} (hlen : text.length ≤ maxOffset)

include hlen

namespace Native

theorem optimised_eq {t : Tree} (ht : Tree.ofSource text = .ok t) :
    optimised a text = compileLowered a t.optimise.lower := by
  rw [optimised, loweredSource_eq ht hlen]

/-- The optimised program has code that is not longer than the text. -/
theorem exists_optimised {t : Tree} (ht : Tree.ofSource text = .ok t) :
    ∃ code : Code Native, code.size ≤ text.length ∧ ∀ a : Assembler, a.Takes code.size → optimised a text = .ok code := by
  obtain ⟨code, hsize, hcode⟩ := exists_compileLowered t.balanced_lower_optimise fun o => Tree.compilable_lower ht hlen
  exact ⟨code, hsize ▸ Tree.length_natives_le ht, fun a ha => (optimised_eq hlen ht).trans (hcode a ha)⟩

variable (ha : a.Takes text.length)

include ha

theorem plain_isOk_iff_optimised : (∃ code, plain a text = .ok code) ↔ ∃ code, optimised a text = .ok code := by
  have hplain : (∃ code, plain a text = .ok code) ↔ Balanced (Source.commands text) :=
    compilePlain_isOk_iff (ha.mono (Source.length_commands_le text))
  rw [hplain, ← Tree.ofSource_isOk_iff]
  constructor
  · intro h
    obtain ⟨t, ht⟩ := h
    obtain ⟨code, hsize, hcode⟩ := exists_optimised hlen ht
    exact ⟨code, hcode a (ha.mono hsize)⟩
  · intro hs
    obtain ⟨code, h⟩ := hs
    unfold optimised loweredSource at h
    cases ht : Tree.ofSource text with
    | ok t => exact ⟨t, rfl⟩
    | error u => simp [ht] at h

theorem plain_isError_iff_optimised : (∃ f, plain a text = .error f) ↔ ∃ f, optimised a text = .error f := by
  have rejected : ∀ {x : Except Failure (Code Native)}, (∃ f, x = .error f) ↔ ¬ ∃ code, x = .ok code := by
    intro x
    cases x with
    | ok code => simp
    | error f => simp
  rw [rejected, rejected, plain_isOk_iff_optimised hlen ha]

/-- A text whose plain code ends has optimised code that ends from the same runtime, with a result that can
stand for it. -/
theorem runs_optimised {code : Code Native} (hcode : plain a text = .ok code) {r r' : Runtime} {v : Verdict}
    (h : r.Runs code v r') :
    ∃ code' s, optimised a text = .ok code' ∧ r.Runs code' v s ∧ Replaces (v, r') (v, s) := by
  obtain ⟨t, ht⟩ := Tree.ofSource_isOk_iff.mpr (balanced_of_compilePlain hcode)
  obtain ⟨p, -, hlinks⟩ := exists_idiomatic ht
  obtain ⟨x, hx, rfl, rfl⟩ := (Runtime.runs_plain hcode).mp h
  obtain ⟨y, hxy, hy⟩ := ends_idiomatic ht hlinks hx
  obtain ⟨code', hsize, hcode'⟩ := exists_optimised hlen ht
  have hlowered := (optimised_eq hlen ht).symm.trans (hcode' a (ha.mono hsize))
  have hruns := (Runtime.runs_lowered t.balanced_lower_optimise (fun o => Tree.compilable_lower ht hlen) hlowered
    hlinks).mpr ⟨y, hy, rfl, rfl⟩
  rw [← hxy.verdict] at hruns
  exact ⟨code', ⟨y.config.tape, y.io⟩, hcode' a (ha.mono hsize), hruns,
    ⟨rfl, hxy.io.symm, fun hv => (hxy.tape hv).symm, hxy.off⟩⟩

end Native

end Text

/-- Texts that are not too long are rejected alike by the plain and by the optimising compiler, if the assembler takes code
that is not longer than they are. As long as the runs of plain code end, and only the last one by a move off the tape, the
runs of optimised code end with results that can stand for theirs. -/
theorem optimised_replaces_plain {a : Assembler} {texts : List String} (hlen : ∀ text ∈ texts, text.length ≤ maxOffset)
    (htakes : ∀ text ∈ texts, a.Takes text.length) :
    (∀ text ∈ texts, (∃ f, Native.plain a text = .error f) ↔ ∃ f, Native.optimised a text = .error f) ∧
    ∀ r xs, Session (Native.plain a) r texts xs → (∀ x ∈ xs.dropLast, x.1 ≠ .failed (.outOfBounds none)) →
      ∃ ys, Session (Native.optimised a) r texts ys ∧ List.Forall₂ Replaces xs ys := by
  refine ⟨fun text ht => Native.plain_isError_iff_optimised (hlen text ht) (htakes text ht), ?_⟩
  intro r xs h hoff
  induction h with
  | nil r => exact ⟨[], .nil r, .nil⟩
  | @rejected text f r texts xs hf _ ih =>
    obtain ⟨f', hf'⟩ := (Native.plain_isError_iff_optimised (hlen text List.mem_cons_self)
      (htakes text List.mem_cons_self)).mp ⟨f, hf⟩
    obtain ⟨ys, hys, hall⟩ := ih (fun t ht => hlen t (List.mem_cons_of_mem _ ht))
      (fun t ht => htakes t (List.mem_cons_of_mem _ ht)) hoff
    exact ⟨ys, .rejected hf' hys, hall⟩
  | @run text code r r' v texts xs hcode hrun _ ih =>
    obtain ⟨code', s, hcode', hrun', hsame⟩ := Native.runs_optimised (hlen text List.mem_cons_self)
      (htakes text List.mem_cons_self) hcode hrun
    have hrest := ih (fun t ht => hlen t (List.mem_cons_of_mem text ht)) fun t ht =>
      htakes t (List.mem_cons_of_mem text ht)
    cases xs with
    | nil =>
      obtain ⟨ys, hys, hall⟩ := hrest fun x hx => by cases hx
      cases hall
      exact ⟨[(v, s)], .run hcode' hrun' (hys.of_nil s), .cons hsame .nil⟩
    | cons x xs =>
      -- a run that is not the last one leaves the same tape
      have hv : v ≠ .failed (.outOfBounds none) := hoff (v, r') List.mem_cons_self
      have hs : s = r' := by
        obtain ⟨t, io⟩ := s
        obtain ⟨t', io'⟩ := r'
        have htape : t = t' := hsame.tape hv
        have hio : io = io' := hsame.io
        rw [htape, hio]
      obtain ⟨ys, hys, hall⟩ := hrest fun y hy => hoff y (List.mem_cons_of_mem _ hy)
      rw [← hs] at hys
      exact ⟨(v, s) :: ys, .run hcode' hrun' hys, .cons hsame hall⟩

/-- A transfer meets a cell that an earlier text left, and would carry it off the tape. -/
theorem optimised_replaces_plain_left :
    ∃ t u ys, Session (Native.plain .willing) (.start (.start [] {})) ["+", "]", "[-<+>]"]
        [(.done, t), (.failed (.outOfBounds none), u)] ∧
      Session (Native.optimised .willing) (.start (.start [] {})) ["+", "]", "[-<+>]"] ys ∧
      List.Forall₂ Replaces [(.done, t), (.failed (.outOfBounds none), u)] ys := by
  have hplain : ∃ t u, Session (Native.plain .willing) (.start (.start [] {})) ["+", "]", "[-<+>]"]
      [(.done, t), (.failed (.outOfBounds none), u)] :=
    ⟨_, _, .run rfl ⟨20, rfl⟩ (.rejected rfl (.run rfl ⟨20, rfl⟩ (.nil _)))⟩
  obtain ⟨t, u, hsession⟩ := hplain
  have hlen : ∀ text ∈ ["+", "]", "[-<+>]"], text.length ≤ maxOffset := by decide
  obtain ⟨ys, hys, hall⟩ := (optimised_replaces_plain hlen fun text _ => Assembler.takes_willing _).2 _ _ hsession
    (by simp)
  exact ⟨t, u, ys, hsession, hys, hall⟩

end TapeMachine
