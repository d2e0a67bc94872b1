import TapeMachine.Proofs.Optimiser

namespace TapeMachine

open Meaning Block Idiom

/-- The loop at index `i` consists of `n` increments or of `n` decrements. -/
def StepLoop (cs : List Command) (i n : Nat) : Prop :=
  ∃ b post, IsStep b ∧ cs.drop i = .opening :: (List.replicate n (.op b) ++ .closing :: post)

theorem stepLoop_iff {cs : List Command} {i n : Nat} :
    StepLoop cs i n ↔ ∃ b post, IsStep b ∧ (cs.map (Token.map Op.basic)).drop i =
      .opening :: (List.replicate n (.op (.basic b)) ++ .closing :: post) := by
  constructor
  · intro hs
    obtain ⟨b, post, hb, h⟩ := hs
    refine ⟨b, post.map (Token.map .basic), hb, ?_⟩
    rw [← List.map_drop, h, List.map_cons, List.map_append, List.map_replicate]
    rfl
  · intro hs
    obtain ⟨b, post, hb, h⟩ := hs
    rw [← List.map_drop] at h
    obtain ⟨c, rest, hdrop, hc, hrest⟩ := List.map_eq_cons_iff.mp h
    obtain ⟨body, rest', rfl, hbody, hrest'⟩ := List.map_eq_append_iff.mp hrest
    obtain ⟨c', post', rfl, hc', -⟩ := List.map_eq_cons_iff.mp hrest'
    obtain ⟨hlen, hall⟩ := List.eq_replicate_iff.mp hbody
    have bracket : ∀ {c : Command} {k : Bracket}, c.map Op.basic = .bracket k → c = .bracket k := by
      intro c k hk
      cases c with
      | op => cases hk
      | bracket => cases hk; rfl
    have hops : body = List.replicate n (.op b) := by
      rw [List.length_map] at hlen
      refine List.eq_replicate_iff.mpr ⟨hlen, fun c hmem => ?_⟩
      have hc := hall _ (List.mem_map_of_mem hmem)
      cases c with
      | op b' => cases hc; rfl
      | bracket => cases hc
    exact ⟨b, post', hb, by rw [hdrop, bracket hc, hops, bracket hc']⟩

section Machine

variable {step : Step} {ts : List (Token Op)} {c : Config}

/-- From a loop of steps that cannot come to zero a run never ends. -/
theorem Follows.not_ends_of_steps (hf : Follows step Op.act ts) {b : Basic} (hb : IsStep b) {n : Nat}
    {post : List (Token Op)}
    (h : ts.drop c.pc = .opening :: (List.replicate n (.op (.basic b)) ++ .closing :: post))
    (hd : ¬ Nat.gcd n 256 ∣ c.tape.current.toNat) (io : Streams) (e : Ended) : ¬ Ends step c io e := by
  intro he
  obtain ⟨k, hk⟩ : ∃ k, Shows step (Watched ts .nothing) k c io (.ended e) := ends_iff_shows.mp he
  have hts : ts.drop c.pc = (loop (ofOps (List.replicate n (.basic b))) nil).tokens ++ post := by
    simp only [h, tokens, tokens_ofOps, List.map_replicate, List.cons_append, List.append_assoc, List.nil_append]
  have hseq := hf.seq_of_shows (r := ⟨c.tape, io⟩) local_op _ hts hk
  rw [meaning_loop_nil] at hseq
  obtain ⟨m, hgcd, hA⟩ := Does.steps Tape.SameCells .nothing hb n (c.pc + 1)
  have hu : ((ofOps (List.replicate n (Op.basic b))).meaning Op.act .nothing (c.pc + 1)).Unique :=
    meaning_ofOps_unique _ (fun _ _ _ h => h) _
  have hrounds : ∃ p, rounds ((ofOps (List.replicate n (Op.basic b))).meaning Op.act .nothing (c.pc + 1))
      ⟨c.tape, io⟩ p := by
    obtain ⟨p, hp, -⟩ := seq_iff.mp hseq
    cases hp with
    | met hm => exact hm.elim
    | run hr => exact ⟨p, hr⟩
  obtain ⟨p, hp⟩ := hrounds
  exact hd (hgcd ▸ (of_rounds_add hA hu hp).2)

end Machine

/-- The run is at a loop of `n` equal steps whose cell never comes to zero. -/
def AtEndless (cs : List Command) (c : Config) (n : Nat) : Prop :=
  StepLoop cs c.pc n ∧ ¬ Nat.gcd n 256 ∣ c.tape.current.toNat

section Source

variable {text : String} {t : Tree} (ht : Tree.ofSource text = .ok t) {io io' : Streams} {c : Config}

include ht

theorem watched_endless_iff : Watched t.block.tokens .endless c ↔
    ∃ n, 0 < n ∧ AtEndless (Source.commands text) c n := by
  have htokens : t.block.tokens = (Source.commands text).map (Token.map .basic) := by
    rw [Tree.tokens_block, Tree.ofSource_eq_ok_iff.mp ht]
  constructor
  · intro h
    rcases h with ⟨a, -, hw⟩ | ⟨body, post, hdrop, -, n, ⟨hn, b, hb, rfl⟩, hd⟩
    · exact hw.elim
    · rw [htokens] at hdrop
      exact ⟨n, hn, stepLoop_iff.mpr ⟨b, post, hb, hdrop⟩, hd⟩
  · intro h
    obtain ⟨n, hn, hloop, hd⟩ := h
    obtain ⟨b, post, hb, hdrop⟩ := stepLoop_iff.mp hloop
    rw [← htokens] at hdrop
    have hbody : (ofOps (List.replicate n (Op.basic b))).tokens = List.replicate n (.op (.basic b)) := by
      rw [tokens_ofOps, List.map_replicate]
    exact .inr ⟨_, post, hdrop, hbody ▸ balanced_tokens _, n, ⟨hn, b, hb, rfl⟩, hd⟩

theorem scanning_of_idiomatic {p : Idiomatic.Program} (hp : Links t.optimise.lower p) {y : Ended}
    (hy : Ends (Idiomatic.step p) (.start .blank) io y) :
    (∃ x, Ends (Scanning.step (Source.commands text).toArray) (.start .blank) io x) ∨
      ∃ c io' n, Reaches (Scanning.step (Source.commands text).toArray) (.start .blank) io c io' ∧ 0 < n ∧
        AtEndless (Source.commands text) c n := by
  have hleaves := ((follows_idiomatic hp).ends_iff_leaves local_counted .nothing).mp hy
  obtain ⟨x, hx⟩ := Tree.leaves_of_program hleaves
  have hf := follows_scanning ht
  cases x with
  | ended x => exact .inl ⟨x, (hf.ends_iff_leaves local_op _).mpr hx⟩
  | met c io' =>
    obtain ⟨hreach, hw⟩ := (hf.reaches_iff_leaves local_op _).mpr hx
    obtain ⟨n, hn, hend⟩ := (watched_endless_iff ht).mp hw
    exact .inr ⟨c, io', n, hreach, hn, hend⟩

theorem not_ends_of_reaches {n : Nat}
    (h : Reaches (Scanning.step (Source.commands text).toArray) (.start .blank) io c io')
    (he : AtEndless (Source.commands text) c n) (x : Ended) :
    ¬ Ends (Scanning.step (Source.commands text).toArray) (.start .blank) io x := by
  intro hx
  obtain ⟨b, post, hb, hdrop⟩ := stepLoop_iff.mp he.1
  rw [← Tree.ofSource_eq_ok_iff.mp ht, ← Tree.tokens_block] at hdrop
  exact (follows_scanning ht).not_ends_of_steps hb hdrop he.2 io' x (h.ends hx)

/-- Where the naive run is caught, the optimised one clears the cell and goes on. -/
theorem clears_of_reaches {p : Idiomatic.Program} (hp : Links t.optimise.lower p) {n : Nat} (hn : 0 < n)
    (h : Reaches (Scanning.step (Source.commands text).toArray) (.start .blank) io c io')
    (he : AtEndless (Source.commands text) c n) :
    ∃ k, p[k]? = some (.op .clear) ∧ Reaches (Idiomatic.step p) (.start .blank) io ⟨k, c.tape⟩ io' ∧
      Reaches (Idiomatic.step p) (.start .blank) io ⟨k + 1, c.tape.set 0⟩ io' := by
  have hw := (watched_endless_iff ht).mpr ⟨n, hn, he⟩
  have hleaves := ((follows_scanning ht).reaches_iff_leaves local_op .endless).mp ⟨h, hw⟩
  obtain ⟨y, hxy, hy⟩ := Tree.leaves_program hleaves
  cases y with
  | ended => exact hxy.elim
  | met c' io'' =>
    obtain ⟨htape, rfl⟩ := hxy
    obtain ⟨k, t'⟩ := c'
    obtain rfl : c.tape = t' := htape
    obtain ⟨hreach, hw'⟩ := ((follows_idiomatic hp).reaches_iff_leaves local_counted _).mpr hy
    have hclear : p[k]? = some (.op .clear) := by
      rcases hw' with ⟨a, ha, hop, -⟩ | ⟨_, _, _, _, hloop⟩
      · obtain ⟨o, m⟩ := a
        obtain rfl : o = .clear := hop
        apply hp.op
        rw [Tree.lower_optimise, List.getElem?_map, ha]
        rfl
      · exact hloop.elim
    have hstep : (Idiomatic.step p ⟨k, c.tape⟩).perform io' = .resume ⟨k + 1, c.tape.set 0⟩ io' := by
      simp only [Idiomatic.step, Code.step, hclear]
      rfl
    exact ⟨k, hclear, hreach, hreach.trans (.next hstep (.refl _ _))⟩

end Source

theorem gcd_of_odd {n : Nat} (h : n % 2 = 1) : Nat.gcd n 256 = 1 := by
  have htwo : Nat.Coprime n 2 := by
    rw [Nat.coprime_comm, Nat.Coprime, Nat.gcd_rec, h]
    rfl
  exact htwo.pow_right 8

/-- Optimising makes a run end only if it comes to a loop of `n` increments or decrements with a cell that the
greatest common divisor of `n` and 256 does not divide. Such a run never ends, while the optimised one clears
the cell and goes on. If all these loops have an odd number of commands, both runs end or none. -/
theorem idiomatic_finishes_iff_scanning {text : String} (hb : Balanced (Source.commands text)) (target : Target)
    (io : Streams) :
    ((¬ ∃ x, Engine.scanning.Finishes target text io x) → (∃ y, Engine.idiomatic.Finishes target text io y) →
      ∃ c io' n, Reaches (Scanning.step (Source.commands text).toArray) (.start .blank) io c io' ∧ 0 < n ∧
        AtEndless (Source.commands text) c n) ∧
    (∀ c io' n, Reaches (Scanning.step (Source.commands text).toArray) (.start .blank) io c io' →
      AtEndless (Source.commands text) c n →
        (¬ ∃ x, Engine.scanning.Finishes target text io x) ∧
        (0 < n → ∃ p k, Idiomatic.ofSource text = .ok p ∧ p[k]? = some (.op .clear) ∧
          Reaches (Idiomatic.step p) (.start .blank) io ⟨k, c.tape⟩ io' ∧
          Reaches (Idiomatic.step p) (.start .blank) io ⟨k + 1, c.tape.set 0⟩ io')) ∧
    ((∀ i n, 0 < n → StepLoop (Source.commands text) i n → n % 2 = 1) →
      ((∃ y, Engine.idiomatic.Finishes target text io y) ↔ ∃ x, Engine.scanning.Finishes target text io x)) := by
  obtain ⟨t, ht⟩ := Tree.ofSource_isOk_iff.mpr hb
  obtain ⟨p, hp, hlinks⟩ := exists_idiomatic ht
  have hprepare : Engine.idiomatic.prepare target text = .ok (Idiomatic.step p) := by
    simp only [Engine.prepare, Engine.load, hp]
    rfl
  have hscan : Engine.scanning.prepare target text = .ok (Scanning.step (Source.commands text).toArray) := rfl
  simp only [Engine.finishes_iff hprepare, Engine.finishes_iff hscan]
  refine ⟨?_, ?_, ?_⟩
  · intro hn h
    obtain ⟨y, hy⟩ := h
    exact (scanning_of_idiomatic ht hlinks hy).resolve_left hn
  · intro c io' n hreach he
    refine ⟨?_, ?_⟩
    · intro h
      obtain ⟨x, hx⟩ := h
      exact not_ends_of_reaches ht hreach he x hx
    · intro hn
      obtain ⟨k, hk⟩ := clears_of_reaches ht hlinks hn hreach he
      exact ⟨p, k, hp, hk⟩
  · intro hodd
    constructor
    · intro h
      obtain ⟨y, hy⟩ := h
      rcases scanning_of_idiomatic ht hlinks hy with hx | ⟨c, io', n, -, hn, hloop, hd⟩
      · exact hx
      · exact absurd (gcd_of_odd (hodd _ n hn hloop) ▸ Nat.one_dvd _) hd
    · intro h
      obtain ⟨x, hx⟩ := h
      obtain ⟨y, -, hy⟩ := ends_idiomatic ht hlinks hx
      exact ⟨y, hy⟩

theorem idiomatic_finishes_iff_scanning_even :
    (¬ ∃ x, Engine.scanning.Finishes .standard "+[--]" (.start [] {}) x) ∧
      ∃ (p : Idiomatic.Program) (k : Nat), Idiomatic.ofSource "+[--]" = .ok p ∧ p[k]? = some (.op .clear) := by
  have hreach : Reaches (Scanning.step (Source.commands "+[--]").toArray) (.start .blank) (.start [] {})
      ⟨1, Tape.blank.rewind.add 1⟩ (.start [] {}) := .next rfl (.refl _ _)
  have hend : AtEndless (Source.commands "+[--]") ⟨1, Tape.blank.rewind.add 1⟩ 2 :=
    ⟨⟨.decrement, [], .inr rfl, rfl⟩, by decide⟩
  have hb : Balanced (Source.commands "+[--]") := by decide
  obtain ⟨-, hcaught, -⟩ := idiomatic_finishes_iff_scanning hb .standard (.start [] {})
  obtain ⟨hscan, hclear⟩ := hcaught _ _ _ hreach hend
  obtain ⟨p, k, hp, hk, -⟩ := hclear (by decide)
  exact ⟨hscan, p, k, hp, hk⟩

end TapeMachine
