import TapeMachine.Proofs.Containment
import TapeMachine.Proofs.Jumps

namespace TapeMachine

variable {α : Type} {step : Step}

/-- The state of a run after some instructions, if it is not over by then. -/
def stateAfter (step : Step) : Nat → Config → Streams → Option (Config × Streams)
  | 0, c, io => some (c, io)
  | n + 1, c, io =>
    match (step c).perform io with
    | .resume c' io' => stateAfter step n c' io'
    | .halt _ _ _ => none

theorem stateAfter_succ {n : Nat} {c c' : Config} {io io' : Streams} (h : (step c).perform io = .resume c' io') :
    stateAfter step (n + 1) c io = stateAfter step n c' io' := by
  rw [stateAfter, h]

theorem stateAfter_add (m n : Nat) (c : Config) (io : Streams) :
    stateAfter step (m + n) c io = (stateAfter step m c io).bind fun s => stateAfter step n s.1 s.2 := by
  induction m generalizing c io with
  | zero =>
    rw [Nat.zero_add]
    rfl
  | succ m ih =>
    rw [Nat.succ_add, stateAfter, stateAfter]
    cases (step c).perform io with
    | resume c' io' => exact ih c' io'
    | halt => rfl

def Forever (step : Step) (c : Config) (io : Streams) : Prop :=
  ∀ x, ¬ Ends step c io x

namespace Forever

variable {c c' : Config} {io io' : Streams}

theorem resume (h : Forever step c io) (hs : (step c).perform io = .resume c' io') : Forever step c' io' :=
  fun x hx => h x (.of_resume hs hx)

theorem exists_resume (h : Forever step c io) : ∃ c' io', (step c).perform io = .resume c' io' := by
  cases hs : (step c).perform io with
  | resume c' io' => exact ⟨c', io', rfl⟩
  | halt => exact absurd (Ends.of_halt hs) (h _)

theorem exists_state (h : Forever step c io) (n : Nat) :
    ∃ c' io', stateAfter step n c io = some (c', io') ∧ Forever step c' io' := by
  induction n generalizing c io with
  | zero => exact ⟨c, io, rfl, h⟩
  | succ n ih =>
    obtain ⟨c', io', hs⟩ := h.exists_resume
    rw [stateAfter_succ hs]
    exact ih (h.resume hs)

end Forever

/-- What happens again and again for one of finitely many reasons happens again and again for one reason. -/
theorem exists_recurring {p : Nat → Nat → Prop} {n : Nat} (h : ∀ m, ∃ k, m ≤ k ∧ ∃ j, j < n ∧ p j k) :
    ∃ j, j < n ∧ ∀ m, ∃ k, m ≤ k ∧ p j k := by
  induction n with
  | zero =>
    obtain ⟨k, -, j, hj, -⟩ := h 0
    omega
  | succ n ih =>
    by_cases hlast : ∀ m, ∃ k, m ≤ k ∧ p n k
    · exact ⟨n, Nat.lt_succ_self n, hlast⟩
    · obtain ⟨b, hb⟩ := Classical.not_forall.mp hlast
      have hbelow : ∀ m, ∃ k, m ≤ k ∧ ∃ j, j < n ∧ p j k := by
        intro m
        obtain ⟨k, hk, j, hj, hp⟩ := h (max m b)
        have hne : j ≠ n := by
          rintro rfl
          exact hb ⟨k, by omega, hp⟩
        exact ⟨k, by omega, j, by omega, hp⟩
      obtain ⟨j, hj, hrec⟩ := ih hbelow
      exact ⟨j, by omega, hrec⟩

def Action.Passes (a : Action) (c : Config) : Prop :=
  a.Leads (· = c.pc + 1) fun _ => True

section Passes

variable (c : Config) (d : Direction) (n : Nat) (f : Failure)

theorem passes_update (g : Tape → Tape) : (c.update g).Passes c :=
  rfl

theorem passes_moveBy : (c.moveBy d n f).Passes c := by
  unfold Config.moveBy
  split
  · rfl
  · exact ⟨f, rfl, trivial⟩

theorem passes_transferBy : (c.transferBy d n f).Passes c := by
  unfold Config.transferBy
  split
  · rfl
  · split
    · exact passes_update c _
    · exact ⟨f, rfl, trivial⟩

theorem passes_readByte : c.readByte.Passes c :=
  ⟨fun _ => trivial, fun _ => passes_update c _⟩

theorem passes_writeByte : c.writeByte.Passes c :=
  ⟨fun _ => trivial, fun _ => trivial, rfl⟩

theorem passes_readEach : (Idiomatic.readEach c n).Passes c := by
  induction n generalizing c with
  | zero => rfl
  | succ n ih => exact ⟨fun _ => trivial, fun b => ih ⟨c.pc, c.tape.set b⟩⟩

theorem passes_writeEach : (Idiomatic.writeEach c n).Passes c := by
  induction n with
  | zero => rfl
  | succ n ih => exact ⟨fun _ => trivial, fun _ => trivial, ih⟩

end Passes

/-- The operation goes on with the next instruction, or it is a scan that moves by at least one cell. -/
def Progresses (act : α → Config → Action) (a : α) : Prop :=
  (∀ c, (act a c).Passes c) ∨ ∃ d n, 0 < n ∧ ∀ c, ∃ f, act a c = c.scanBy d n f

/-- What is left of a scan. -/
theorem Progresses.exists_rank {act : α → Config → Action} {a : α} (h : Progresses act a) :
    ∃ rank : Tape → Nat, ∀ {c c' : Config} {io io' : Streams}, (act a c).perform io = .resume c' io' →
      c'.pc = c.pc + 1 ∨ c'.pc = c.pc ∧ rank c'.tape < rank c.tape := by
  rcases h with hpass | ⟨d, n, hn, hscan⟩
  · refine ⟨fun _ => 0, fun {c c' io io'} hs => .inl ?_⟩
    have hleads := (hpass c).perform io
    rw [hs] at hleads
    exact hleads
  · refine ⟨fun t => t.room d, fun {c c' io io'} hs => ?_⟩
    obtain ⟨f, hf⟩ := hscan c
    rw [hf, Config.scanBy] at hs
    split at hs
    · cases hs
      exact .inl rfl
    · cases hm : c.tape.move? d n with
      | none =>
        rw [hm] at hs
        cases hs
      | some u =>
        rw [hm] at hs
        cases hs
        exact .inr ⟨rfl, Tape.room_lt_of_move? hn hm⟩

/-- The run is about to jump back from the end of a loop. -/
def AtJumpBack (code : Code α) (c : Config) : Prop :=
  ∃ i, code[c.pc]? = some (.ifNonzero i) ∧ c.tape.current ≠ 0

/-- A loop of the code jumps back again and again. -/
def Circles (step : Step) (code : Code α) (c : Config) (io : Streams) : Prop :=
  ∃ i j, i < j ∧ code[i]? = some (.ifZero j) ∧ code[j]? = some (.ifNonzero i) ∧
    ∀ m, ∃ k u jo, m ≤ k ∧ stateAfter step k c io = some (⟨j, u⟩, jo) ∧ u.current ≠ 0

section Code

variable {act : α → Config → Action} {code : Code α} (hpaired : Paired code)
  (hact : ∀ {i : Nat} {a : α}, code[i]? = some (.op a) → Progresses act a)

include hpaired hact

/-- An instruction goes forward, or it stays on a scan with less of it left, or it jumps back. -/
theorem Code.exists_rank : ∃ rank : Nat → Tape → Nat, ∀ {c c' : Config} {io io' : Streams},
    (Code.step act code c).perform io = .resume c' io' →
      c.pc < code.size ∧ (AtJumpBack code c ∨ c.pc < c'.pc ∨ c'.pc = c.pc ∧ rank c.pc c'.tape < rank c.pc c.tape) := by
  classical
  have hrank : ∀ i : Nat, ∃ rank : Tape → Nat, ∀ {a}, code[i]? = some (.op a) → ∀ {c c' : Config} {io io' : Streams},
      (act a c).perform io = .resume c' io' → c'.pc = c.pc + 1 ∨ c'.pc = c.pc ∧ rank c'.tape < rank c.tape := by
    intro i
    by_cases hop : ∃ a, code[i]? = some (.op a)
    · obtain ⟨a, ha⟩ := hop
      obtain ⟨rank, h⟩ := (hact ha).exists_rank
      refine ⟨rank, fun {b} hb => ?_⟩
      cases ha.symm.trans hb
      exact h
    · exact ⟨fun _ => 0, fun {b} hb => absurd ⟨b, hb⟩ hop⟩
  choose rank h using hrank
  refine ⟨rank, fun {c c' io io'} hs => ?_⟩
  have hnext : ∀ {t}, (Action.resume (c.next t)).perform io = .resume c' io' → c.pc < c'.pc := by
    intro t ht
    cases ht
    exact Nat.lt_succ_self c.pc
  cases hi : code[c.pc]? with
  | none =>
    simp only [Code.step, hi] at hs
    cases hs
  | some x =>
    refine ⟨(Array.getElem?_eq_some_iff.mp hi).1, ?_⟩
    simp only [Code.step, hi] at hs
    cases x with
    | op a =>
      rcases h c.pc hi hs with hlt | hstay
      · exact .inr (.inl (by omega))
      · exact .inr (.inr hstay)
    | ifZero j =>
      obtain ⟨hlt, hj⟩ := hpaired.ifZero hi
      have hjsize := (Array.getElem?_eq_some_iff.mp hj).1
      refine .inr (.inl ?_)
      simp only [Config.jumpIf, Config.jump, behind?_of_lt hjsize] at hs
      split at hs
      · cases hs
        exact Nat.lt_succ_of_lt hlt
      · exact hnext hs
    | ifNonzero i =>
      by_cases hz : c.tape.current = 0
      · simp only [Config.jumpIf, hz, ne_eq, not_true_eq_false, if_false] at hs
        exact .inr (.inl (hnext hs))
      · exact .inl ⟨i, hi, hz⟩

theorem Forever.exists_jumpBack {c : Config} {io : Streams} (h : Forever (Code.step act code) c io) :
    ∃ k c' io', stateAfter (Code.step act code) k c io = some (c', io') ∧ AtJumpBack code c' := by
  obtain ⟨rank, hrank⟩ := Code.exists_rank hpaired hact
  -- on how much of the code is ahead, and for a scan on how much of it is left
  induction hn : code.size - c.pc using Nat.strongRecOn generalizing c io with
  | ind n ihpc =>
    subst hn
    induction hm : rank c.pc c.tape using Nat.strongRecOn generalizing c io with
    | ind m ihrank =>
      obtain ⟨c', io', hs⟩ := h.exists_resume
      have goes : (∃ k d jo, stateAfter (Code.step act code) k c' io' = some (d, jo) ∧ AtJumpBack code d) →
          ∃ k d jo, stateAfter (Code.step act code) k c io = some (d, jo) ∧ AtJumpBack code d := by
        rintro ⟨k, d, jo, hk, hd⟩
        exact ⟨k + 1, d, jo, (stateAfter_succ hs).trans hk, hd⟩
      obtain ⟨hsize, hback | hlt | ⟨hpc, hless⟩⟩ := hrank hs
      · exact ⟨0, c, io, rfl, hback⟩
      · exact goes (ihpc _ (by omega) (h.resume hs) rfl)
      · refine goes (ihrank _ (hm ▸ hless) (h.resume hs) ?_ (by rw [hpc]))
        rw [hpc]
        exact ihpc

/-- A run that never ends jumps back from one loop again and again. -/
theorem Forever.circles {c : Config} {io : Streams} (h : Forever (Code.step act code) c io) :
    Circles (Code.step act code) code c io := by
  have hback : ∀ m, ∃ k, m ≤ k ∧ ∃ j, j < code.size ∧ ∃ i u jo,
      stateAfter (Code.step act code) k c io = some (⟨j, u⟩, jo) ∧ code[j]? = some (.ifNonzero i) ∧ u.current ≠ 0 := by
    intro m
    obtain ⟨c', io', hm, hforever⟩ := h.exists_state m
    obtain ⟨k, d, jo, hk, i, hi, hd⟩ := hforever.exists_jumpBack hpaired hact
    refine ⟨m + k, by omega, d.pc, (Array.getElem?_eq_some_iff.mp hi).1, i, d.tape, jo, ?_, hi, hd⟩
    rw [stateAfter_add, hm]
    exact hk
  obtain ⟨j, -, hrec⟩ := exists_recurring hback
  obtain ⟨-, -, i, -, -, -, hj, -⟩ := hrec 0
  obtain ⟨hlt, hi⟩ := hpaired.ifNonzero hj
  refine ⟨i, j, hlt, hi, hj, fun m => ?_⟩
  obtain ⟨k, hk, -, u, jo, hstate, -, hu⟩ := hrec m
  exact ⟨k, u, jo, hk, hstate, hu⟩

end Code

end TapeMachine
