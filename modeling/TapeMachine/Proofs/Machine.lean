import TapeMachine.Engine.Idiomatic
import TapeMachine.Engine.Scanning
import TapeMachine.Proofs.Follow

namespace TapeMachine

variable {α β : Type}

/-- Where an action goes on satisfies `p`, and how it fails satisfies `q`. -/
def Action.Leads (p : Nat → Prop) (q : Failure → Prop) : Action → Prop
  | resume c => p c.pc
  | halt _ v => ∃ f, v = .failed f ∧ q f
  | read _ granted => (∀ e, q (.stream e)) ∧ ∀ b, (granted b).Leads p q
  | write _ _ granted => (∀ e, q (.stream e)) ∧ (granted ()).Leads p q
  | flush _ granted => (∀ e, q (.stream e)) ∧ (granted ()).Leads p q

def Reply.Leads (p : Nat → Prop) (q : Failure → Prop) : Reply → Prop
  | resume c _ => p c.pc
  | halt _ v _ => ∃ f, v = .failed f ∧ q f

theorem Action.Leads.perform {p : Nat → Prop} {q : Failure → Prop} {a : Action} (h : a.Leads p q) (io : Streams) :
    (a.perform io).Leads p q := by
  induction a generalizing io with
  | resume c => exact h
  | halt c v => exact h
  | read c granted ih =>
    rw [Action.perform]
    split
    · exact ih _ (h.2 _) _
    · exact ⟨_, rfl, h.1 _⟩
  | write c b granted ih =>
    rw [Action.perform]
    split
    · exact ih _ h.2 _
    · exact ⟨_, rfl, h.1 _⟩
  | flush c granted ih =>
    rw [Action.perform]
    split
    · exact ih _ h.2 _
    · exact ⟨_, rfl, h.1 _⟩

/-- An instruction goes on with itself or with the next one, or fails as given or by a stream. -/
def Action.FitsAt (a : Action) (c : Config) (f : Failure) : Prop :=
  a.Leads (fun pc => pc = c.pc ∨ pc = c.pc + 1) fun g => g = f ∨ ∃ e, g = .stream e

section FitsAt

variable (c : Config) (d : Direction) (n : Nat) (f : Failure)

theorem fitsAt_next (t : Tape) : (Action.resume (c.next t)).FitsAt c f :=
  .inr rfl

theorem fitsAt_update (g : Tape → Tape) : (c.update g).FitsAt c f :=
  .inr rfl

theorem fitsAt_moveBy : (c.moveBy d n f).FitsAt c f := by
  unfold Config.moveBy
  split
  · exact fitsAt_next c f _
  · exact ⟨f, rfl, .inl rfl⟩

theorem fitsAt_scanBy : (c.scanBy d n f).FitsAt c f := by
  unfold Config.scanBy
  split
  · exact fitsAt_next c f _
  · split
    · exact .inl rfl
    · exact ⟨f, rfl, .inl rfl⟩

theorem fitsAt_transferBy : (c.transferBy d n f).FitsAt c f := by
  unfold Config.transferBy
  split
  · exact fitsAt_next c f _
  · split
    · exact fitsAt_update c f _
    · exact ⟨f, rfl, .inl rfl⟩

theorem fitsAt_readByte : c.readByte.FitsAt c f :=
  ⟨fun e => .inr ⟨e, rfl⟩, fun _ => fitsAt_update c f _⟩

theorem fitsAt_writeByte : c.writeByte.FitsAt c f :=
  ⟨fun e => .inr ⟨e, rfl⟩, fun e => .inr ⟨e, rfl⟩, fitsAt_next c f _⟩

theorem fitsAt_readEach : (Idiomatic.readEach c n).FitsAt c f := by
  induction n generalizing c with
  | zero => exact fitsAt_next c f _
  | succ n ih => exact ⟨fun e => .inr ⟨e, rfl⟩, fun b => ih ⟨c.pc, c.tape.set b⟩⟩

theorem fitsAt_writeEach : (Idiomatic.writeEach c n).FitsAt c f := by
  induction n with
  | zero => exact fitsAt_next c f _
  | succ n ih => exact ⟨fun e => .inr ⟨e, rfl⟩, fun e => .inr ⟨e, rfl⟩, ih⟩

end FitsAt

theorem fitsAt_basic (b : Basic) (c : Config) : (b.act c).FitsAt c c.outOfBounds := by
  cases b with
  | move d => exact fitsAt_moveBy c d 1 _
  | increment => exact fitsAt_update c _ (·.add 1)
  | decrement => exact fitsAt_update c _ (·.sub 1)
  | read => exact fitsAt_readByte c _
  | write => exact fitsAt_writeByte c _

theorem fitsAt_idiomatic (o : Lowered) (c : Config) : (Idiomatic.act o c).FitsAt c c.outOfBounds := by
  match o with
  | .counted (.move d) n => exact fitsAt_moveBy c d n _
  | .counted .increment n => exact fitsAt_update c _ (·.add n)
  | .counted .decrement n => exact fitsAt_update c _ (·.sub n)
  | .counted .read n => exact fitsAt_readEach c n _
  | .counted .write n => exact fitsAt_writeEach c n _
  | .clear => exact fitsAt_update c _ (·.set 0)
  | .scan 0 _ _ => exact fitsAt_next c _ _
  | .scan (count + 1) d n =>
    rw [Idiomatic.act_scan]
    exact fitsAt_scanBy c d n _
  | .transfer 0 _ _ => exact fitsAt_next c _ _
  | .transfer (count + 1) d n =>
    rw [Idiomatic.act_transfer]
    exact fitsAt_transferBy c d n _

theorem fitsAt_native (o : Native) (c : Config) : (o.act c).FitsAt c (.outOfBounds none) := by
  cases o with
  | move d n => exact fitsAt_moveBy c d n _
  | add b => exact fitsAt_update c _ fun t => t.set (t.current + b)
  | sub b => exact fitsAt_update c _ fun t => t.set (t.current - b)
  | clear => exact fitsAt_update c _ (·.set 0)
  | read => exact fitsAt_readByte c _
  | write => exact fitsAt_writeByte c _
  | scan d n => exact fitsAt_scanBy c d n _
  | transfer d n => exact fitsAt_transferBy c d n _
  | halfScan => exact fitsAt_next c _ _

theorem Action.FitsAt.placed {a : Action} {c c' : Config} {io io' : Streams} {v : Verdict}
    (h : a.FitsAt c c.outOfBounds) (hv : a.perform io = .halt c' v io') : v ≠ .failed (.outOfBounds none) := by
  have hl := h.perform io
  rw [hv] at hl
  obtain ⟨f, rfl, rfl | ⟨e, rfl⟩⟩ := hl
  · intro h
    cases h
  · intro h
    cases h

theorem Local.of_fitsAt {act : α → Config → Action} {f : Config → Failure}
    (h : ∀ a c, (act a c).FitsAt c (f c)) : Local act := by
  intro a c io c' io' hc
  have hl := (h a c).perform io
  rw [hc] at hl
  exact hl

theorem local_idiomatic : Local Idiomatic.act := .of_fitsAt fitsAt_idiomatic

theorem local_native : Local Native.act := .of_fitsAt fitsAt_native

theorem Local.comp {act : β → Config → Action} (h : Local act) (f : α → β) :
    Local fun a => act (f a) :=
  fun a => h (f a)

namespace Follows

variable {step : Step}

theorem map {act : α → Config → Action} {act' : β → Config → Action} {ts : List (Token α)} {f : α → β}
    (hact : ∀ a, act' (f a) = act a) :
    Follows step act' (ts.map (Token.map f)) ↔ Follows step act ts := by
  have hop : ∀ {i : Nat} {a : α}, ts[i]? = some (.op a) →
      (ts.map (Token.map f))[i]? = some (.op (f a)) := by
    intro i a ha
    rw [List.getElem?_map, ha]
    rfl
  constructor
  · intro h
    refine ⟨fun hc => h.past (by simpa using hc), ?_, fun hp => h.opening ((partners_map f).mpr hp),
      fun hp => h.closing ((partners_map f).mpr hp)⟩
    intro c a ha
    rw [h.op (hop ha), hact]
  · intro h
    refine ⟨fun hc => h.past (by simpa using hc), ?_, fun hp => h.opening ((partners_map f).mp hp),
      fun hp => h.closing ((partners_map f).mp hp)⟩
    intro c b hb
    rw [List.getElem?_map] at hb
    obtain ⟨t, ht, htb⟩ := Option.map_eq_some_iff.mp hb
    cases t with
    | op a =>
      cases htb
      rw [h.op ht, hact]
    | bracket b => cases htb

theorem scanning (cs : List Command) : Follows (Scanning.step cs.toArray) Basic.act cs := by
  refine ⟨?_, ?_, ?_, ?_⟩
  · intro c hc
    simp [Scanning.step, hc]
  · intro c a ha
    simp [Scanning.step, ha]
  · intro c j hp
    simp only [Scanning.step, List.getElem?_toArray, hp.2.1, hp.closingOf_eq, Scanning.jump]
    split <;> rfl
  · intro c i hp
    simp only [Scanning.step, List.getElem?_toArray, hp.2.2.1, hp.openingOf_eq, Scanning.jump]
    by_cases hz : c.tape.current = 0
    · simp only [hz, ne_eq, not_true_eq_false, if_false, if_true]
      rfl
    · simp only [hz, ne_eq, not_false_eq_true, if_false, if_true]

theorem code {act : α → Config → Action} {ts : List (Token α)} {code : Code α} (h : Links ts code) :
    Follows (Code.step act code) act ts := by
  refine ⟨?_, ?_, ?_, ?_⟩
  · intro c hc
    simp [Code.step, h.size, hc]
  · intro c a ha
    simp [Code.step, h.op ha]
  · intro c j hp
    have hj : j < code.size := by
      rw [h.size]
      exact (List.getElem?_eq_some_iff.mp hp.2.2.1).1
    simp only [Code.step, h.opening hp, Config.jumpIf, Config.jump, behind?_of_lt hj]
    split <;> rfl
  · intro c i hp
    have hi : i < code.size := by
      rw [h.size]
      exact (List.getElem?_eq_some_iff.mp hp.2.1).1
    simp only [Code.step, h.closing hp, Config.jumpIf, Config.jump, behind?_of_lt hi]
    by_cases hz : c.tape.current = 0
    · simp only [hz, ne_eq, not_true_eq_false, if_false, if_true]
      rfl
    · simp only [hz, ne_eq, not_false_eq_true, if_false, if_true]

end Follows

theorem Scanning.placed {cs : Array Command} {c c' : Config} {io io' : Streams} {v : Verdict}
    (h : (Scanning.step cs c).perform io = .halt c' v io') : v ≠ .failed (.outOfBounds none) := by
  have jump : ∀ {b p}, (Scanning.jump c b p).perform io = .halt c' v io' → v ≠ .failed (.outOfBounds none) := by
    intro b p hj
    cases p with
    | none =>
      cases hj
      intro h
      cases h
    | some i => cases hj
  unfold Scanning.step at h
  split at h
  · cases h
    intro h
    cases h
  · exact (fitsAt_basic _ c).placed h
  · split at h
    · exact jump h
    · cases h
  · split at h
    · exact jump h
    · cases h

/-- Linked code is done, or its jump leads out of it, or one of its operations halts. -/
theorem Code.halts {act : α → Config → Action} {code : Code α} {c c' : Config} {io io' : Streams} {v : Verdict}
    (h : (Code.step act code c).perform io = .halt c' v io') :
    v = .done ∨ v = .crashed ∨ ∃ a, (act a c).perform io = .halt c' v io' := by
  have jump : ∀ {taken : Prop} [Decidable taken] {d : Nat},
      (c.jumpIf taken code.size d).perform io = .halt c' v io' → v = .crashed := by
    intro taken _ d hj
    unfold Config.jumpIf Config.jump at hj
    split at hj
    · split at hj
      · cases hj
      · cases hj
        rfl
    · cases hj
  unfold Code.step at h
  split at h
  · cases h
    exact .inl rfl
  · exact .inr (.inr ⟨_, h⟩)
  · exact .inr (.inl (jump h))
  · exact .inr (.inl (jump h))

theorem Code.placed {act : α → Config → Action} {code : Code α}
    (hact : ∀ a c, (act a c).FitsAt c c.outOfBounds) {c c' : Config} {io io' : Streams} {v : Verdict}
    (h : (Code.step act code c).perform io = .halt c' v io') : v ≠ .failed (.outOfBounds none) := by
  rcases Code.halts h with rfl | rfl | ⟨a, ha⟩
  · intro h
    cases h
  · intro h
    cases h
  · exact (hact a c).placed ha

end TapeMachine
