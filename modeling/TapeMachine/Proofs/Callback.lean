import TapeMachine.Proofs.Compiled
import TapeMachine.Proofs.Event
import TapeMachine.Proofs.Host

namespace TapeMachine

namespace Host

def runtime (h : Host) : Runtime where
  tape := h.tape
  io := h.callbacks.io

/-- A runtime does the same on memory and callbacks as on a tape and streams. -/
theorem run?_eq_runtime {code : Code Native} (hcode : Native.Compiled code) (limit : Nat) (h : Host) :
    (h.runtime.run? limit code = none ∧ h.run? limit code = none) ∨
      ∃ v r left, h.runtime.run? limit code = some (v, r) ∧
        h.run? limit code = some (v, ⟨h.layout, r.tape, ⟨r.io, left⟩⟩) ∧ (left = none ∨ left = h.callbacks.slot) := by
  obtain ⟨l, t, io, slot⟩ := h
  simp only [run?, Runtime.run?, runtime]
  rcases Native.report_flowFor l slot hcode limit (.start t) io with
    ⟨hrun, hflow⟩ | ⟨x, e, k, left, hrun, hflow, hreport, hleft⟩
  · rw [hrun, hflow]
    exact .inl ⟨rfl, rfl⟩
  · rw [hrun, hflow]
    refine .inr ⟨x.verdict, ⟨x.config.tape, x.io⟩, left, rfl, ?_, hleft⟩
    simp only [hreport]

end Host

def Event.Refuses (e : StreamError) : Event → Prop
  | .fetch _ => False
  | .read answer => answer = .error e
  | .write _ refusal => refusal = some e
  | .flush refusal => refusal = some e

/-- The action does not end by itself with an error of a stream. -/
def Action.Blameless : Action → Prop
  | resume _ => True
  | halt _ v => ∀ e, v ≠ .failed (.stream e)
  | read _ granted => ∀ b, (granted b).Blameless
  | write _ _ granted => (granted ()).Blameless
  | flush _ granted => (granted ()).Blameless

theorem Action.Performs.exists_refuses {a : Action} {io io' : Streams} {es : List Event} {c : Config} {e : StreamError}
    (h : a.Performs io es (.halt c (.failed (.stream e)) io')) (ha : a.Blameless) : ∃ ev ∈ es, ev.Refuses e := by
  generalize hp : Reply.halt c (.failed (.stream e)) io' = p at h
  have later : ∀ {ev : Event} {es : List Event}, (∃ x ∈ es, x.Refuses e) → ∃ x ∈ ev :: es, x.Refuses e :=
    fun ⟨x, hx, hr⟩ => ⟨x, List.mem_cons_of_mem _ hx, hr⟩
  induction h with
  | resume => cases hp
  | halt =>
    cases hp
    exact absurd rfl (ha e)
  | read _ _ ih => exact later (ih (ha _) hp)
  | write _ _ ih => exact later (ih ha hp)
  | flush _ _ ih => exact later (ih ha hp)
  | readRefused =>
    cases hp
    exact ⟨_, List.mem_cons_self, rfl⟩
  | writeRefused =>
    cases hp
    exact ⟨_, List.mem_cons_self, rfl⟩
  | flushRefused =>
    cases hp
    exact ⟨_, List.mem_cons_self, rfl⟩

/-- If the steps are blameless, an error of a stream that ends a run was met in this run. -/
theorem exists_refuses_of_runFor {step : Step} (hstep : ∀ c, (step c).Blameless) {limit : Nat} {c c' : Config}
    {io io' : Streams} {e : StreamError} (h : runFor step limit c io = some ⟨.failed (.stream e), c', io'⟩) :
    ∃ ev ∈ logFor step limit c io, ev.Refuses e := by
  induction limit generalizing c io with
  | zero => cases h
  | succ limit ih =>
    have hperforms := (step c).performs io
    rw [runFor] at h
    split at h
    · rename_i hp
      obtain ⟨ev, hev, hr⟩ := ih h
      rw [logFor_of_resume hp]
      exact ⟨ev, List.mem_append_right _ hev, hr⟩
    · rename_i hp
      cases h
      rw [hp] at hperforms
      obtain ⟨ev, hev, hr⟩ := hperforms.exists_refuses (hstep c)
      rw [logFor_of_halt hp]
      exact ⟨ev, List.mem_cons_of_mem _ hev, hr⟩

section Blameless

theorem blameless_fail (c : Config) (pc? : Option Nat) : (Action.halt c (.failed (.outOfBounds pc?))).Blameless :=
  fun _ h => nomatch h

section Blocks

variable (c : Config) (d : Direction) (n : Nat) (pc? : Option Nat)

theorem blameless_moveBy : (c.moveBy d n (.outOfBounds pc?)).Blameless := by
  unfold Config.moveBy
  split
  · trivial
  · exact blameless_fail c pc?

theorem blameless_scanBy : (c.scanBy d n (.outOfBounds pc?)).Blameless := by
  unfold Config.scanBy
  split
  · trivial
  · split
    · trivial
    · exact blameless_fail c pc?

theorem blameless_transferBy : (c.transferBy d n (.outOfBounds pc?)).Blameless := by
  unfold Config.transferBy
  split
  · trivial
  · split
    · trivial
    · exact blameless_fail c pc?

theorem blameless_jump (size destination : Nat) : (c.jump size destination).Blameless := by
  unfold Config.jump
  split
  · trivial
  · exact fun _ h => nomatch h

end Blocks

theorem blameless_native (o : Native) (c : Config) : (o.act c).Blameless := by
  cases o with
  | move d n => exact blameless_moveBy c d n none
  | scan d n => exact blameless_scanBy c d n none
  | transfer d n => exact blameless_transferBy c d n none
  | read => exact fun _ => trivial
  | _ => trivial

/-- Jumps are never to blame, so that linked code is blameless if its operations are. -/
theorem blameless_code {α : Type} {act : α → Config → Action} (hact : ∀ a c, (act a c).Blameless) (code : Code α)
    (c : Config) : (Code.step act code c).Blameless := by
  have jumpIf : ∀ {taken : Prop} [Decidable taken] {d : Nat}, (c.jumpIf taken code.size d).Blameless := by
    intro taken _ d
    unfold Config.jumpIf
    split
    · exact blameless_jump c _ _
    · trivial
  unfold Code.step
  split
  · exact fun _ h => nomatch h
  · exact hact _ c
  · exact jumpIf
  · exact jumpIf

theorem blameless_step (code : Code Native) (c : Config) : (Native.step code c).Blameless :=
  blameless_code blameless_native code c

end Blameless

theorem Config.start_eq {t u : Tape} (h : t.SameCells u) : Config.start t = .start u := by
  have hcells : t.cells = u.cells := h
  simp only [start, Tape.rewind, hcells]

section Slot

variable {l : Layout} {code : Code Native} {slot : Option StreamError}

/-- Whatever is run, only a refusal fills the slot, and it is what the code returns for. -/
inductive Native.Flow.Keeps (slot : Option StreamError) : Native.Flow → Prop where
  | next (c : Config) (io : Streams) : Keeps slot (.next c ⟨io, slot⟩)
  | exit (c : Config) (x : Native.Ending) (io : Streams) : Keeps slot (.exit c x ⟨io, slot⟩)
  | refused (c : Config) (k : Callbacks) : Keeps slot (.exit c (.returned Status.ioError) k)

theorem Native.Fits.keeps {p : Reply} {q : Flow} (h : Fits slot p q) : q.Keeps slot := by
  cases h with
  | next c io => exact .next c io
  | done c io => exact .exit c _ io
  | off c io => exact .exit c _ io
  | refused c e io => exact .refused c _

theorem Native.keeps_exec (l : Layout) (o : Native) (c : Config) (io : Streams) :
    (o.exec l c ⟨io, slot⟩).Keeps slot := by
  have of_encodable : ∀ {o : Native}, o.Encodable → (o.exec l c ⟨io, slot⟩).Keeps slot := fun ho =>
    (fits_exec ho c io).keeps
  cases o with
  | move d n =>
    rw [exec]
    split
    · exact .next _ io
    · exact .exit _ _ io
  | scan d n =>
    rw [exec]
    split
    · exact .next _ io
    · split
      · exact .next _ io
      · exact .exit _ _ io
  | transfer d n =>
    rw [exec]
    split
    · exact .next _ io
    · split
      · exact .next _ io
      · exact .exit _ _ io
  | halfScan => exact .next _ io
  | _ => exact of_encodable trivial

theorem Native.keeps_flow (l : Layout) (code : Code Native) (c : Config) (io : Streams) :
    (flow l code c ⟨io, slot⟩).Keeps slot := by
  unfold flow
  split
  · exact .exit _ _ io
  · exact keeps_exec l _ c io
  · exact .next _ io
  · exact .next _ io

theorem Callbacks.slot_report (k : Callbacks) (x : Native.Ending) :
    (k.report x).2.slot = none ∨ (k.report x).2.slot = k.slot := by
  cases x with
  | killed => exact .inr rfl
  | returned s =>
    by_cases hs : s = Status.ioError
    · subst hs
      exact .inl rfl
    · refine .inr ?_
      simp only [report, hs, if_false]
      repeat' split
      all_goals rfl

theorem Native.slot_of_flowFor {limit : Nat} {c c' : Config} {io : Streams} {x : Ending} {k : Callbacks}
    (h : flowFor l code limit c ⟨io, slot⟩ = some (c', x, k)) :
    (k.report x).2.slot = none ∨ (k.report x).2.slot = slot := by
  induction limit generalizing c io with
  | zero => cases h
  | succ limit ih =>
    have hkeeps : (flow l code c ⟨io, slot⟩).Keeps slot := keeps_flow l code c io
    rw [flowFor] at h
    generalize flow l code c ⟨io, slot⟩ = p at h hkeeps
    cases hkeeps with
    | next c' io' => exact ih h
    | exit c' x io' =>
      cases h
      exact Callbacks.slot_report _ x
    | refused c' k' =>
      cases h
      exact .inl rfl

theorem Host.slot_of_run? {h k : Host} {limit : Nat} {v : Verdict} (hk : h.run? limit code = some (v, k)) :
    k.callbacks.slot = none ∨ k.callbacks.slot = h.callbacks.slot := by
  rw [run?] at hk
  split at hk
  · cases hk
    exact Native.slot_of_flowFor ‹_›
  · cases hk

end Slot

/-- A run of the code has the result that it has on a tape with these cells and on these streams. Neither where the head
stands nor what is in the slot matters, and an error of a stream is one that a request of this run was refused with. -/
structure Host.Afresh (h : Host) (code : Code Native) : Prop where
  result : ∀ limit t, t.SameCells h.tape →
    (h.run? limit code).map (fun x => (x.1, x.2.runtime)) = Runtime.run? limit code ⟨t, h.callbacks.io⟩
  refused : ∀ {limit e k}, h.run? limit code = some (.failed (.stream e), k) →
    ∃ ev ∈ logFor (Native.step code) limit (.start h.tape) h.callbacks.io, ev.Refuses e

namespace Host

theorem afresh (h : Host) {code : Code Native} (hcode : Native.Compiled code) : h.Afresh code := by
  refine ⟨?_, ?_⟩
  · intro limit t ht
    have hstart : Runtime.run? limit code ⟨t, h.callbacks.io⟩ = h.runtime.run? limit code := by
      simp only [Runtime.run?, runtime, Config.start_eq ht]
    rw [hstart]
    rcases run?_eq_runtime hcode limit h with ⟨hr, hh⟩ | ⟨v, r, left, hr, hh, -⟩
    · rw [hr, hh]
      rfl
    · rw [hr, hh]
      rfl
  · intro limit e k hk
    rcases run?_eq_runtime hcode limit h with ⟨-, hh⟩ | ⟨v, r, left, hr, hh, -⟩
    · cases hh.symm.trans hk
    · cases hh.symm.trans hk
      unfold Runtime.run? at hr
      split at hr
      · rename_i x hx
        obtain ⟨v, c, io⟩ := x
        cases hr
        exact exists_refuses_of_runFor (blameless_step code) hx
      · cases hr

/-- A host after runs of code, one after the other, however they ended. -/
inductive Later (h : Host) : Host → Prop where
  | refl : Later h h
  | run {k k' : Host} {limit : Nat} {code : Code Native} {v : Verdict} :
      Later h k → k.run? limit code = some (v, k') → Later h k'

/-- Between the runs no error is kept. -/
theorem Later.slot_eq_none {h k : Host} (hk : h.Later k) (hh : h.callbacks.slot = none) : k.callbacks.slot = none := by
  induction hk with
  | refl => exact hh
  | run _ hrun ih =>
    rcases slot_of_run? hrun with hnone | hsame
    · exact hnone
    · exact hsame.trans ih

end Host

end TapeMachine
