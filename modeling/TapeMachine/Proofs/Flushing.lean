import TapeMachine.Proofs.Containment
import TapeMachine.Proofs.Event

namespace TapeMachine

namespace Event

def Quiet : Event → Prop
  | fetch _ => True
  | read _ => True
  | _ => False

/-- What may stand in front of a flush that it waits for. -/
def Waits : Event → Prop
  | fetch _ => True
  | write _ none => True
  | _ => False

/-- One flush for each byte. -/
def byteDue : Event → Nat
  | write _ none => 1
  | _ => 0

/-- The beginning of an instruction of a certain kind. -/
def begins (q : Config → Bool) : Event → Bool
  | fetch c => q c
  | _ => false

/-- One flush for each instruction of a certain kind. -/
def fetchDue (q : Config → Bool) (ev : Event) : Nat :=
  if ev.begins q then 1 else 0

theorem sum_fetchDue (q : Config → Bool) (es : List Event) : (es.map (fetchDue q)).sum = es.countP (begins q) := by
  induction es with
  | nil => rfl
  | cons ev es ih =>
    rw [List.map_cons, List.sum_cons, ih, List.countP_cons, fetchDue]
    omega

end Event

def AllFlushed (es : List Event) : Prop :=
  ∀ pre b post, es = pre ++ .write b none :: post → .flush none ∈ post

/-- Each flush closes a piece of the log in which one flush is due. -/
inductive Settled (due : Event → Nat) : List Event → Prop where
  | nil : Settled due []
  | quiet {ev : Event} {es : List Event} : ev.Quiet → due ev = 0 → Settled due es → Settled due (ev :: es)
  | piece {ws es : List Event} : (∀ ev ∈ ws, ev.Waits) → (ws.map due).sum = 1 → Settled due es →
      Settled due (ws ++ .flush none :: es)

namespace Settled

variable {due : Event → Nat} {es fs : List Event}

theorem append (h : Settled due es) (hf : Settled due fs) : Settled due (es ++ fs) := by
  induction h with
  | nil => exact hf
  | quiet hq hd _ ih => exact .quiet hq hd ih
  | piece hw hd _ ih =>
    rw [List.append_assoc, List.cons_append]
    exact .piece hw hd ih

theorem allFlushed (h : Settled due es) : AllFlushed es := by
  induction h with
  | nil =>
    intro pre b post he
    simp at he
  | quiet hq _ _ ih =>
    intro pre b post he
    cases pre with
    | nil =>
      cases he
      exact hq.elim
    | cons x pre =>
      cases he
      exact ih pre b post rfl
  | @piece ws es _ _ _ ih =>
    intro pre b post he
    rcases split_append he with ⟨as, rfl, hrest⟩ | ⟨cs, rfl, rfl⟩
    · cases as with
      | nil => cases hrest
      | cons x as =>
        cases hrest
        exact ih as b post rfl
    · -- the write is in the piece, and so the flush that closes the piece is behind it
      exact List.mem_append_right _ List.mem_cons_self

/-- No read stands between a write and its flush. -/
theorem before_read (h : Settled due es) {pre post : List Event} {a : Except StreamError UInt8}
    (he : es = pre ++ .read a :: post) : Settled due pre := by
  induction h generalizing pre with
  | nil => simp at he
  | quiet hq hd _ ih =>
    cases pre with
    | nil => exact .nil
    | cons x pre =>
      cases he
      exact .quiet hq hd (ih rfl)
  | @piece ws es hw hd _ ih =>
    rcases split_append he with ⟨as, rfl, hrest⟩ | ⟨cs, rfl, -⟩
    · cases as with
      | nil => cases hrest
      | cons x as =>
        cases hrest
        exact .piece hw hd (ih rfl)
    · exact (hw (.read a) (by simp)).elim

theorem flushes_waits {ws : List Event} (hw : ∀ ev ∈ ws, ev.Waits) (io : Streams) :
    (io.after ws).flushes = io.flushes := by
  induction ws generalizing io with
  | nil => rfl
  | cons ev ws ih =>
    rw [Streams.after_cons, ih fun ev h => hw ev (List.mem_cons_of_mem _ h)]
    have hev := hw ev List.mem_cons_self
    match ev with
    | .fetch _ => rfl
    | .write _ none => rfl

/-- There were as many flushes as were due. -/
theorem flushes_eq (h : Settled due es) (hflush : due (.flush none) = 0) (io : Streams) :
    (io.after es).flushes = io.flushes + (es.map due).sum := by
  induction h generalizing io with
  | nil => rfl
  | @quiet ev es hq hd _ ih =>
    have hev : (io.behind ev).flushes = io.flushes := by
      match ev with
      | .fetch _ => rfl
      | .read (.ok _) => rfl
      | .read (.error _) => rfl
    rw [Streams.after_cons, ih, hev, List.map_cons, List.sum_cons, hd, Nat.zero_add]
  | @piece ws es hw hd _ ih =>
    rw [Streams.after_append, Streams.after_cons, ih, Streams.behind]
    simp only [flushes_waits hw, List.map_append, List.sum_append, List.map_cons, List.sum_cons, hd, hflush]
    omega

end Settled

theorem Streams.written_after (io : Streams) (es : List Event) :
    (io.after es).written.size = io.written.size + (es.map Event.byteDue).sum := by
  induction es generalizing io with
  | nil => rfl
  | cons ev es ih =>
    rw [after_cons, ih, List.map_cons, List.sum_cons]
    match ev with
    | .write _ none =>
      simp only [behind, Array.size_push, Event.byteDue]
      omega
    | .fetch _ => simp only [behind, Event.byteDue, Nat.zero_add]
    | .read (.ok _) => simp only [behind, Event.byteDue, Nat.zero_add]
    | .read (.error _) => simp only [behind, Event.byteDue, Nat.zero_add]
    | .write _ (some _) => simp only [behind, Event.byteDue, Nat.zero_add]
    | .flush none => simp only [behind, Event.byteDue, Nat.zero_add]
    | .flush (some _) => simp only [behind, Event.byteDue, Nat.zero_add]

/-- The log of a machine is settled if each of its instructions is. -/
theorem settled_logFor {step : Step} {due : Event → Nat}
    (hstep : ∀ c io, (∀ ev ∈ (step c).events io, ev.Delivered) → Settled due (.fetch c :: (step c).events io))
    {limit : Nat} {c : Config} {io : Streams} (h : ∀ ev ∈ logFor step limit c io, ev.Delivered) :
    Settled due (logFor step limit c io) := by
  induction limit generalizing c io with
  | zero => exact .nil
  | succ limit ih =>
    cases hp : (step c).perform io with
    | resume c' io' =>
      rw [logFor_of_resume hp] at h ⊢
      have hfirst := hstep c io fun ev hev => h ev (List.mem_cons_of_mem _ (List.mem_append_left _ hev))
      exact hfirst.append (ih fun ev hev => h ev (List.mem_append_right _ hev))
    | halt c' v io' =>
      rw [logFor_of_halt hp] at h ⊢
      exact hstep c io fun ev hev => h ev (List.mem_cons_of_mem _ hev)

section Bytes

/-- Each byte is flushed at once; `pending` says that one waits. -/
def Action.Prompt : Action → Bool → Prop
  | resume _, pending => pending = false
  | halt _ _, pending => pending = false
  | read _ granted, pending => pending = false ∧ ∀ b, (granted b).Prompt false
  | write _ _ granted, pending => pending = false ∧ (granted ()).Prompt true
  | flush _ granted, pending => pending = true ∧ (granted ()).Prompt false

theorem Action.Performs.settled {a : Action} {io : Streams} {es : List Event} {p : Reply} (h : a.Performs io es p)
    (hes : ∀ ev ∈ es, ev.Delivered) :
    (a.Prompt false → Settled Event.byteDue es) ∧
      (a.Prompt true → ∀ b, Settled Event.byteDue (.write b none :: es)) := by
  induction h with
  | resume => exact ⟨fun _ => .nil, nofun⟩
  | halt => exact ⟨fun _ => .nil, nofun⟩
  | read _ _ ih =>
    have hrest := ih fun ev hev => hes ev (List.mem_cons_of_mem _ hev)
    exact ⟨fun ha => .quiet trivial rfl (hrest.1 (ha.2 _)), fun ha => nomatch ha.1⟩
  | readRefused => exact ⟨fun _ => .quiet trivial rfl .nil, fun ha => nomatch ha.1⟩
  | write _ _ ih =>
    have hrest := ih fun ev hev => hes ev (List.mem_cons_of_mem _ hev)
    exact ⟨fun ha => hrest.2 ha.2 _, fun ha => nomatch ha.1⟩
  | writeRefused => cases hes _ List.mem_cons_self
  | flush _ _ ih =>
    have hrest := ih fun ev hev => hes ev (List.mem_cons_of_mem _ hev)
    refine ⟨fun ha => (nomatch ha.1), fun ha b => ?_⟩
    have hone : ∀ ev ∈ [Event.write b none], ev.Waits := by simp [Event.Waits]
    exact .piece hone rfl (hrest.1 ha.2)
  | flushRefused => cases hes _ List.mem_cons_self

section Prompt

variable (c : Config) (d : Direction) (n : Nat) (f : Failure)

theorem prompt_moveBy : (c.moveBy d n f).Prompt false := by
  unfold Config.moveBy
  split <;> rfl

theorem prompt_scanBy : (c.scanBy d n f).Prompt false := by
  unfold Config.scanBy
  split
  · rfl
  · split <;> rfl

theorem prompt_transferBy : (c.transferBy d n f).Prompt false := by
  unfold Config.transferBy
  split
  · rfl
  · split <;> rfl

theorem prompt_readEach : (Idiomatic.readEach c n).Prompt false := by
  induction n generalizing c with
  | zero => rfl
  | succ n ih => exact ⟨rfl, fun b => ih ⟨c.pc, c.tape.set b⟩⟩

theorem prompt_writeEach : (Idiomatic.writeEach c n).Prompt false := by
  induction n with
  | zero => rfl
  | succ n ih => exact ⟨rfl, rfl, ih⟩

theorem prompt_readByte : c.readByte.Prompt false :=
  ⟨rfl, fun _ => rfl⟩

theorem prompt_writeByte : c.writeByte.Prompt false :=
  ⟨rfl, rfl, rfl⟩

end Prompt

theorem prompt_basic (b : Basic) (c : Config) : (b.act c).Prompt false := by
  cases b with
  | move d => exact prompt_moveBy c d 1 _
  | increment => rfl
  | decrement => rfl
  | read => exact prompt_readByte c
  | write => exact prompt_writeByte c

theorem prompt_idiomatic (o : Lowered) (c : Config) : (Idiomatic.act o c).Prompt false := by
  match o with
  | .counted (.move d) n => exact prompt_moveBy c d n _
  | .counted .increment _ => rfl
  | .counted .decrement _ => rfl
  | .counted .read n => exact prompt_readEach c n
  | .counted .write n => exact prompt_writeEach c n
  | .clear => rfl
  | .scan 0 _ _ => rfl
  | .scan (_ + 1) d n =>
    rw [Idiomatic.act_scan]
    exact prompt_scanBy c d n _
  | .transfer 0 _ _ => rfl
  | .transfer (_ + 1) d n =>
    rw [Idiomatic.act_transfer]
    exact prompt_transferBy c d n _

theorem prompt_native (o : Native) (c : Config) : (o.act c).Prompt false := by
  cases o with
  | move d n => exact prompt_moveBy c d n _
  | add b => rfl
  | sub b => rfl
  | clear => rfl
  | read => exact prompt_readByte c
  | write => exact prompt_writeByte c
  | scan d n => exact prompt_scanBy c d n _
  | transfer d n => exact prompt_transferBy c d n _
  | halfScan => rfl

section Machines

theorem prompt_jump (c : Config) (size destination : Nat) : (c.jump size destination).Prompt false := by
  unfold Config.jump
  split <;> rfl

theorem prompt_code {α : Type} {act : α → Config → Action} (hact : ∀ a c, (act a c).Prompt false) (code : Code α)
    (c : Config) : (Code.step act code c).Prompt false := by
  have jumpIf : ∀ {taken : Prop} [Decidable taken] {d : Nat}, (c.jumpIf taken code.size d).Prompt false := by
    intro taken _ d
    unfold Config.jumpIf
    split
    · exact prompt_jump c _ _
    · rfl
  unfold Code.step
  split
  · rfl
  · exact hact _ c
  · exact jumpIf
  · exact jumpIf

theorem prompt_scanning (code : Array Command) (c : Config) : (Scanning.step code c).Prompt false := by
  have jump : ∀ {b : Bracket} {partner : Option Nat}, (Scanning.jump c b partner).Prompt false := by
    intro b partner
    cases partner <;> rfl
  unfold Scanning.step
  split
  · rfl
  · exact prompt_basic _ c
  · split
    · exact jump
    · rfl
  · split
    · exact jump
    · rfl

theorem prompt_tabled (p : TabledProgram) (c : Config) : (p.step c).Prompt false := by
  have jump : (p.jump c).Prompt false := by
    unfold TabledProgram.jump
    split
    · exact prompt_jump c _ _
    · rfl
  unfold TabledProgram.step
  split
  · rfl
  · exact prompt_basic _ c
  · split
    · exact jump
    · rfl
  · split
    · exact jump
    · rfl

theorem Engine.Loads.prompt {e : Engine} {target : Target} {text : String} {step : Step} {size : Nat}
    (h : e.Loads target text step size) (he : e ≠ .grouped) (c : Config) : (step c).Prompt false := by
  cases h with
  | scanning => exact prompt_scanning _ c
  | tabled => exact prompt_tabled _ c
  | grouped => exact absurd rfl he
  | idiomatic => exact prompt_code prompt_idiomatic _ c
  | plainNative => exact prompt_code prompt_native _ c
  | idiomaticNative => exact prompt_code prompt_native _ c

end Machines

end Bytes

section Batches

/-- The instruction of the configuration is a counted write. -/
def Grouped.writes (p : Program) (c : Config) : Bool :=
  match p[c.pc]? with
  | some (.op ⟨.write, _⟩) => true
  | _ => false

namespace Grouped

variable {c : Config} {n : Nat} {io : Streams} {es : List Event} {r : Reply}

theorem settled_readLast {due : Event → Nat} (hdue : ∀ a, due (.read a) = 0) {last : UInt8}
    (h : (readLast c last n).Performs io es r) : Settled due es := by
  induction n generalizing last io es with
  | zero =>
    obtain ⟨pc, t⟩ := c
    cases h
    exact .nil
  | succ n ih =>
    cases h with
    | read _ h => exact .quiet trivial (hdue _) (ih h)
    | readRefused => exact .quiet trivial (hdue _) .nil

/-- The bytes of a counted write wait for one flush. -/
theorem events_writeAll (h : (writeAll c n).Performs io es r) (hes : ∀ ev ∈ es, ev.Delivered) :
    es = List.replicate n (.write c.tape.current none) ++ [.flush none] := by
  induction n generalizing io es with
  | zero =>
    cases h with
    | flush _ h =>
      cases h
      rfl
    | flushRefused => cases hes _ List.mem_cons_self
  | succ n ih =>
    cases h with
    | write _ h => rw [ih h fun ev hev => hes ev (List.mem_cons_of_mem _ hev)]; rfl
    | writeRefused => cases hes _ List.mem_cons_self

theorem settled_writeAll {p : Program} (hp : writes p c = true) (h : (writeAll c n).Performs io es r)
    (hes : ∀ ev ∈ es, ev.Delivered) : Settled (Event.fetchDue (writes p)) (.fetch c :: es) := by
  have hwaits : ∀ ev ∈ .fetch c :: List.replicate n (Event.write c.tape.current none), ev.Waits := by
    intro ev hev
    rcases List.mem_cons.mp hev with rfl | hev
    · trivial
    · rw [List.eq_of_mem_replicate hev]
      trivial
  have hdue : ((.fetch c :: List.replicate n (Event.write c.tape.current none)).map (Event.fetchDue (writes p))).sum =
      1 := by simp [Event.fetchDue, Event.begins, hp]
  rw [events_writeAll h hes]
  exact .piece hwaits hdue .nil

theorem events_jumpIf (c : Config) (taken : Prop) [Decidable taken] (size destination : Nat) (io : Streams) :
    (c.jumpIf taken size destination).events io = [] := by
  unfold Config.jumpIf Config.jump
  split
  · split <;> rfl
  · rfl

theorem events_moveBy (c : Config) (d : Direction) (n : Nat) (f : Failure) (io : Streams) :
    (c.moveBy d n f).events io = [] := by
  unfold Config.moveBy
  split <;> rfl

theorem settled_act {due : Event → Nat} (hdue : ∀ a, due (.read a) = 0) {b : Basic} (hb : b ≠ .write) :
    Settled due ((act ⟨b, n⟩ c).events io) := by
  have hperforms := (act ⟨b, n⟩ c).performs io
  cases b with
  | move d =>
    have hevents : (act ⟨.move d, n⟩ c).events io = [] := events_moveBy c d n _ io
    rw [hevents]
    exact .nil
  | increment => exact .nil
  | decrement => exact .nil
  | read => exact settled_readLast hdue hperforms
  | write => exact absurd rfl hb

/-- A counted write is settled by its flush; in front of anything else nothing is due. -/
theorem settled_step (p : Program) (c : Config) (io : Streams) (hes : ∀ ev ∈ (step p c).events io, ev.Delivered) :
    Settled (Event.fetchDue (writes p)) (.fetch c :: (step p c).events io) := by
  have hperforms := (step p c).performs io
  have other : writes p c = false → Settled (Event.fetchDue (writes p)) ((step p c).events io) →
      Settled (Event.fetchDue (writes p)) (.fetch c :: (step p c).events io) :=
    fun hw hs => .quiet trivial (by simp [Event.fetchDue, Event.begins, hw]) hs
  cases hi : p[c.pc]? with
  | none =>
    have hstep : step p c = .halt c .done := by simp only [step, Code.step, hi]
    rw [hstep] at other ⊢
    exact other (by simp only [writes, hi]) .nil
  | some x =>
    cases x with
    | op r =>
      obtain ⟨b, n⟩ := r
      have hstep : step p c = act ⟨b, n⟩ c := by simp only [step, Code.step, hi]
      rw [hstep] at hes other hperforms ⊢
      by_cases hb : b = .write
      · subst hb
        have hw : writes p c = true := by simp only [writes, hi]
        exact settled_writeAll hw hperforms hes
      · exact other (by simp [writes, hi, hb]) (settled_act (fun _ => rfl) hb)
    | ifZero d =>
      have hstep : step p c = c.jumpIf (c.tape.current = 0) p.size d := by simp only [step, Code.step, hi]
      rw [hstep, events_jumpIf] at other ⊢
      exact other (by simp only [writes, hi]) .nil
    | ifNonzero d =>
      have hstep : step p c = c.jumpIf (c.tape.current ≠ 0) p.size d := by simp only [step, Code.step, hi]
      rw [hstep, events_jumpIf] at other ⊢
      exact other (by simp only [writes, hi]) .nil

end Grouped

end Batches

section Engines

variable {e : Engine} {text : String}

/-- The flushes that an engine owes. -/
def Engine.due (e : Engine) (text : String) : Event → Nat :=
  match e with
  | .grouped =>
    match Grouped.ofCommands (Source.commands text) with
    | .ok p => Event.fetchDue (Grouped.writes p)
    | .error _ => Event.byteDue
  | _ => Event.byteDue

theorem Engine.due_of_ne (he : e ≠ .grouped) : e.due text = Event.byteDue := by
  cases e with
  | grouped => exact absurd rfl he
  | _ => rfl

theorem Engine.due_grouped {p : Grouped.Program} (hp : Grouped.ofCommands (Source.commands text) = .ok p) :
    Engine.grouped.due text = Event.fetchDue (Grouped.writes p) := by
  simp only [due, hp]

theorem Engine.settled_log {limit : Nat} {io : Streams} (h : ∀ ev ∈ e.log target limit text io, ev.Delivered) :
    Settled (e.due text) (e.log target limit text io) := by
  cases hprepare : e.prepare target text with
  | error f =>
    rw [log_of_error hprepare]
    exact .nil
  | ok step =>
    rw [log_of_prepare hprepare] at h ⊢
    obtain ⟨size, hload⟩ := loads_of_prepare hprepare
    refine settled_logFor (fun c io hes => ?_) h
    by_cases he : e = .grouped
    · subst he
      cases hload with
      | grouped hp =>
        rw [due_grouped hp]
        exact Grouped.settled_step _ c io hes
    · rw [due_of_ne he]
      exact .quiet trivial rfl ((((step c).performs io).settled hes).1 (hload.prompt he c))

/-- After this log no byte waits to be flushed, and there was one flush for each byte, or for each counted write that was
begun. -/
structure Engine.Flushed (e : Engine) (text : String) (io : Streams) (es : List Event) : Prop where
  all : AllFlushed es
  bytes : e ≠ .grouped → (io.after es).flushes = (io.after es).written.size
  batches : ∀ p, e = .grouped → Grouped.ofCommands (Source.commands text) = .ok p →
    (io.after es).flushes = es.countP (Event.begins (Grouped.writes p))

theorem Settled.flushed {es : List Event} (h : Settled (e.due text) es) (input : List UInt8) (faults : Faults) :
    e.Flushed text (.start input faults) es := by
  have hstart : (Streams.start input faults).flushes = 0 ∧ (Streams.start input faults).written.size = 0 := ⟨rfl, rfl⟩
  refine ⟨h.allFlushed, ?_, ?_⟩
  · intro he
    rw [Engine.due_of_ne he] at h
    rw [h.flushes_eq rfl, Streams.written_after, hstart.1, hstart.2]
  · intro p he hp
    subst he
    rw [Engine.due_grouped hp] at h
    rw [h.flushes_eq rfl, Event.sum_fetchDue, hstart.1, Nat.zero_add]

end Engines

/-- As long as no write and no flush is refused, all output is flushed whenever a byte is asked for and when the run
ends, and no more is flushed than that. -/
theorem output_is_flushed {e : Engine} {target : Target} {text : String} {input : List UInt8} {faults : Faults}
    {limit : Nat} (h : ∀ ev ∈ e.log target limit text (.start input faults), ev.Delivered) :
    (∀ pre a post, e.log target limit text (.start input faults) = pre ++ .read a :: post →
      e.Flushed text (.start input faults) pre) ∧
    ∀ x, e.run? target limit text (.start input faults) = some x →
      x.io = (Streams.start input faults).after (e.log target limit text (.start input faults)) ∧
      e.Flushed text (.start input faults) (e.log target limit text (.start input faults)) := by
  have hsettled := Engine.settled_log h
  refine ⟨fun pre a post he => ?_, fun x hx => ?_⟩
  · exact (hsettled.before_read he).flushed input faults
  · exact ⟨Engine.run?_io hx, hsettled.flushed input faults⟩

/-- Two bytes are flushed together before the input turns out to be at its end. -/
theorem output_is_flushed_batch : ∃ x, Engine.grouped.run? .standard 10 "+..," (.start [] {}) = some x ∧
    x.verdict = .failed (.stream .endOfInput) ∧ x.io.written = #[1, 1] ∧
    Engine.grouped.Flushed "+..," (.start [] {}) (Engine.grouped.log .standard 10 "+..," (.start [] {})) := by
  have hrun : ∃ x, Engine.grouped.run? .standard 10 "+..," (.start [] {}) = some x ∧
      x.verdict = .failed (.stream .endOfInput) ∧ x.io.written = #[1, 1] := ⟨_, rfl, rfl, rfl⟩
  obtain ⟨x, hx, hv, hw⟩ := hrun
  have hdelivered : ∀ ev ∈ Engine.grouped.log .standard 10 "+..," (.start [] {}), ev.Delivered := by decide
  exact ⟨x, hx, hv, hw, ((output_is_flushed hdelivered).2 x hx).2⟩

end TapeMachine
