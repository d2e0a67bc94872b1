import TapeMachine.Proofs.Blame
import TapeMachine.Proofs.Fault

namespace TapeMachine

abbrev Event.exhausted : Event :=
  .read (.error .endOfInput)

abbrev Verdict.exhausted : Verdict :=
  .failed (.stream .endOfInput)

def Event.taken : Event → List UInt8
  | read (.ok b) => [b]
  | _ => []

/-- The bytes that are read in a log. -/
def taken (es : List Event) : List UInt8 :=
  es.flatMap Event.taken

@[simp]
theorem taken_nil : taken [] = [] :=
  rfl

@[simp]
theorem taken_cons (ev : Event) (es : List Event) : taken (ev :: es) = ev.taken ++ taken es :=
  rfl

theorem taken_fetch (c : Config) (es : List Event) : taken (.fetch c :: es) = taken es :=
  rfl

theorem taken_append (es fs : List Event) : taken (es ++ fs) = taken es ++ taken fs :=
  List.flatMap_append

/-- Nothing stands behind a request that is refused. -/
theorem Unbroken.eq_nil_of_refused {pre post : List Event} {ev : Event} (h : Unbroken (pre ++ ev :: post))
    (hev : ¬ ev.Granted) : post = [] := by
  cases post with
  | nil => rfl
  | cons x post =>
    rw [← List.singleton_append, ← List.append_assoc] at h
    exact absurd (h.granted ev (List.mem_append_right _ List.mem_cons_self)) hev

namespace Streams

variable {io io' : Streams} {e : StreamError}

def withInput (io : Streams) (bs : List UInt8) : Streams :=
  { io with input := bs }

theorem consumed_after (io : Streams) (es : List Event) : (io.after es).consumed = io.consumed + (taken es).length := by
  induction es generalizing io with
  | nil => rfl
  | cons ev es ih =>
    rw [after_cons, ih, taken_cons, List.length_append]
    match ev with
    | .read (.ok _) =>
      show io.consumed + 1 + _ = io.consumed + (1 + _)
      omega
    | .fetch _ | .read (.error _) | .write _ none | .write _ (some _) | .flush none | .flush (some _) =>
      simp [behind, Event.taken]

theorem after_withInput (io : Streams) (bs : List UInt8) (es : List Event) :
    (io.withInput (taken es ++ bs)).after es = (io.after es).withInput bs := by
  induction es generalizing io with
  | nil => rfl
  | cons ev es ih =>
    rw [after_cons, after_cons, ← ih]
    match ev with
    | .fetch _ | .read (.ok _) | .read (.error _) | .write _ none | .write _ (some _) | .flush none | .flush (some _) => rfl

theorem read_ok {b : UInt8} (h : io.read = (.ok b, io')) (bs : List UInt8) :
    io.input = b :: io'.input ∧ (io.withInput (b :: bs)).read = (.ok b, io'.withInput bs) := by
  unfold read at h
  split at h
  · cases h
  · rename_i hbegun
    split at h
    · cases h
    · rename_i hinput
      cases h
      refine ⟨hinput, ?_⟩
      rw [read, withInput, if_neg hbegun]
      rfl

theorem read_endOfInput (h : io.read = (.error .endOfInput, io')) : io.input = [] ∧ io' = io := by
  unfold read at h
  split at h
  · cases h
  · split at h
    · rename_i hinput
      cases h
      exact ⟨hinput, rfl⟩
    · cases h

/-- A failing stream does not look at the input. -/
theorem read_failed (h : io.read = (.error e, io')) (he : e ≠ .endOfInput) (bs : List UInt8) :
    (io.withInput bs).read = (.error e, io'.withInput bs) := by
  unfold read at h
  split at h
  · rename_i hbegun
    cases h
    rw [read, withInput, if_pos hbegun]
  · split at h
    · cases h
      exact absurd rfl he
    · cases h

theorem write_withInput {b : UInt8} {a : Option StreamError} (h : io.write b = (a, io')) (bs : List UInt8) :
    (io.withInput bs).write b = (a, io'.withInput bs) := by
  have hwrite : (io.withInput bs).write b = ((io.write b).1, (io.write b).2.withInput bs) := by
    by_cases hw : begun io.faults.writeFail io.written.size = true
    · simp [write, withInput, hw]
    · by_cases hf : begun io.faults.writeFull io.written.size = true
      · simp [write, withInput, hw, hf]
      · simp [write, withInput, hw, hf]
  rw [hwrite, h]

theorem flush_withInput {a : Option StreamError} (h : io.flush = (a, io')) (bs : List UInt8) :
    (io.withInput bs).flush = (a, io'.withInput bs) := by
  have hflush : (io.withInput bs).flush = (io.flush.1, io.flush.2.withInput bs) := by
    by_cases hf : begun io.faults.flushFail io.flushes = true
    · simp [flush, withInput, hf]
    · simp [flush, withInput, hf]
  rw [hflush, h]

theorem write_ne_endOfInput {b : UInt8} (h : io.write b = (some e, io')) : e ≠ .endOfInput := by
  rintro rfl
  unfold write at h
  split at h
  · cases h
  · split at h
    · cases h
    · cases h

theorem flush_ne_endOfInput (h : io.flush = (some e, io')) : e ≠ .endOfInput := by
  rintro rfl
  unfold flush at h
  split at h
  · cases h
  · cases h

end Streams

def Reply.withInput (bs : List UInt8) : Reply → Reply
  | resume c io => .resume c (io.withInput bs)
  | halt c v io => .halt c v (io.withInput bs)

def Ended.withInput (bs : List UInt8) (x : Ended) : Ended :=
  { x with io := x.io.withInput bs }

section Action

variable {a : Action} {io : Streams} {es : List Event} {p : Reply}

/-- What is read is taken from the front of the input. -/
theorem Action.Performs.input_eq (h : a.Performs io es p) : io.input = taken es ++ p.io.input := by
  induction h with
  | resume => rfl
  | halt => rfl
  | @read _ _ b io io' _ _ hr _ ih =>
    have hinput := (Streams.read_ok hr []).1
    rw [hinput, ih]
    rfl
  | readRefused hr => rw [taken_cons, Reply.io, Streams.eq_behind_read hr]; rfl
  | write hr _ ih =>
    rw [Streams.eq_behind_write hr] at ih
    exact ih
  | writeRefused hr => rw [taken_cons, Reply.io, Streams.eq_behind_write hr]; rfl
  | flush hr _ ih =>
    rw [Streams.eq_behind_flush hr] at ih
    exact ih
  | flushRefused hr => rw [taken_cons, Reply.io, Streams.eq_behind_flush hr]; rfl

/-- Behind what an action reads the input may be any other. -/
theorem Action.Performs.withInput (h : a.Performs io es p) (hes : .exhausted ∉ es) (bs : List UInt8) :
    a.Performs (io.withInput (taken es ++ bs)) es (p.withInput bs) := by
  induction h with
  | resume => exact .resume
  | halt => exact .halt
  | read hr _ ih =>
    have hrest := ih fun hmem => hes (List.mem_cons_of_mem _ hmem)
    exact .read (Streams.read_ok hr _).2 hrest
  | readRefused hr =>
    refine .readRefused (Streams.read_failed hr ?_ _)
    rintro rfl
    exact hes List.mem_cons_self
  | write hr _ ih =>
    have hrest := ih fun hmem => hes (List.mem_cons_of_mem _ hmem)
    exact .write (Streams.write_withInput hr _) hrest
  | writeRefused hr => exact .writeRefused (Streams.write_withInput hr _)
  | flush hr _ ih =>
    have hrest := ih fun hmem => hes (List.mem_cons_of_mem _ hmem)
    exact .flush (Streams.flush_withInput hr _) hrest
  | flushRefused hr => exact .flushRefused (Streams.flush_withInput hr _)

theorem Action.exists_events_read (c : Config) (granted : UInt8 → Action) (io : Streams) :
    ∃ es, (Action.read c granted).events io = .read io.read.1 :: es := by
  rw [events]
  split
  · rename_i hr
    rw [hr]
    exact ⟨_, rfl⟩
  · rename_i hr
    rw [hr]
    exact ⟨[], rfl⟩

/-- Up to a request for a byte the requests are the same on any input that begins with what was read. -/
theorem Action.Performs.read_withInput {pre post : List Event} {r : Except StreamError UInt8}
    (h : a.Performs io (pre ++ .read r :: post) p) : (io.after pre).read.1 = r ∧ ∀ bs, ∃ post',
      a.events (io.withInput (taken pre ++ bs)) = pre ++ .read ((io.after pre).withInput bs).read.1 :: post' := by
  induction pre generalizing a io with
  | nil =>
    rw [List.nil_append] at h
    cases h with
    | read hr => exact ⟨congrArg Prod.fst hr, fun bs => exists_events_read _ _ _⟩
    | readRefused hr => exact ⟨congrArg Prod.fst hr, fun bs => exists_events_read _ _ _⟩
  | cons ev pre ih =>
    rw [List.cons_append] at h
    generalize hes : pre ++ .read r :: post = es at h
    cases h with
    | read hr h =>
      obtain ⟨hread, hevents⟩ := ih (hes ▸ h)
      rw [Streams.eq_behind_read hr] at hread hevents hr
      refine ⟨hread, fun bs => ?_⟩
      obtain ⟨post', hpost⟩ := hevents bs
      have hfirst := (Streams.read_ok hr (taken pre ++ bs)).2
      refine ⟨post', ?_⟩
      rw [events, taken_cons, Event.taken, List.append_assoc, List.singleton_append, hfirst]
      exact congrArg _ hpost
    | write hr h =>
      obtain ⟨hread, hevents⟩ := ih (hes ▸ h)
      rw [Streams.eq_behind_write hr] at hread hevents hr
      refine ⟨hread, fun bs => ?_⟩
      obtain ⟨post', hpost⟩ := hevents bs
      refine ⟨post', ?_⟩
      rw [events, Streams.write_withInput hr]
      exact congrArg _ hpost
    | flush hr h =>
      obtain ⟨hread, hevents⟩ := ih (hes ▸ h)
      rw [Streams.eq_behind_flush hr] at hread hevents hr
      refine ⟨hread, fun bs => ?_⟩
      obtain ⟨post', hpost⟩ := hevents bs
      refine ⟨post', ?_⟩
      rw [events, Streams.flush_withInput hr]
      exact congrArg _ hpost
    | readRefused => simp at hes
    | writeRefused => simp at hes
    | flushRefused => simp at hes

/-- An action ends at the end of the input when it asks for a byte there, and only then. -/
theorem Action.Performs.exhausted_iff {c : Config} {v : Verdict} {io' : Streams} (h : a.Performs io es (.halt c v io'))
    (ha : a.Blameless) : v = .exhausted ↔ .exhausted ∈ es := by
  generalize hp : Reply.halt c v io' = p at h
  have later : ∀ (ev : Event) {es : List Event}, ev ≠ .exhausted →
      ((v = .exhausted ↔ .exhausted ∈ es) ↔ (v = .exhausted ↔ .exhausted ∈ ev :: es)) := by
    intro ev es hev
    rw [List.mem_cons, or_iff_right hev.symm]
  induction h with
  | resume => cases hp
  | halt =>
    cases hp
    simpa using ha .endOfInput
  | read _ _ ih => exact (later (.read (.ok _)) nofun).mp (ih (ha _) hp)
  | write _ _ ih => exact (later (.write _ none) nofun).mp (ih ha hp)
  | flush _ _ ih => exact (later (.flush none) nofun).mp (ih ha hp)
  | readRefused =>
    cases hp
    simp [eq_comm]
  | writeRefused hr =>
    cases hp
    simpa using Streams.write_ne_endOfInput hr
  | flushRefused hr =>
    cases hp
    simpa using Streams.flush_ne_endOfInput hr

end Action

section Run

variable {step : Step} {limit : Nat} {c : Config} {io : Streams} {x : Ended}

theorem logFor_add (h : runFor step limit c io = some x) (k : Nat) :
    logFor step (limit + k) c io = logFor step limit c io := by
  induction limit generalizing c io with
  | zero => cases h
  | succ limit ih =>
    rw [runFor] at h
    rw [Nat.succ_add]
    split at h
    · rename_i hp
      rw [logFor_of_resume hp, logFor_of_resume hp, ih h]
    · rename_i hp
      rw [logFor_of_halt hp, logFor_of_halt hp]

theorem input_logFor (step : Step) (limit : Nat) (c : Config) (io : Streams) :
    io.input = taken (logFor step limit c io) ++ (io.after (logFor step limit c io)).input := by
  induction limit generalizing c io with
  | zero => rfl
  | succ limit ih =>
    have hperforms := (step c).performs io
    have hinput := hperforms.input_eq
    have hio := hperforms.io_eq
    cases hp : (step c).perform io with
    | resume c' io' =>
      rw [hp] at hinput hio
      have hio' : io' = io.after ((step c).events io) := hio
      have hrest := ih c' io'
      rw [logFor_of_resume hp, List.cons_append, taken_fetch, taken_append, Streams.after_cons, Streams.behind,
        Streams.after_append, ← hio', List.append_assoc, ← hrest]
      exact hinput
    | halt c' v io' =>
      rw [hp] at hinput hio
      have hio' : io' = io.after ((step c).events io) := hio
      rw [logFor_of_halt hp, taken_fetch, Streams.after_cons, Streams.behind, ← hio']
      exact hinput

/-- Behind what a run reads the input may be any other. -/
theorem runFor_withInput (h : runFor step limit c io = some x) (hlog : .exhausted ∉ logFor step limit c io)
    (bs : List UInt8) :
    runFor step limit c (io.withInput (taken (logFor step limit c io) ++ bs)) = some (x.withInput bs) := by
  induction limit generalizing c io with
  | zero => cases h
  | succ limit ih =>
    have hperforms := (step c).performs io
    rw [runFor] at h
    split at h
    · rename_i c' io' hp
      rw [logFor_of_resume hp, List.cons_append, List.mem_cons, List.mem_append, not_or, not_or] at hlog
      obtain ⟨-, hes, hrest⟩ := hlog
      have hsame := (hperforms.withInput hes (taken (logFor step limit c' io') ++ bs)).unique.2
      rw [hp] at hsame
      rw [logFor_of_resume hp, List.cons_append, taken_fetch, taken_append, List.append_assoc, runFor, ← hsame]
      exact ih h hrest
    · rename_i c' v io' hp
      cases h
      rw [logFor_of_halt hp, List.mem_cons, not_or] at hlog
      have hsame := (hperforms.withInput hlog.2 bs).unique.2
      rw [hp] at hsame
      rw [logFor_of_halt hp, taken_fetch, runFor, ← hsame]
      rfl

/-- Up to a request for a byte a run is the same on any input that begins with what was read. -/
theorem logFor_withInput {pre post : List Event} {r : Except StreamError UInt8}
    (hlog : logFor step limit c io = pre ++ .read r :: post) : (io.after pre).read.1 = r ∧ ∀ bs, ∃ post',
      logFor step limit c (io.withInput (taken pre ++ bs)) =
        pre ++ .read ((io.after pre).withInput bs).read.1 :: post' := by
  induction limit generalizing c io pre with
  | zero => simp [logFor] at hlog
  | succ limit ih =>
    have hperforms := (step c).performs io
    have hunbroken := hperforms.unbroken.2
    have hio := hperforms.io_eq
    rw [logFor, List.cons_append] at hlog
    obtain ⟨pre, rfl, hbehind⟩ := split_cons hlog fun h => by cases h
    have inside : ∀ cs, (step c).events io = pre ++ .read r :: cs →
        (io.after pre).read.1 = r ∧ ∀ bs, ∃ post', logFor step (limit + 1) c (io.withInput (taken pre ++ bs)) =
          .fetch c :: pre ++ .read ((io.after pre).withInput bs).read.1 :: post' := by
      intro cs hes
      rw [hes] at hperforms
      obtain ⟨hread, hevents⟩ := hperforms.read_withInput
      refine ⟨hread, fun bs => ?_⟩
      obtain ⟨post', hpost⟩ := hevents bs
      rw [logFor, hpost, List.cons_append, List.append_assoc, List.cons_append]
      exact ⟨_, rfl⟩
    cases hp : (step c).perform io with
    | resume c' io' =>
      rw [hp] at hbehind hio hperforms
      have hio' : io' = io.after ((step c).events io) := hio
      rcases split_append hbehind with ⟨as, rfl, hrest⟩ | ⟨cs, hes, -⟩
      · have hes : .exhausted ∉ (step c).events io := fun hmem => hunbroken c' io' hp .exhausted hmem
        obtain ⟨hread, hbs⟩ := ih hrest
        rw [Streams.after_cons, Streams.behind, Streams.after_append, ← hio']
        refine ⟨hread, fun bs => ?_⟩
        obtain ⟨post', hpost⟩ := hbs bs
        obtain ⟨hevents, hsame⟩ := (hperforms.withInput hes (taken as ++ bs)).unique
        refine ⟨post', ?_⟩
        rw [taken_fetch, taken_append, List.append_assoc, logFor_of_resume hsame.symm, ← hevents, hpost]
        simp
      · exact inside cs hes
    | halt c' v io' =>
      rw [hp, List.append_nil] at hbehind
      exact inside post hbehind

theorem runFor_exhausted_iff (hstep : ∀ c, (step c).Blameless) (h : runFor step limit c io = some x) :
    x.verdict = .exhausted ↔ .exhausted ∈ logFor step limit c io := by
  induction limit generalizing c io with
  | zero => cases h
  | succ limit ih =>
    have hperforms := (step c).performs io
    rw [runFor] at h
    split at h
    · rename_i c' io' hp
      have hgranted := hperforms.unbroken.2 c' io' hp
      have hes : .exhausted ∉ (step c).events io := fun hmem => hgranted .exhausted hmem
      rw [ih h, logFor_of_resume hp, List.cons_append, List.mem_cons, List.mem_append, or_iff_right (by rintro ⟨⟩),
        or_iff_right hes]
    · rename_i hp
      cases h
      rw [hp] at hperforms
      rw [hperforms.exhausted_iff (hstep c), logFor_of_halt hp, List.mem_cons, or_iff_right (by rintro ⟨⟩)]

end Run

theorem Failure.Early.ne_exhausted {f : Failure} (h : f.Early) : Verdict.failed f ≠ .exhausted := by
  rintro ⟨⟩
  obtain ⟨⟨⟩⟩ := h

namespace Engine

variable {e : Engine} {target : Target} {text : String} {input : List UInt8} {faults : Faults} {x : Ended}

/-- The run comes to ask for a byte when it has read `n` bytes, and has then written `bs`. -/
def AsksBehind (e : Engine) (target : Target) (text : String) (io : Streams) (n : Nat) (bs : Array UInt8) : Prop :=
  ∃ pre limit, (io.after pre).consumed = n ∧ (io.after pre).written = bs ∧
    ∀ k, ∃ r post, e.log target (limit + k) text io = pre ++ .read r :: post

theorem run?_add {limit : Nat} {io : Streams} (h : e.run? target limit text io = some x) (k : Nat) :
    e.run? target (limit + k) text io = some x := by
  cases hprepare : e.prepare target text with
  | ok step =>
    rw [run?_of_prepare hprepare] at h ⊢
    exact runFor_add h k
  | error f =>
    rw [run?_of_error hprepare] at h ⊢
    exact h

/-- A run that is not at the end of its input does not depend on what is behind the bytes that it has read. -/
theorem finishes_of_agree (hx : e.Finishes target text (.start input faults) x) (hv : x.verdict ≠ .exhausted)
    {other : List UInt8} (hother : other.take x.io.consumed = input.take x.io.consumed) :
    ∃ bs, e.Finishes target text (.start other faults) (x.withInput bs) := by
  obtain ⟨limit, hrun⟩ := hx
  cases hprepare : e.prepare target text with
  | error f =>
    rw [run?_of_error hprepare, Option.some.injEq] at hrun
    subst hrun
    exact ⟨other, limit, run?_of_error hprepare limit _⟩
  | ok step =>
    rw [run?_of_prepare hprepare] at hrun
    obtain ⟨size, hload⟩ := loads_of_prepare hprepare
    have hlog := mt (runFor_exhausted_iff hload.blameless hrun).mpr hv
    have hinput := input_logFor step limit (.start .blank) (.start input faults)
    have hconsumed := Streams.consumed_after (.start input faults) (logFor step limit (.start .blank) (.start input faults))
    have hsame := runFor_withInput hrun hlog
    rw [← runFor_io hrun] at hconsumed hinput
    generalize taken (logFor step limit (.start .blank) (.start input faults)) = used at hinput hconsumed hsame
    have hlen : x.io.consumed = used.length := hconsumed.trans (Nat.zero_add _)
    have hused : input.take used.length = used := by
      have hin : input = used ++ x.io.input := hinput
      rw [hin, List.take_left]
    rw [hlen, hused] at hother
    have hsplit := List.take_append_drop used.length other
    rw [hother] at hsplit
    have hother := hsame (other.drop used.length)
    rw [hsplit] at hother
    exact ⟨other.drop used.length, limit, (run?_of_prepare hprepare limit _).trans hother⟩

/-- A run that ends at the end of its input has read all of it. -/
theorem exists_log_exhausted (hx : e.Finishes target text (.start input faults) x) (hv : x.verdict = .exhausted) :
    ∃ pre limit, taken pre = input ∧ x.io = (Streams.start input faults).after pre ∧
      ∀ k, e.log target (limit + k) text (.start input faults) = pre ++ [.exhausted] := by
  obtain ⟨limit, hrun⟩ := hx
  cases hprepare : e.prepare target text with
  | error f =>
    rw [run?_of_error hprepare, Option.some.injEq] at hrun
    subst hrun
    exact absurd hv (early_of_prepare hprepare).ne_exhausted
  | ok step =>
    rw [run?_of_prepare hprepare] at hrun
    obtain ⟨size, hload⟩ := loads_of_prepare hprepare
    obtain ⟨pre, post, hlog⟩ := List.append_of_mem ((runFor_exhausted_iff hload.blameless hrun).mp hv)
    have hunbroken := unbroken_logFor step limit (.start .blank) (.start input faults)
    rw [hlog] at hunbroken
    obtain rfl := hunbroken.eq_nil_of_refused fun h => h
    have hio := runFor_io hrun
    have hinput := input_logFor step limit (.start .blank) (.start input faults)
    have hread := (logFor_withInput hlog).1
    rw [hlog, Streams.after_append] at hio hinput
    have hio : x.io = (Streams.start input faults).after pre := hio
    have hend : ((Streams.start input faults).after pre).input = [] :=
      (Streams.read_endOfInput (Prod.ext hread rfl)).1
    refine ⟨pre, limit, ?_, hio, fun k => ?_⟩
    · rw [taken_append] at hinput
      have hin : input = (taken pre ++ []) ++ ((Streams.start input faults).after pre).input := hinput
      rw [hend, List.append_nil, List.append_nil] at hin
      exact hin.symm
    · rw [log_of_prepare hprepare, logFor_add hrun, hlog]

theorem consumed_of_exhausted (hx : e.Finishes target text (.start input faults) x) (hv : x.verdict = .exhausted) :
    x.io.consumed = input.length := by
  obtain ⟨pre, -, htaken, hio, -⟩ := exists_log_exhausted hx hv
  have hconsumed := Streams.consumed_after (.start input faults) pre
  rw [hio, hconsumed, htaken]
  exact Nat.zero_add _

theorem log_withInput {limit : Nat} {io : Streams} {pre post : List Event} {r : Except StreamError UInt8}
    (hlog : e.log target limit text io = pre ++ .read r :: post) (bs : List UInt8) :
    ∃ r' post', e.log target limit text (io.withInput (taken pre ++ bs)) = pre ++ .read r' :: post' := by
  cases hprepare : e.prepare target text with
  | error f =>
    rw [log_of_error hprepare] at hlog
    simp at hlog
  | ok step =>
    rw [log_of_prepare hprepare] at hlog ⊢
    obtain ⟨post', hpost⟩ := (logFor_withInput hlog).2 bs
    exact ⟨_, post', hpost⟩

/-- On a longer input the run gets behind what it did, to the request for the next byte. -/
theorem asksBehind_of_exhausted (hx : e.Finishes target text (.start input faults) x) (hv : x.verdict = .exhausted)
    (more : List UInt8) : e.AsksBehind target text (.start (input ++ more) faults) input.length x.io.written := by
  obtain ⟨pre, limit, rfl, hio, hlog⟩ := exists_log_exhausted hx hv
  have hafter : (Streams.start (taken pre ++ more) faults).after pre =
      ((Streams.start (taken pre) faults).after pre).withInput more :=
    (Streams.start (taken pre) faults).after_withInput more pre
  refine ⟨pre, limit, ?_, ?_, fun k => log_withInput (hlog k) more⟩
  · rw [Streams.consumed_after]
    exact Nat.zero_add _
  · rw [hafter, hio]
    rfl

/-- What was written in front of a request stays in front of all that is written. -/
theorem AsksBehind.written {io : Streams} {n : Nat} {bs : Array UInt8} {y : Ended} (h : e.AsksBehind target text io n bs)
    (hy : e.Finishes target text io y) : bs.toList <+: y.io.written.toList := by
  obtain ⟨pre, limit, -, rfl, hlog⟩ := h
  obtain ⟨limit', hrun⟩ := hy
  obtain ⟨r, post, hpost⟩ := hlog limit'
  have hio := run?_io (run?_add hrun limit)
  rw [Nat.add_comm, hpost, Streams.after_append] at hio
  obtain ⟨cs, hcs⟩ := (io.after pre).exists_written_after (.read r :: post)
  rw [hio, hcs]
  exact List.prefix_append _ _

end Engine

/-- Input that is not read does not matter. A run that does not end at the end of its input is the same on every input
that begins with the bytes it has read. One that ends there has read all of its input, and on a longer input it writes the
same until it asks for the next byte. -/
theorem unread_input_is_ignored {e : Engine} {target : Target} {text : String} {input : List UInt8} {faults : Faults}
    {x : Ended} (hx : e.Finishes target text (.start input faults) x) :
    (x.verdict ≠ .exhausted → ∀ other, other.take x.io.consumed = input.take x.io.consumed →
      ∃ y, e.Finishes target text (.start other faults) y ∧ y.verdict = x.verdict ∧ y.io.written = x.io.written ∧
        y.io.flushes = x.io.flushes ∧ y.io.consumed = x.io.consumed) ∧
    (x.verdict = .exhausted → x.io.consumed = input.length ∧ ∀ more,
      e.AsksBehind target text (.start (input ++ more) faults) input.length x.io.written ∧
      ∀ y, e.Finishes target text (.start (input ++ more) faults) y → x.io.written.toList <+: y.io.written.toList ∧
        (y.verdict = .exhausted → y.io.consumed = (input ++ more).length)) := by
  refine ⟨fun hv other hother => ?_, fun hv => ⟨Engine.consumed_of_exhausted hx hv, fun more => ?_⟩⟩
  · obtain ⟨bs, hy⟩ := Engine.finishes_of_agree hx hv hother
    exact ⟨_, hy, rfl, rfl, rfl, rfl⟩
  · have hasks := Engine.asksBehind_of_exhausted hx hv more
    exact ⟨hasks, fun y hy => ⟨hasks.written hy, Engine.consumed_of_exhausted hy⟩⟩

/-- A counted read takes two bytes of three; another one finds the input at its end behind its first byte. -/
theorem unread_input_is_ignored_cut :
    (∃ y, Engine.grouped.Finishes .standard ",,." (.start [1, 2, 9] {}) y ∧ y.io.written = #[2]) ∧
      Engine.grouped.AsksBehind .standard ".,,." (.start ([7] ++ [8]) {}) 1 #[0] := by
  have hdone : ∃ x, Engine.grouped.Finishes .standard ",,." (.start [1, 2] {}) x ∧ x.verdict = .done ∧ x.io.written = #[2] ∧
      x.io.consumed = 2 := ⟨_, ⟨9, rfl⟩, rfl, rfl, rfl⟩
  have hcut : ∃ x, Engine.grouped.Finishes .standard ".,,." (.start [7] {}) x ∧ x.verdict = .exhausted ∧
      x.io.written = #[0] :=
    ⟨_, ⟨9, rfl⟩, rfl, rfl⟩
  obtain ⟨x, hx, hv, hw, hc⟩ := hdone
  obtain ⟨z, hz, hzv, hzw⟩ := hcut
  constructor
  · have hne : x.verdict ≠ .exhausted := by rw [hv]; exact nofun
    obtain ⟨y, hy, -, hyw, -⟩ := (unread_input_is_ignored hx).1 hne [1, 2, 9] (by rw [hc]; rfl)
    exact ⟨y, hy, hyw.trans hw⟩
  · have hasks := ((unread_input_is_ignored hz).2 hzv).2 [8]
    rw [hzw] at hasks
    exact hasks.1

end TapeMachine
