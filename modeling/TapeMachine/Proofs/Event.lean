import TapeMachine.Proofs.Host
import TapeMachine.Proofs.Run

namespace TapeMachine

inductive Event where
  /-- The instruction of a configuration is begun. -/
  | fetch (c : Config)
  | read (answer : Except StreamError UInt8)
  | write (b : UInt8) (refusal : Option StreamError)
  | flush (refusal : Option StreamError)

/-- A write or a flush that is not refused, or anything else. -/
def Event.Delivered : Event → Prop
  | write _ refusal => refusal = none
  | flush refusal => refusal = none
  | _ => True

instance : DecidablePred Event.Delivered
  | .fetch _ => isTrue trivial
  | .read _ => isTrue trivial
  | .write _ refusal => inferInstanceAs (Decidable (refusal = none))
  | .flush refusal => inferInstanceAs (Decidable (refusal = none))

/-- The requests of an action, up to the first one that is refused. -/
def Action.events : Action → Streams → List Event
  | resume _, _ => []
  | halt _ _, _ => []
  | read _ granted, io =>
    match io.read with
    | (.ok b, io') => .read (.ok b) :: (granted b).events io'
    | (.error e, _) => [.read (.error e)]
  | write _ b granted, io =>
    match io.write b with
    | (none, io') => .write b none :: (granted ()).events io'
    | (some e, _) => [.write b (some e)]
  | flush _ granted, io =>
    match io.flush with
    | (none, io') => .flush none :: (granted ()).events io'
    | (some e, _) => [.flush (some e)]

/-- The log of the first `limit` instructions. -/
def logFor (step : Step) : Nat → Config → Streams → List Event
  | 0, _, _ => []
  | limit + 1, c, io =>
    .fetch c :: (step c).events io ++
      match (step c).perform io with
      | .resume c' io' => logFor step limit c' io'
      | .halt _ _ _ => []

def Engine.log (e : Engine) (target : Target) (limit : Nat) (text : String) (io : Streams) : List Event :=
  match e.prepare target text with
  | .ok step => logFor step limit (.start .blank) io
  | .error _ => []

namespace Streams

def behind (io : Streams) : Event → Streams
  | .fetch _ => io
  | .read (.ok _) => { io with input := io.input.tail, consumed := io.consumed + 1 }
  | .read (.error _) => io
  | .write b none => { io with written := io.written.push b }
  | .write _ (some _) => io
  | .flush none => { io with flushes := io.flushes + 1 }
  | .flush (some _) => io

def after (io : Streams) (es : List Event) : Streams :=
  es.foldl behind io

@[simp]
theorem after_nil (io : Streams) : io.after [] = io :=
  rfl

@[simp]
theorem after_cons (io : Streams) (ev : Event) (es : List Event) : io.after (ev :: es) = (io.behind ev).after es :=
  rfl

theorem after_append (io : Streams) (es fs : List Event) : io.after (es ++ fs) = (io.after es).after fs :=
  List.foldl_append

theorem read_eq (io : Streams) : io.read.2 = io.behind (.read io.read.1) := by
  unfold read
  split
  · rfl
  · split
    · rfl
    · rename_i b rest hinput
      simp only [behind, hinput, List.tail_cons]

theorem write_eq (io : Streams) (b : UInt8) : (io.write b).2 = io.behind (.write b (io.write b).1) := by
  unfold write
  split
  · rfl
  · split <;> rfl

theorem flush_eq (io : Streams) : io.flush.2 = io.behind (.flush io.flush.1) := by
  unfold flush
  split <;> rfl

section Behind

variable {io io' : Streams}

theorem eq_behind_read {a : Except StreamError UInt8} (h : io.read = (a, io')) : io' = io.behind (.read a) := by
  have hio := io.read_eq
  rw [h] at hio
  exact hio

theorem eq_behind_write {b : UInt8} {a : Option StreamError} (h : io.write b = (a, io')) :
    io' = io.behind (.write b a) := by
  have hio := io.write_eq b
  rw [h] at hio
  exact hio

theorem eq_behind_flush {a : Option StreamError} (h : io.flush = (a, io')) : io' = io.behind (.flush a) := by
  have hio := io.flush_eq
  rw [h] at hio
  exact hio

end Behind

end Streams

def Reply.io : Reply → Streams
  | resume _ io => io
  | halt _ _ io => io

def Event.Granted : Event → Prop
  | .read (.error _) => False
  | .write _ (some _) => False
  | .flush (some _) => False
  | _ => True

/-- Nothing follows a request that is refused. -/
inductive Unbroken : List Event → Prop where
  | nil : Unbroken []
  | last (ev : Event) : Unbroken [ev]
  | cons {ev : Event} {es : List Event} : ev.Granted → Unbroken es → Unbroken (ev :: es)

namespace Unbroken

theorem append {es fs : List Event} (h : ∀ ev ∈ es, ev.Granted) (hf : Unbroken fs) : Unbroken (es ++ fs) := by
  induction es with
  | nil => exact hf
  | cons ev es ih => exact .cons (h ev List.mem_cons_self) (ih fun x hx => h x (List.mem_cons_of_mem ev hx))

theorem granted {pre post : List Event} {ev : Event} (h : Unbroken (pre ++ ev :: post)) : ∀ x ∈ pre, x.Granted := by
  induction pre with
  | nil => exact fun x hx => (List.not_mem_nil hx).elim
  | cons y pre ih =>
    intro x hx
    generalize hes : y :: pre ++ ev :: post = es at h
    cases h with
    | nil => cases hes
    | last => simp at hes
    | cons hy hrest =>
      obtain ⟨rfl, rfl⟩ := List.cons.inj hes
      rcases List.mem_cons.mp hx with rfl | hx
      · exact hy
      · exact ih hrest x hx

end Unbroken

/-- An element of two lists behind each other stands in the second or in the first one. -/
theorem split_append {α : Type} {xs ys pre post : List α} {x : α} (h : xs ++ ys = pre ++ x :: post) :
    (∃ as, pre = xs ++ as ∧ ys = as ++ x :: post) ∨ ∃ cs, xs = pre ++ x :: cs ∧ post = cs ++ ys := by
  rcases List.append_eq_append_iff.mp h with ⟨as, rfl, hys⟩ | ⟨cs, rfl, hpost⟩
  · exact .inl ⟨as, rfl, hys⟩
  · cases cs with
    | nil => exact .inl ⟨[], by simp, hpost.symm⟩
    | cons y cs =>
      obtain ⟨rfl, rfl⟩ := List.cons.inj hpost
      exact .inr ⟨cs, rfl, rfl⟩

/-- Another element than the first one stands behind it. -/
theorem split_cons {α : Type} {xs pre post : List α} {x y : α} (h : x :: xs = pre ++ y :: post) (hy : y ≠ x) :
    ∃ as, pre = x :: as ∧ xs = as ++ y :: post := by
  cases pre with
  | nil => exact absurd (List.cons.inj h).1.symm hy
  | cons z pre =>
    obtain ⟨rfl, hxs⟩ := List.cons.inj h
    exact ⟨pre, rfl, hxs⟩

inductive Action.Performs : Action → Streams → List Event → Reply → Prop where
  | resume {c : Config} {io : Streams} : Performs (.resume c) io [] (.resume c io)
  | halt {c : Config} {v : Verdict} {io : Streams} : Performs (.halt c v) io [] (.halt c v io)
  | read {c : Config} {granted : UInt8 → Action} {b : UInt8} {io io' : Streams} {es : List Event} {p : Reply} :
      io.read = (.ok b, io') → Performs (granted b) io' es p → Performs (.read c granted) io (.read (.ok b) :: es) p
  | readRefused {c : Config} {granted : UInt8 → Action} {e : StreamError} {io io' : Streams} :
      io.read = (.error e, io') →
        Performs (.read c granted) io [.read (.error e)] (.halt c (.failed (.stream e)) io')
  | write {c : Config} {b : UInt8} {granted : Unit → Action} {io io' : Streams} {es : List Event} {p : Reply} :
      io.write b = (none, io') → Performs (granted ()) io' es p →
        Performs (.write c b granted) io (.write b none :: es) p
  | writeRefused {c : Config} {b : UInt8} {granted : Unit → Action} {e : StreamError} {io io' : Streams} :
      io.write b = (some e, io') →
        Performs (.write c b granted) io [.write b (some e)] (.halt c (.failed (.stream e)) io')
  | flush {c : Config} {granted : Unit → Action} {io io' : Streams} {es : List Event} {p : Reply} :
      io.flush = (none, io') → Performs (granted ()) io' es p → Performs (.flush c granted) io (.flush none :: es) p
  | flushRefused {c : Config} {granted : Unit → Action} {e : StreamError} {io io' : Streams} :
      io.flush = (some e, io') →
        Performs (.flush c granted) io [.flush (some e)] (.halt c (.failed (.stream e)) io')

theorem Action.performs (a : Action) (io : Streams) : a.Performs io (a.events io) (a.perform io) := by
  induction a generalizing io with
  | resume c => exact .resume
  | halt c v => exact .halt
  | read c granted ih =>
    rcases hr : io.read with ⟨_ | b, io'⟩
    · simp only [Action.perform, Action.events, hr]
      exact .readRefused hr
    · simp only [Action.perform, Action.events, hr]
      exact .read hr (ih b io')
  | write c b granted ih =>
    rcases hr : io.write b with ⟨_ | e, io'⟩
    · simp only [Action.perform, Action.events, hr]
      exact .write hr (ih () io')
    · simp only [Action.perform, Action.events, hr]
      exact .writeRefused hr
  | flush c granted ih =>
    rcases hr : io.flush with ⟨_ | e, io'⟩
    · simp only [Action.perform, Action.events, hr]
      exact .flush hr (ih () io')
    · simp only [Action.perform, Action.events, hr]
      exact .flushRefused hr

theorem Action.Performs.unique {a : Action} {io : Streams} {es : List Event} {p : Reply} (h : a.Performs io es p) :
    es = a.events io ∧ p = a.perform io := by
  induction h with
  | resume => exact ⟨rfl, rfl⟩
  | halt => exact ⟨rfl, rfl⟩
  | read hr _ ih => simp only [Action.perform, Action.events, hr, ih, and_self]
  | write hr _ ih => simp only [Action.perform, Action.events, hr, ih, and_self]
  | flush hr _ ih => simp only [Action.perform, Action.events, hr, ih, and_self]
  | readRefused hr => simp only [Action.perform, Action.events, hr, and_self]
  | writeRefused hr => simp only [Action.perform, Action.events, hr, and_self]
  | flushRefused hr => simp only [Action.perform, Action.events, hr, and_self]

/-- An action leaves the streams as its requests do. -/
theorem Action.Performs.io_eq {a : Action} {io : Streams} {es : List Event} {p : Reply} (h : a.Performs io es p) :
    p.io = io.after es := by
  induction h with
  | resume => rfl
  | halt => rfl
  | read hr _ ih => rw [ih, Streams.after_cons, ← Streams.eq_behind_read hr]
  | write hr _ ih => rw [ih, Streams.after_cons, ← Streams.eq_behind_write hr]
  | flush hr _ ih => rw [ih, Streams.after_cons, ← Streams.eq_behind_flush hr]
  | readRefused hr => exact Streams.eq_behind_read hr
  | writeRefused hr => exact Streams.eq_behind_write hr
  | flushRefused hr => exact Streams.eq_behind_flush hr

theorem Action.Performs.unbroken {a : Action} {io : Streams} {es : List Event} {p : Reply} (h : a.Performs io es p) :
    Unbroken es ∧ ∀ c io', p = .resume c io' → ∀ ev ∈ es, ev.Granted := by
  have grow : ∀ {ev : Event} {es : List Event} {p : Reply}, ev.Granted →
      (Unbroken es ∧ ∀ c io', p = .resume c io' → ∀ ev ∈ es, ev.Granted) →
      Unbroken (ev :: es) ∧ ∀ c io', p = .resume c io' → ∀ x ∈ ev :: es, x.Granted := by
    intro ev es p hev ih
    refine ⟨.cons hev ih.1, fun c io' hp x hx => ?_⟩
    rcases List.mem_cons.mp hx with rfl | hx
    · exact hev
    · exact ih.2 c io' hp x hx
  induction h with
  | resume => exact ⟨.nil, fun _ _ _ x hx => (List.not_mem_nil hx).elim⟩
  | halt => exact ⟨.nil, fun _ _ h => nomatch h⟩
  | read _ _ ih => exact grow trivial ih
  | write _ _ ih => exact grow trivial ih
  | flush _ _ ih => exact grow trivial ih
  | readRefused => exact ⟨.last _, fun _ _ h => nomatch h⟩
  | writeRefused => exact ⟨.last _, fun _ _ h => nomatch h⟩
  | flushRefused => exact ⟨.last _, fun _ _ h => nomatch h⟩

section Run

variable {step : Step} {limit : Nat} {c c' : Config} {io io' : Streams}

theorem logFor_of_resume (h : (step c).perform io = .resume c' io') :
    logFor step (limit + 1) c io = .fetch c :: (step c).events io ++ logFor step limit c' io' := by
  rw [logFor, h]

theorem logFor_of_halt {v : Verdict} (h : (step c).perform io = .halt c' v io') :
    logFor step (limit + 1) c io = .fetch c :: (step c).events io := by
  rw [logFor, h, List.append_nil]

theorem unbroken_logFor (step : Step) (limit : Nat) (c : Config) (io : Streams) : Unbroken (logFor step limit c io) := by
  induction limit generalizing c io with
  | zero => exact .nil
  | succ limit ih =>
    have hunbroken := ((step c).performs io).unbroken
    cases hp : (step c).perform io with
    | resume c' io' =>
      rw [logFor_of_resume hp, List.cons_append]
      exact .cons trivial (.append (hunbroken.2 c' io' hp) (ih c' io'))
    | halt c' v io' =>
      rw [logFor_of_halt hp]
      exact .cons trivial hunbroken.1

theorem runFor_io {x : Ended} (h : runFor step limit c io = some x) : x.io = io.after (logFor step limit c io) := by
  induction limit generalizing c io with
  | zero => cases h
  | succ limit ih =>
    have hio := ((step c).performs io).io_eq
    rw [runFor] at h
    split at h
    · rename_i c' io' hr
      rw [hr] at hio
      rw [logFor_of_resume hr, List.cons_append, Streams.after_cons, Streams.behind, Streams.after_append, ← hio]
      exact ih h
    · rename_i c' v io' hr
      rw [hr] at hio
      rw [logFor_of_halt hr, Streams.after_cons, Streams.behind, ← hio]
      cases h
      rfl

end Run

namespace Engine

variable {e : Engine} {target : Target} {text : String} {io : Streams} {limit : Nat}

theorem log_of_prepare {step : Step} (h : e.prepare target text = .ok step) :
    e.log target limit text io = logFor step limit (.start .blank) io := by
  simp only [log, h]

theorem log_of_error {f : Failure} (h : e.prepare target text = .error f) : e.log target limit text io = [] := by
  simp only [log, h]

theorem unbroken_log (e : Engine) (target : Target) (limit : Nat) (text : String) (io : Streams) :
    Unbroken (e.log target limit text io) := by
  unfold log
  split
  · exact unbroken_logFor _ _ _ _
  · exact .nil

/-- A run leaves the streams as its log does. -/
theorem run?_io {x : Ended} (h : e.run? target limit text io = some x) :
    x.io = io.after (e.log target limit text io) := by
  cases hp : e.prepare target text with
  | ok step =>
    rw [run?_of_prepare hp] at h
    rw [log_of_prepare hp]
    exact runFor_io h
  | error f =>
    rw [run?_of_error hp] at h
    rw [log_of_error hp]
    cases h
    rfl

end Engine

end TapeMachine
