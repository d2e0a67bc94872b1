import TapeMachine.Proofs.Event
import TapeMachine.Proofs.Optimiser

namespace TapeMachine

namespace Streams

variable (f : Faults) (io : Streams)

@[simp]
theorem begun_none (n : Nat) : begun none n = false :=
  rfl

/-- The same streams, which now begin to fail as given. -/
def withFaults : Streams :=
  { io with faults := f }

@[simp]
theorem faults_behind (ev : Event) : (io.behind ev).faults = io.faults := by
  match ev with
  | .fetch _ | .read (.ok _) | .read (.error _) | .write _ none | .write _ (some _) | .flush none | .flush (some _) => rfl

theorem faults_after (es : List Event) : (io.after es).faults = io.faults := by
  induction es generalizing io with
  | nil => rfl
  | cons ev es ih => rw [after_cons, ih, faults_behind]

end Streams

def Reply.withFaults (f : Faults) : Reply → Reply
  | resume c io => .resume c (io.withFaults f)
  | halt c v io => .halt c v (io.withFaults f)

def Ended.withFaults (f : Faults) (x : Ended) : Ended :=
  { x with io := x.io.withFaults f }

namespace Faults

open Streams (begun)

/-- The error that a request meets on such streams if they fail as given. -/
def refusal? (f : Faults) (io : Streams) : Event → Option StreamError
  | .fetch _ => none
  | .read _ => if begun f.readFail io.consumed then some .readFailed else none
  | .write _ _ =>
    if begun f.writeFail io.written.size then some .writeFailed
    else if begun f.writeFull io.written.size then some .nothingWritten
    else none
  | .flush _ => if begun f.flushFail io.flushes then some .flushFailed else none

def Spares (f : Faults) : Streams → List Event → Prop
  | _, [] => True
  | io, ev :: es => f.refusal? io ev = none ∧ f.Spares (io.behind ev) es

variable {f : Faults} {io : Streams}

theorem spares_append {es fs : List Event} : f.Spares io (es ++ fs) ↔ f.Spares io es ∧ f.Spares (io.after es) fs := by
  induction es generalizing io with
  | nil => exact (true_and _).symm ▸ Iff.rfl
  | cons ev es ih => rw [List.cons_append, Spares, ih, Spares, and_assoc, Streams.after_cons]

section Request

variable (hio : io.faults = {})

include hio

theorem read_eq {a : Except StreamError UInt8} : (io.withFaults f).read =
    match f.refusal? io (.read a) with
    | some s => (.error s, io.withFaults f)
    | none => (io.read.1, io.read.2.withFaults f) := by
  obtain ⟨input, faults, consumed, written, flushes⟩ := io
  cases hio
  by_cases hr : begun f.readFail consumed = true
  · simp [Streams.read, Streams.withFaults, refusal?, hr]
  · cases input <;> simp [Streams.read, Streams.withFaults, refusal?, hr]

theorem write_eq {b : UInt8} {a : Option StreamError} : (io.withFaults f).write b =
    match f.refusal? io (.write b a) with
    | some s => (some s, io.withFaults f)
    | none => ((io.write b).1, (io.write b).2.withFaults f) := by
  obtain ⟨input, faults, consumed, written, flushes⟩ := io
  cases hio
  by_cases hw : begun f.writeFail written.size = true
  · simp [Streams.write, Streams.withFaults, refusal?, hw]
  · by_cases hn : begun f.writeFull written.size = true
    · simp [Streams.write, Streams.withFaults, refusal?, hw, hn]
    · simp [Streams.write, Streams.withFaults, refusal?, hw, hn]

theorem flush_eq {a : Option StreamError} : (io.withFaults f).flush =
    match f.refusal? io (.flush a) with
    | some s => (some s, io.withFaults f)
    | none => (io.flush.1, io.flush.2.withFaults f) := by
  obtain ⟨input, faults, consumed, written, flushes⟩ := io
  cases hio
  by_cases hf : begun f.flushFail flushes = true
  · simp [Streams.flush, Streams.withFaults, refusal?, hf]
  · simp [Streams.flush, Streams.withFaults, refusal?, hf]

end Request

end Faults

section Action

variable {f : Faults} {a : Action} {io : Streams} {es : List Event} {p : Reply}

theorem Action.Performs.spared (h : a.Performs io es p) (hio : io.faults = {}) (hes : f.Spares io es) :
    a.Performs (io.withFaults f) es (p.withFaults f) := by
  induction h with
  | resume => exact .resume
  | halt => exact .halt
  | @read _ _ b io io' _ _ hr _ ih =>
    have hread := @Faults.read_eq f io hio (.ok b)
    have hio' := Streams.eq_behind_read hr
    rw [hes.1, hr] at hread
    exact .read hread (ih (by rw [hio', Streams.faults_behind, hio]) (hio' ▸ hes.2))
  | @readRefused _ _ s io io' hr =>
    have hread := @Faults.read_eq f io hio (.error s)
    rw [hes.1, hr] at hread
    exact .readRefused hread
  | @write _ b _ io io' _ _ hr _ ih =>
    have hwrite := @Faults.write_eq f io hio b none
    have hio' := Streams.eq_behind_write hr
    rw [hes.1, hr] at hwrite
    exact .write hwrite (ih (by rw [hio', Streams.faults_behind, hio]) (hio' ▸ hes.2))
  | @writeRefused _ b _ s io io' hr =>
    have hwrite := @Faults.write_eq f io hio b (some s)
    rw [hes.1, hr] at hwrite
    exact .writeRefused hwrite
  | @flush _ _ io io' _ _ hr _ ih =>
    have hflush := @Faults.flush_eq f io hio none
    have hio' := Streams.eq_behind_flush hr
    rw [hes.1, hr] at hflush
    exact .flush hflush (ih (by rw [hio', Streams.faults_behind, hio]) (hio' ▸ hes.2))
  | @flushRefused _ _ s io io' hr =>
    have hflush := @Faults.flush_eq f io hio (some s)
    rw [hes.1, hr] at hflush
    exact .flushRefused hflush

section First

variable {ev : Event} (h : a.Performs io (ev :: es) p) (hio : io.faults = {})

include h hio

theorem Action.Performs.refused {s : StreamError} (hs : f.refusal? io ev = some s) :
    ∃ c, a.perform (io.withFaults f) = .halt c (.failed (.stream s)) (io.withFaults f) := by
  cases h with
  | read => exact ⟨_, by rw [perform, Faults.read_eq hio, hs]⟩
  | readRefused => exact ⟨_, by rw [perform, Faults.read_eq hio, hs]⟩
  | write => exact ⟨_, by rw [perform, Faults.write_eq hio, hs]⟩
  | writeRefused => exact ⟨_, by rw [perform, Faults.write_eq hio, hs]⟩
  | flush => exact ⟨_, by rw [perform, Faults.flush_eq hio, hs]⟩
  | flushRefused => exact ⟨_, by rw [perform, Faults.flush_eq hio, hs]⟩

/-- Behind its first request, if there is another one, an action goes on as a second action. -/
theorem Action.Performs.uncons (hes : es ≠ []) (hev : f.refusal? io ev = none) :
    ∃ a' : Action, a'.Performs (io.behind ev) es p ∧
      a.perform (io.withFaults f) = a'.perform ((io.behind ev).withFaults f) := by
  cases h with
  | @read _ granted b _ io' _ _ hr h =>
    have hio' := Streams.eq_behind_read hr
    exact ⟨granted b, hio' ▸ h, by rw [perform, Faults.read_eq hio, hev, hr, ← hio']⟩
  | @write _ b granted _ io' _ _ hr h =>
    have hio' := Streams.eq_behind_write hr
    exact ⟨granted (), hio' ▸ h, by rw [perform, Faults.write_eq hio, hev, hr, ← hio']⟩
  | @flush _ granted _ io' _ _ hr h =>
    have hio' := Streams.eq_behind_flush hr
    exact ⟨granted (), hio' ▸ h, by rw [perform, Faults.flush_eq hio, hev, hr, ← hio']⟩
  | readRefused => exact absurd rfl hes
  | writeRefused => exact absurd rfl hes
  | flushRefused => exact absurd rfl hes

end First

/-- At the first request that meets an error the action ends with it. -/
theorem Action.Performs.cut {pre post : List Event} {ev : Event} (h : a.Performs io (pre ++ ev :: post) p)
    (hio : io.faults = {}) (hpre : f.Spares io pre) {s : StreamError} (hs : f.refusal? (io.after pre) ev = some s) :
    ∃ c, a.perform (io.withFaults f) = .halt c (.failed (.stream s)) ((io.after pre).withFaults f) := by
  induction pre generalizing a io with
  | nil => exact h.refused hio hs
  | cons x pre ih =>
    obtain ⟨a', h', ha⟩ := h.uncons hio (by simp) hpre.1
    rw [ha]
    exact ih h' (by rw [Streams.faults_behind, hio]) hpre.2 hs

end Action

section Run

variable {step : Step} {f : Faults} {limit : Nat} {c : Config} {io : Streams} (hio : io.faults = {})

include hio

/-- A run whose requests meet no error is the same run. -/
theorem runFor_spared (hlog : f.Spares io (logFor step limit c io)) :
    runFor step limit c (io.withFaults f) = (runFor step limit c io).map (·.withFaults f) ∧
      logFor step limit c (io.withFaults f) = logFor step limit c io := by
  induction limit generalizing c io with
  | zero => exact ⟨rfl, rfl⟩
  | succ limit ih =>
    have hperforms := (step c).performs io
    have hfaults := hperforms.io_eq
    cases hp : (step c).perform io with
    | resume c' io' =>
      rw [logFor_of_resume hp, List.cons_append] at hlog
      obtain ⟨hes, hrest⟩ := Faults.spares_append.mp hlog.2
      obtain ⟨hevents, hp'⟩ := (hperforms.spared hio hes).unique
      rw [hp] at hp' hfaults
      have hio' : io' = io.after ((step c).events io) := hfaults
      obtain ⟨hrun, hlog'⟩ := @ih c' io' (by rw [hio', Streams.faults_after, hio]) (hio' ▸ hrest)
      rw [logFor_of_resume hp, logFor_of_resume hp'.symm, ← hevents, hlog', runFor, ← hp', runFor, hp]
      exact ⟨hrun, rfl⟩
    | halt c' v io' =>
      rw [logFor_of_halt hp] at hlog
      obtain ⟨hevents, hp'⟩ := (hperforms.spared hio hlog.2).unique
      rw [hp] at hp'
      rw [logFor_of_halt hp, logFor_of_halt hp'.symm, ← hevents, runFor, ← hp', runFor, hp]
      exact ⟨rfl, rfl⟩

theorem runFor_cut {pre post : List Event} {ev : Event} (hlog : logFor step limit c io = pre ++ ev :: post)
    (hpre : f.Spares io pre) {s : StreamError} (hs : f.refusal? (io.after pre) ev = some s) :
    ∃ c', runFor step limit c (io.withFaults f) = some ⟨.failed (.stream s), c', (io.after pre).withFaults f⟩ := by
  induction limit generalizing c io pre with
  | zero => simp [logFor] at hlog
  | succ limit ih =>
    have hperforms := (step c).performs io
    have hfaults := hperforms.io_eq
    -- the beginning of an instruction meets no error
    have hfetch : ev ≠ .fetch c := by
      rintro rfl
      cases hs
    rw [logFor, List.cons_append] at hlog
    obtain ⟨pre, rfl, hbehind⟩ := split_cons hlog hfetch
    have inside : ∀ post', (step c).events io = pre ++ ev :: post' →
        ∃ c', runFor step (limit + 1) c (io.withFaults f) =
          some ⟨.failed (.stream s), c', (io.after (.fetch c :: pre)).withFaults f⟩ := by
      intro post' hes
      rw [hes] at hperforms
      obtain ⟨c', hc⟩ := hperforms.cut hio hpre.2 hs
      exact ⟨c', by rw [runFor, hc]; rfl⟩
    cases hp : (step c).perform io with
    | resume c' io' =>
      rw [hp] at hfaults hbehind
      have hio' : io' = io.after ((step c).events io) := hfaults
      rcases split_append hbehind with ⟨as, rfl, hrest⟩ | ⟨cs, hes, -⟩
      · obtain ⟨hes, has⟩ := Faults.spares_append.mp hpre.2
        obtain ⟨-, hp'⟩ := (hperforms.spared hio hes).unique
        rw [hp] at hp'
        rw [Streams.after_cons, Streams.behind, Streams.after_append, ← hio'] at hs ⊢
        obtain ⟨c'', hc⟩ := ih (by rw [hio', Streams.faults_after, hio]) hrest (hio' ▸ has) hs
        exact ⟨c'', by rw [runFor, ← hp']; exact hc⟩
      · exact inside cs hes
    | halt c' v io' =>
      rw [hp, List.append_nil] at hbehind
      exact inside post hbehind

end Run

section Engines

variable {e : Engine} {target : Target} {text : String} {f : Faults} {limit : Nat} {io : Streams} (hio : io.faults = {})

include hio

theorem Engine.run?_spared (hlog : f.Spares io (e.log target limit text io)) :
    e.run? target limit text (io.withFaults f) = (e.run? target limit text io).map (·.withFaults f) ∧
      e.log target limit text (io.withFaults f) = e.log target limit text io := by
  cases hprepare : e.prepare target text with
  | ok step =>
    rw [log_of_prepare hprepare] at hlog
    rw [log_of_prepare hprepare, log_of_prepare hprepare]
    simp only [run?_of_prepare hprepare]
    exact runFor_spared hio hlog
  | error g =>
    rw [log_of_error hprepare, log_of_error hprepare]
    simp only [run?_of_error hprepare]
    exact ⟨rfl, trivial⟩

theorem Engine.run?_cut {pre post : List Event} {ev : Event} (hlog : e.log target limit text io = pre ++ ev :: post)
    (hpre : f.Spares io pre) {s : StreamError} (hs : f.refusal? (io.after pre) ev = some s) :
    ∃ c, e.run? target limit text (io.withFaults f) = some ⟨.failed (.stream s), c, (io.after pre).withFaults f⟩ := by
  cases hprepare : e.prepare target text with
  | ok step =>
    rw [log_of_prepare hprepare] at hlog
    simp only [run?_of_prepare hprepare]
    exact runFor_cut hio hlog hpre hs
  | error g =>
    rw [log_of_error hprepare] at hlog
    simp at hlog

end Engines

/-- The ways in which streams begin to fail. -/
inductive Fault where
  | read
  | write
  /-- No more bytes are taken. -/
  | full
  | flush
  deriving DecidableEq

namespace Fault

def faults (φ : Fault) (n : Nat) : Faults :=
  match φ with
  | read => { readFail := some n }
  | write => { writeFail := some n }
  | full => { writeFull := some n }
  | flush => { flushFail := some n }

def error : Fault → StreamError
  | read => .readFailed
  | write => .writeFailed
  | full => .nothingWritten
  | flush => .flushFailed

/-- What the fault is counted in. -/
def count (φ : Fault) (io : Streams) : Nat :=
  match φ with
  | read => io.consumed
  | write => io.written.size
  | full => io.written.size
  | flush => io.flushes

def asks : Fault → Event → Bool
  | read, .read _ => true
  | write, .write _ _ => true
  | full, .write _ _ => true
  | flush, .flush _ => true
  | _, _ => false

variable (φ : Fault) {n : Nat} (io : Streams) (ev : Event)

theorem refusal?_eq : (φ.faults n).refusal? io ev = if φ.asks ev = true ∧ n ≤ φ.count io then some φ.error else none := by
  cases φ <;> cases ev <;> simp [faults, Faults.refusal?, asks, count, error, Streams.begun]

theorem count_behind_of_granted (h : φ.asks ev = true) (hev : ev.Granted) : φ.count (io.behind ev) = φ.count io + 1 := by
  match ev with
  | .fetch _ => cases φ <;> cases h
  | .read (.error _) | .write _ (some _) | .flush (some _) => exact hev.elim
  | .read (.ok _) | .write _ none | .flush none =>
    cases φ <;> simp_all [count, asks, Streams.behind]

theorem count_behind_of_not (h : ¬ (φ.asks ev = true ∧ ev.Granted)) : φ.count (io.behind ev) = φ.count io := by
  match ev with
  | .fetch _ | .read (.error _) | .write _ (some _) | .flush (some _) => rfl
  | .read (.ok _) =>
    cases φ with
    | read => exact absurd ⟨rfl, trivial⟩ h
    | write | full | flush => rfl
  | .write _ none =>
    cases φ with
    | write | full => exact absurd ⟨rfl, trivial⟩ h
    | read | flush => rfl
  | .flush none =>
    cases φ with
    | flush => exact absurd ⟨rfl, trivial⟩ h
    | read | write | full => rfl

theorem count_le_behind : φ.count io ≤ φ.count (io.behind ev) := by
  by_cases hg : φ.asks ev = true ∧ ev.Granted
  · have hone := φ.count_behind_of_granted io ev hg.1 hg.2
    omega
  · have hsame := φ.count_behind_of_not io ev hg
    omega

theorem count_behind_le (h : φ.asks ev = true → φ.count io < n) (hn : φ.count io ≤ n) : φ.count (io.behind ev) ≤ n := by
  by_cases hg : φ.asks ev = true ∧ ev.Granted
  · have hlt := h hg.1
    have hone := φ.count_behind_of_granted io ev hg.1 hg.2
    omega
  · have hsame := φ.count_behind_of_not io ev hg
    omega

theorem granted_of_delivered (hread : φ ≠ read) (h : φ.asks ev = true) (hev : ev.Delivered) : ev.Granted := by
  match ev with
  | .fetch _ | .read (.ok _) | .write _ none | .flush none => trivial
  | .read (.error _) =>
    cases φ with
    | read => exact hread rfl
    | write | full | flush => cases h
  | .write _ (some _) | .flush (some _) => cases hev

theorem count_le_after (es : List Event) : φ.count io ≤ φ.count (io.after es) := by
  induction es generalizing io with
  | nil => exact Nat.le_refl _
  | cons ev es ih => exact Nat.le_trans (φ.count_le_behind io ev) (ih (io.behind ev))

variable {io}

/-- Before the count is beyond `n`, no request meets the fault. -/
theorem spares_of_count {es : List Event} (hes : ∀ ev ∈ es, ev.Granted) (hn : φ.count (io.after es) ≤ n) :
    (φ.faults n).Spares io es := by
  induction es generalizing io with
  | nil => trivial
  | cons ev es ih =>
    refine ⟨?_, ih (fun x hx => hes x (List.mem_cons_of_mem ev hx)) hn⟩
    rw [φ.refusal?_eq, if_neg]
    intro hmeets
    have hone := φ.count_behind_of_granted io ev hmeets.1 (hes ev List.mem_cons_self)
    have hrest := φ.count_le_after (io.behind ev) es
    rw [Streams.after_cons] at hn
    omega

/-- A log without a request at count `n` is spared, and the count does not get beyond `n`. -/
theorem spares_of_not_asked {es : List Event} (hn : φ.count io ≤ n)
    (h : ∀ pre ev post, es = pre ++ ev :: post → φ.asks ev = true → φ.count (io.after pre) ≠ n) :
    (φ.faults n).Spares io es ∧ φ.count (io.after es) ≤ n := by
  induction es generalizing io with
  | nil => exact ⟨trivial, hn⟩
  | cons ev es ih =>
    have hlt : φ.asks ev = true → φ.count io < n := fun hask => Nat.lt_of_le_of_ne hn (h [] ev es rfl hask)
    obtain ⟨hes, hcount⟩ := ih (φ.count_behind_le io ev hlt hn) fun pre x post he => h (ev :: pre) x post (he ▸ rfl)
    refine ⟨⟨?_, hes⟩, hcount⟩
    rw [φ.refusal?_eq, if_neg]
    intro hmeets
    have hbelow := hlt hmeets.1
    omega

theorem exists_asked {es : List Event} (hn : φ.count io ≤ n) (h : n < φ.count (io.after es)) :
    ∃ pre ev post, es = pre ++ ev :: post ∧ φ.asks ev = true ∧ φ.count (io.after pre) = n := by
  by_contra hnone
  have hcount := (φ.spares_of_not_asked hn fun pre ev post he hask hc => hnone ⟨pre, ev, post, he, hask, hc⟩).2
  omega

end Fault

section Faultless

variable {io : Streams} (hio : io.faults = {})

include hio

/-- Streams that never fail refuse no write and no flush. -/
theorem Action.Performs.delivered {a : Action} {es : List Event} {p : Reply} (h : a.Performs io es p) :
    ∀ ev ∈ es, ev.Delivered := by
  induction h with
  | resume => exact fun ev hev => (List.not_mem_nil hev).elim
  | halt => exact fun ev hev => (List.not_mem_nil hev).elim
  | @read _ _ b io io' _ _ hr _ ih =>
    have hio' := Streams.eq_behind_read hr
    exact List.forall_mem_cons.mpr ⟨trivial, ih (by rw [hio', Streams.faults_behind, hio])⟩
  | readRefused => exact List.forall_mem_singleton.mpr trivial
  | @write _ b _ io io' _ _ hr _ ih =>
    have hio' := Streams.eq_behind_write hr
    exact List.forall_mem_cons.mpr ⟨rfl, ih (by rw [hio', Streams.faults_behind, hio])⟩
  | writeRefused hr => simp [Streams.write, hio] at hr
  | @flush _ _ io io' _ _ hr _ ih =>
    have hio' := Streams.eq_behind_flush hr
    exact List.forall_mem_cons.mpr ⟨rfl, ih (by rw [hio', Streams.faults_behind, hio])⟩
  | flushRefused hr => simp [Streams.flush, hio] at hr

theorem delivered_logFor (step : Step) (limit : Nat) (c : Config) :
    ∀ ev ∈ logFor step limit c io, ev.Delivered := by
  induction limit generalizing c io with
  | zero => exact fun ev hev => (List.not_mem_nil hev).elim
  | succ limit ih =>
    have hperforms := (step c).performs io
    have hevents := hperforms.delivered hio
    have hfaults := hperforms.io_eq
    cases hp : (step c).perform io with
    | resume c' io' =>
      rw [hp] at hfaults
      have hio' : io' = io.after ((step c).events io) := hfaults
      rw [logFor_of_resume hp, List.cons_append]
      refine List.forall_mem_cons.mpr ⟨trivial, List.forall_mem_append.mpr ⟨hevents, ih ?_ c'⟩⟩
      rw [hio', Streams.faults_after, hio]
    | halt c' v io' =>
      rw [logFor_of_halt hp]
      exact List.forall_mem_cons.mpr ⟨trivial, hevents⟩

theorem Engine.delivered_log (e : Engine) (target : Target) (limit : Nat) (text : String) :
    ∀ ev ∈ e.log target limit text io, ev.Delivered := by
  unfold log
  split
  · exact delivered_logFor hio _ _ _
  · exact fun ev hev => (List.not_mem_nil hev).elim

end Faultless

theorem Streams.exists_written_after (io : Streams) (es : List Event) :
    ∃ bs, (io.after es).written.toList = io.written.toList ++ bs := by
  induction es generalizing io with
  | nil => exact ⟨[], (List.append_nil _).symm⟩
  | cons ev es ih =>
    obtain ⟨bs, hbs⟩ := ih (io.behind ev)
    rw [after_cons, hbs]
    match ev with
    | .write b none => exact ⟨b :: bs, by simp [behind]⟩
    | .fetch _ | .read (.ok _) | .read (.error _) | .write _ (some _) | .flush none | .flush (some _) => exact ⟨bs, rfl⟩

/-- What was written in front are the first bytes of all that is written. -/
theorem Streams.take_written_after (io : Streams) (es fs : List Event) :
    (io.after (es ++ fs)).written.toList.take (io.after es).written.size = (io.after es).written.toList := by
  obtain ⟨bs, hbs⟩ := (io.after es).exists_written_after fs
  rw [after_append, hbs, ← Array.length_toList, List.take_left]

namespace Engine

/-- The run is the same if the streams begin to fail as given, however long it is. -/
def Unaffected (e : Engine) (target : Target) (text : String) (io : Streams) (f : Faults) : Prop :=
  ∀ limit, e.run? target limit text (io.withFaults f) = (e.run? target limit text io).map (·.withFaults f) ∧
    e.log target limit text (io.withFaults f) = e.log target limit text io

/-- If the streams begin to fail as given, the run ends with this error, and the streams are left as they were behind
the log. -/
def CutBehind (e : Engine) (target : Target) (text : String) (io : Streams) (f : Faults) (s : StreamError)
    (es : List Event) : Prop :=
  ∃ x, e.Finishes target text (io.withFaults f) x ∧ x.verdict = .failed (.stream s) ∧ x.io = (io.after es).withFaults f

variable {e : Engine} {target : Target} {text : String} {io : Streams} {φ : Fault} {n : Nat} (hio : io.faults = {})

include hio

theorem cutBehind {limit : Nat} {pre post : List Event} {ev : Event}
    (hlog : e.log target limit text io = pre ++ ev :: post) (hask : φ.asks ev = true)
    (hn : φ.count (io.after pre) = n) : e.CutBehind target text io (φ.faults n) φ.error pre := by
  have hgranted : ∀ x ∈ pre, x.Granted := (hlog ▸ e.unbroken_log target limit text io).granted
  have hspared := φ.spares_of_count hgranted (Nat.le_of_eq hn)
  have hmeets : (φ.faults n).refusal? (io.after pre) ev = some φ.error := by
    rw [φ.refusal?_eq, if_pos ⟨hask, Nat.le_of_eq hn.symm⟩]
  obtain ⟨c, hrun⟩ := run?_cut hio hlog hspared hmeets
  exact ⟨_, ⟨limit, hrun⟩, rfl, rfl⟩

theorem unaffected_of_not_asked (hn : φ.count io ≤ n)
    (h : ∀ limit pre ev post, e.log target limit text io = pre ++ ev :: post → φ.asks ev = true →
      φ.count (io.after pre) ≠ n) : e.Unaffected target text io (φ.faults n) :=
  fun limit => run?_spared hio (φ.spares_of_not_asked hn (h limit)).1

/-- A fault that is counted by what the run gets done: it cuts the run, or the count never gets beyond `n`. -/
theorem unaffected_of_count_le (hφ : φ ≠ .read) (hn : φ.count io ≤ n)
    (h : ∀ limit, φ.count (io.after (e.log target limit text io)) ≤ n) : e.Unaffected target text io (φ.faults n) := by
  refine unaffected_of_not_asked hio hn ?_
  intro limit pre ev post hlog hask hcount
  have hdelivered := delivered_log hio e target limit text ev (hlog ▸ List.mem_append_right _ List.mem_cons_self)
  have hgranted := φ.granted_of_delivered ev hφ hask hdelivered
  have hone := φ.count_behind_of_granted (io.after pre) ev hask hgranted
  have hrest := φ.count_le_after ((io.after pre).behind ev) post
  have hall := h limit
  rw [hlog, Streams.after_append, Streams.after_cons] at hall
  omega

theorem exists_cutBehind {limit : Nat} (hn : φ.count io ≤ n)
    (h : n < φ.count (io.after (e.log target limit text io))) :
    ∃ pre ev post, e.log target limit text io = pre ++ ev :: post ∧ φ.asks ev = true ∧ ev.Delivered ∧
      φ.count (io.after pre) = n ∧ e.CutBehind target text io (φ.faults n) φ.error pre := by
  obtain ⟨pre, ev, post, hlog, hask, hcount⟩ := φ.exists_asked hn h
  have hdelivered := delivered_log hio e target limit text ev (hlog ▸ List.mem_append_right _ List.mem_cons_self)
  exact ⟨pre, ev, post, hlog, hask, hdelivered, hcount, cutBehind hio hlog hask hcount⟩

theorem exists_cutBehind_write (hφ : φ = .write ∨ φ = .full) (hn : io.written.size ≤ n) {limit : Nat}
    (h : n < (io.after (e.log target limit text io)).written.size) :
    ∃ pre b post, e.log target limit text io = pre ++ .write b none :: post ∧ (io.after pre).written.size = n ∧
      (io.after pre).written.toList = (io.after (e.log target limit text io)).written.toList.take n ∧
      e.CutBehind target text io (φ.faults n) φ.error pre := by
  have hcount : φ.count = fun jo => jo.written.size := by
    rcases hφ with rfl | rfl
    · rfl
    · rfl
  obtain ⟨pre, ev, post, hlog, hask, hdelivered, hpre, hcut⟩ :=
    exists_cutBehind hio (hcount ▸ hn) (hcount ▸ h : n < φ.count (io.after (e.log target limit text io)))
  have hsize : (io.after pre).written.size = n := by rw [← hpre, hcount]
  obtain ⟨b, rfl⟩ : ∃ b, ev = .write b none := by
    match ev with
    | .write b none => exact ⟨b, rfl⟩
    | .write _ (some _) => cases hdelivered
    | .fetch _ | .read _ | .flush _ => rcases hφ with rfl | rfl <;> cases hask
  refine ⟨pre, b, post, hlog, hsize, ?_, hcut⟩
  rw [hlog, ← hsize, io.take_written_after]

theorem unaffected_write (hφ : φ = .write ∨ φ = .full) (hn : io.written.size ≤ n)
    (h : ∀ limit, (io.after (e.log target limit text io)).written.size ≤ n) : e.Unaffected target text io (φ.faults n) := by
  rcases hφ with rfl | rfl
  · exact unaffected_of_count_le hio nofun hn h
  · exact unaffected_of_count_le hio nofun hn h

theorem exists_cutBehind_flush (hn : io.flushes ≤ n) {limit : Nat}
    (h : n < (io.after (e.log target limit text io)).flushes) :
    ∃ pre post, e.log target limit text io = pre ++ .flush none :: post ∧ (io.after pre).flushes = n ∧
      e.CutBehind target text io (Fault.flush.faults n) .flushFailed pre := by
  obtain ⟨pre, ev, post, hlog, hask, hdelivered, hpre, hcut⟩ := @exists_cutBehind e target text io .flush n hio limit hn h
  match ev with
  | .flush none => exact ⟨pre, post, hlog, hpre, hcut⟩
  | .flush (some _) => cases hdelivered

end Engine

/-- Failing streams only cut a run short. A writer that fails after `n` bytes ends the run when it offers the next byte,
flushes that fail after `n` good ones end it at the next flush, and reads that fail after `n` bytes end it when another
byte is asked for. If the run on streams that never fail does not get there, it is the same run. -/
theorem faults_cut_short (e : Engine) (target : Target) (text : String) {input : List UInt8} (n : Nat) {io : Streams}
    (hio : io = .start input {}) :
    (∀ φ, φ = Fault.write ∨ φ = Fault.full →
      (∀ k, n < (io.after (e.log target k text io)).written.size → ∃ pre b post,
        e.log target k text io = pre ++ .write b none :: post ∧ (io.after pre).written.size = n ∧
        (io.after pre).written.toList = (io.after (e.log target k text io)).written.toList.take n ∧
        e.CutBehind target text io (φ.faults n) φ.error pre) ∧
      ((∀ k, (io.after (e.log target k text io)).written.size ≤ n) → e.Unaffected target text io (φ.faults n))) ∧
    ((∀ k, n < (io.after (e.log target k text io)).flushes → ∃ pre post,
        e.log target k text io = pre ++ .flush none :: post ∧
        (io.after pre).flushes = n ∧ e.CutBehind target text io (Fault.flush.faults n) .flushFailed pre) ∧
      ((∀ k, (io.after (e.log target k text io)).flushes ≤ n) → e.Unaffected target text io (Fault.flush.faults n))) ∧
    (∀ k pre a post, e.log target k text io = pre ++ .read a :: post → (io.after pre).consumed = n →
      e.CutBehind target text io (Fault.read.faults n) .readFailed pre) ∧
    ((∀ k pre a post, e.log target k text io = pre ++ .read a :: post → (io.after pre).consumed ≠ n) →
      e.Unaffected target text io (Fault.read.faults n)) := by
  subst hio
  have hio : (Streams.start input {}).faults = {} := rfl
  have h0 : (Streams.start input {}).written.size ≤ n := Nat.zero_le n
  have h0' : (Streams.start input {}).flushes ≤ n := Nat.zero_le n
  refine ⟨fun φ hφ => ⟨?_, Engine.unaffected_write hio hφ h0⟩, ⟨?_, ?_⟩, ?_, ?_⟩
  · exact fun k => Engine.exists_cutBehind_write hio hφ h0
  · exact fun k => Engine.exists_cutBehind_flush hio h0'
  · exact @Engine.unaffected_of_count_le e target text _ .flush n hio nofun h0'
  · intro k pre a post hlog hpre
    exact @Engine.cutBehind e target text _ .read n hio k pre post (.read a) hlog rfl hpre
  · intro h
    refine @Engine.unaffected_of_not_asked e target text _ .read n hio (Nat.zero_le n) ?_
    intro k pre ev post hlog hask
    match ev with
    | .read a => exact h k pre a post hlog

/-- The writer takes one byte and no more. -/
theorem faults_cut_short_full :
    ∃ x, Engine.plainNative.Finishes .standard ",.+.[-]" (.start [7] (Fault.full.faults 1)) x ∧
      x.verdict = .failed (.stream .nothingWritten) ∧ x.io.written.toList = [7] := by
  have hwritten : ((Streams.start [7] {}).after
      (Engine.plainNative.log .standard 9 ",.+.[-]" (.start [7] {}))).written.toList = [7, 8] := rfl
  have hlog : 1 < ((Streams.start [7] {}).after
      (Engine.plainNative.log .standard 9 ",.+.[-]" (.start [7] {}))).written.size := by decide
  obtain ⟨hwriter, -⟩ := faults_cut_short .plainNative .standard ",.+.[-]" 1 (rfl : Streams.start [7] {} = _)
  obtain ⟨pre, b, post, -, -, htake, x, hx, hv, hxio⟩ := (hwriter .full (.inr rfl)).1 9 hlog
  refine ⟨x, hx, hv, ?_⟩
  rw [hwritten] at htake
  rw [hxio]
  exact htake

end TapeMachine
