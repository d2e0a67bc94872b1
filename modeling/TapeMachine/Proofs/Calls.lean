import TapeMachine.Bench.Measure
import TapeMachine.Proofs.Unread

namespace TapeMachine

variable {target : Target}

structure Call where
  engine : Engine
  text : String
  input : List UInt8

def Call.Gives (c : Call) (target : Target) (v : Verdict) : Prop :=
  ∃ limit, c.engine.verdict? target limit c.text c.input = some v

theorem Engine.verdict?_add {e : Engine} {limit : Nat} {text : String} {input : List UInt8} {v : Verdict}
    (h : e.verdict? target limit text input = some v) (k : Nat) : e.verdict? target (limit + k) text input = some v := by
  obtain ⟨x, hx, hv⟩ := Option.map_eq_some_iff.mp h
  exact Option.map_eq_some_iff.mpr ⟨x, run?_add hx k, hv⟩

theorem Engine.Finishes.unique {e : Engine} {text : String} {io : Streams} {x y : Ended}
    (hx : e.Finishes target text io x) (hy : e.Finishes target text io y) : x = y := by
  obtain ⟨n, hn⟩ := hx
  obtain ⟨m, hm⟩ := hy
  have hn' := run?_add hn m
  rw [Nat.add_comm, run?_add hm n] at hn'
  exact (Option.some.inj hn').symm

theorem Call.Gives.unique {c : Call} {v v' : Verdict} (h : c.Gives target v) (h' : c.Gives target v') : v = v' := by
  obtain ⟨n, hn⟩ := h
  obtain ⟨m, hm⟩ := h'
  have hn' := Engine.verdict?_add hn m
  rw [Nat.add_comm, Engine.verdict?_add hm n] at hn'
  exact (Option.some.inj hn').symm

namespace Job

variable {α β : Type}

/-- The job, done in a world, makes the calls in their order, ends with the answer and leaves the other world. -/
inductive Does (target : Target) : Job α → World → List Call → α → World → Prop where
  | done (a : α) (w : World) : Does target (.done a) w [] a w
  | fetch {p : Path} {next : Except StreamError (List UInt8) → Job α} {w w' : World} {cs : List Call} {a : α} :
      Does target (next (w.files.fetch p)) w cs a w' → Does target (.fetch p next) w cs a w'
  | isDirectory {p : Path} {next : Bool → Job α} {w w' : World} {cs : List Call} {a : α} :
      Does target (next (w.files.isDirectory p)) w cs a w' → Does target (.isDirectory p next) w cs a w'
  | made {p : Path} {next : Except StreamError Unit → Job α} {w w' : World} {cs : List Call} {a : α}
      {files : FileTree} : w.files.makeDirectory p = .ok files →
      Does target (next (.ok ())) { w with files := files } cs a w' → Does target (.makeDirectory p next) w cs a w'
  | notMade {p : Path} {next : Except StreamError Unit → Job α} {w w' : World} {cs : List Call} {a : α}
      {e : StreamError} : w.files.makeDirectory p = .error e →
      Does target (next (.error e)) w cs a w' → Does target (.makeDirectory p next) w cs a w'
  | stored {p : Path} {content : List UInt8} {next : Except StreamError Unit → Job α} {w w' : World}
      {cs : List Call} {a : α} {files : FileTree} : w.files.store p content = .ok files →
      Does target (next (.ok ())) { w with files := files } cs a w' → Does target (.store p content next) w cs a w'
  | notStored {p : Path} {content : List UInt8} {next : Except StreamError Unit → Job α} {w w' : World}
      {cs : List Call} {a : α} {e : StreamError} : w.files.store p content = .error e →
      Does target (next (.error e)) w cs a w' → Does target (.store p content next) w cs a w'
  | call {e : Engine} {text : String} {input : List UInt8} {next : Verdict → Nat → Job α} {w w' : World}
      {cs : List Call} {a : α} {v : Verdict} : (Call.mk e text input).Gives target v →
      Does target (next v 0) { w with calls := w.calls.push e } cs a w' →
      Does target (.call e text input next) w (⟨e, text, input⟩ :: cs) a w'
  | drive {e : Engine} {text : String} {next : Verdict → Job α} {w w' : World} {cs : List Call} {a : α} {r : Ended} :
      e.Finishes target text w.io r → Does target (next r.verdict) { w with io := r.io } cs a w' →
      Does target (.drive e text next) w cs a w'

theorem Does.bind {j : Job α} {f : α → Job β} {w w' w'' : World} {cs cs' : List Call} {a : α} {b : β}
    (h : Does target j w cs a w') (h' : Does target (f a) w' cs' b w'') : Does target (j >>= f) w (cs ++ cs') b w'' := by
  induction h with
  | done => exact h'
  | fetch _ ih => exact .fetch (ih h')
  | isDirectory _ ih => exact .isDirectory (ih h')
  | made hp _ ih => exact .made hp (ih h')
  | notMade hp _ ih => exact .notMade hp (ih h')
  | stored hp _ ih => exact .stored hp (ih h')
  | notStored hp _ ih => exact .notStored hp (ih h')
  | call hv _ ih => exact .call hv (ih h')
  | drive hr _ ih => exact .drive hr (ih h')

theorem Does.bind_nil {j : Job α} {f : α → Job β} {w w' w'' : World} {cs : List Call} {a : α} {b : β}
    (h : Does target j w cs a w') (h' : Does target (f a) w' [] b w'') : Does target (j >>= f) w cs b w'' := by
  have hb := h.bind h'
  rwa [List.append_nil] at hb

theorem Does.unique {j : Job α} {w w' w'' : World} {cs cs' : List Call} {a a' : α} (h : Does target j w cs a w')
    (h' : Does target j w cs' a' w'') : cs = cs' ∧ a = a' ∧ w' = w'' := by
  induction h generalizing cs' with
  | done => cases h'; exact ⟨rfl, rfl, rfl⟩
  | fetch _ ih => cases h' with | fetch h' => exact ih h'
  | isDirectory _ ih => cases h' with | isDirectory h' => exact ih h'
  | made hp _ ih =>
    cases h' with
    | made hp' h' => cases hp.symm.trans hp'; exact ih h'
    | notMade hp' => cases hp.symm.trans hp'
  | notMade hp _ ih =>
    cases h' with
    | made hp' => cases hp.symm.trans hp'
    | notMade hp' h' => cases hp.symm.trans hp'; exact ih h'
  | stored hp _ ih =>
    cases h' with
    | stored hp' h' => cases hp.symm.trans hp'; exact ih h'
    | notStored hp' => cases hp.symm.trans hp'
  | notStored hp _ ih =>
    cases h' with
    | stored hp' => cases hp.symm.trans hp'
    | notStored hp' h' => cases hp.symm.trans hp'; exact ih h'
  | call hv _ ih =>
    cases h' with
    | call hv' h' =>
      cases hv.unique hv'
      obtain ⟨rfl, ha, hw⟩ := ih h'
      exact ⟨rfl, ha, hw⟩
  | drive hr _ ih => cases h' with | drive hr' h' => cases hr.unique hr'; exact ih h'

theorem perform_add {limit : Nat} {j : Job α} {w : World} {x : α × World} (h : j.perform target limit w = some x) (k : Nat) :
    j.perform target (limit + k) w = some x := by
  induction j generalizing w with
  | done a => exact h
  | fetch p next ih => exact ih _ h
  | isDirectory p next ih => exact ih _ h
  | makeDirectory p next ih =>
    rw [perform] at h ⊢
    split at h <;> exact ih _ h
  | store p content next ih =>
    rw [perform] at h ⊢
    split at h <;> exact ih _ h
  | call e text input next ih =>
    rw [perform] at h ⊢
    split at h
    next v hv =>
      rw [Engine.verdict?_add hv k]
      exact ih _ _ h
    next => cases h
  | drive e text next ih =>
    rw [perform] at h ⊢
    split at h
    next r hr =>
      rw [Engine.run?_add hr k]
      exact ih _ h
    next => cases h

theorem Does.exists_perform {j : Job α} {w w' : World} {cs : List Call} {a : α} (h : Does target j w cs a w') :
    ∃ limit, j.perform target limit w = some (a, w') := by
  induction h with
  | done => exact ⟨0, rfl⟩
  | fetch _ ih => exact ih
  | isDirectory _ ih => exact ih
  | made hp _ ih | notMade hp _ ih | stored hp _ ih | notStored hp _ ih =>
    obtain ⟨n, hn⟩ := ih
    refine ⟨n, ?_⟩
    rw [perform, hp]
    exact hn
  | call hv _ ih =>
    obtain ⟨n, hn⟩ := ih
    obtain ⟨m, hm⟩ := hv
    refine ⟨m + n, ?_⟩
    rw [perform, Engine.verdict?_add hm n, Nat.add_comm]
    exact perform_add hn m
  | drive hr _ ih =>
    obtain ⟨n, hn⟩ := ih
    obtain ⟨m, hm⟩ := hr
    refine ⟨m + n, ?_⟩
    rw [perform, Engine.run?_add hm n, Nat.add_comm]
    exact perform_add hn m

theorem exists_does_of_perform {limit : Nat} {j : Job α} {w w' : World} {a : α}
    (h : j.perform target limit w = some (a, w')) : ∃ cs, Does target j w cs a w' := by
  induction j generalizing w with
  | done b =>
    cases h
    exact ⟨[], .done _ _⟩
  | fetch p next ih =>
    obtain ⟨cs, hd⟩ := ih _ h
    exact ⟨cs, .fetch hd⟩
  | isDirectory p next ih =>
    obtain ⟨cs, hd⟩ := ih _ h
    exact ⟨cs, .isDirectory hd⟩
  | makeDirectory p next ih =>
    rw [perform] at h
    split at h
    next hp =>
      obtain ⟨cs, hd⟩ := ih _ h
      exact ⟨cs, .made hp hd⟩
    next hp =>
      obtain ⟨cs, hd⟩ := ih _ h
      exact ⟨cs, .notMade hp hd⟩
  | store p content next ih =>
    rw [perform] at h
    split at h
    next hp =>
      obtain ⟨cs, hd⟩ := ih _ h
      exact ⟨cs, .stored hp hd⟩
    next hp =>
      obtain ⟨cs, hd⟩ := ih _ h
      exact ⟨cs, .notStored hp hd⟩
  | call e text input next ih =>
    rw [perform] at h
    split at h
    next v hv =>
      obtain ⟨cs, hd⟩ := ih _ _ h
      exact ⟨_, .call ⟨limit, hv⟩ hd⟩
    next => cases h
  | drive e text next ih =>
    rw [perform] at h
    split at h
    next r hr =>
      obtain ⟨cs, hd⟩ := ih _ h
      exact ⟨cs, .drive ⟨limit, hr⟩ hd⟩
    next => cases h

end Job

/-- The world once the calls have been made. -/
def World.called (w : World) (cs : List Call) : World :=
  { w with calls := w.calls ++ (cs.map Call.engine).toArray }

theorem World.called_nil (w : World) : w.called [] = w := by
  simp [called]

theorem World.called_cons (w : World) (c : Call) (cs : List Call) :
    ({ w with calls := w.calls.push c.engine } : World).called cs = w.called (c :: cs) := by
  simp [called]

theorem World.called_append (w : World) (cs cs' : List Call) : (w.called cs).called cs' = w.called (cs ++ cs') := by
  simp [called, Array.append_assoc]

/-- The log of a world has the engines of the calls behind what it had. -/
theorem Job.Does.calls_eq {α : Type} {j : Job α} {w w' : World} {cs : List Call} {a : α} (h : j.Does target w cs a w') :
    w'.calls = (w.called cs).calls := by
  induction h with
  | done a w => rw [World.called_nil]
  | fetch _ ih | isDirectory _ ih | made _ _ ih | notMade _ _ ih | stored _ _ ih | notStored _ _ ih
  | drive _ _ ih => exact ih
  | call _ _ ih => rw [ih, ← World.called_cons]

namespace Bench

variable {text : String} {input : List UInt8}

/-- The runs of one engine that make one sample. -/
def timedRuns (text : String) (input : List UInt8) (iterations : Nat) (e : Engine) : List Call :=
  List.replicate (max iterations 1) ⟨e, text, input⟩

/-- All runs end well, or there is a first engine whose run does not. -/
theorem first_failing {engines : List Engine} (h : ∀ e ∈ engines, ∃ v, Call.Gives ⟨e, text, input⟩ target v) :
    (∀ e ∈ engines, Call.Gives ⟨e, text, input⟩ target .done) ∨
      ∃ before e after v, engines = before ++ e :: after ∧ (∀ e ∈ before, Call.Gives ⟨e, text, input⟩ target .done) ∧
        Call.Gives ⟨e, text, input⟩ target v ∧ v ≠ .done := by
  induction engines with
  | nil => exact .inl nofun
  | cons e engines ih =>
    obtain ⟨v, hv⟩ := h e List.mem_cons_self
    by_cases hd : v = .done
    · subst hd
      rcases ih fun e' he' => h e' (List.mem_cons_of_mem _ he') with hall | ⟨before, e', after, v, rfl, hb, he', hne⟩
      · exact .inl (List.forall_mem_cons.mpr ⟨hv, hall⟩)
      · exact .inr ⟨e :: before, e', after, v, rfl, List.forall_mem_cons.mpr ⟨hv, hb⟩, he', hne⟩
    · exact .inr ⟨[], e, engines, v, rfl, nofun, hv, hd⟩

end Bench

end TapeMachine
