import TapeMachine.Proofs.Calls

namespace TapeMachine

variable {target : Target}

namespace Job

variable {α β : Type}

/-- The job needs nothing but runs, makes these calls, each of which takes its time, and ends with the answer. -/
inductive Spends (target : Target) : Job α → List (Call × Nat) → α → Prop where
  | done (a : α) : Spends target (.done a) [] a
  | call {e : Engine} {text : String} {input : List UInt8} {next : Verdict → Nat → Job α} {spent : List (Call × Nat)}
      {a : α} {v : Verdict} (ns : Nat) : (Call.mk e text input).Gives target v → Spends target (next v ns) spent a →
      Spends target (.call e text input next) ((⟨e, text, input⟩, ns) :: spent) a

variable {spent : List (Call × Nat)} {a : α}

theorem spends_done_iff {b : α} : (done b).Spends target spent a ↔ spent = [] ∧ a = b := by
  constructor
  · rintro ⟨⟩
    exact ⟨rfl, rfl⟩
  · rintro ⟨rfl, rfl⟩
    exact .done a

/-- The verdict is known, the time is not. -/
theorem spends_call_iff {e : Engine} {text : String} {input : List UInt8} {next : Verdict → Nat → Job α} {v : Verdict}
    (h : Call.Gives ⟨e, text, input⟩ target v) : (call e text input next).Spends target spent a ↔
      ∃ ns rest, spent = (⟨e, text, input⟩, ns) :: rest ∧ (next v ns).Spends target rest a := by
  constructor
  · rintro (_ | ⟨ns, hv, hrest⟩)
    cases hv.unique h
    exact ⟨ns, _, rfl, hrest⟩
  · rintro ⟨ns, rest, rfl, hrest⟩
    exact .call ns h hrest

theorem spends_bind_iff {j : Job α} {f : α → Job β} {b : β} : (j >>= f).Spends target spent b ↔
    ∃ s s' a, spent = s ++ s' ∧ j.Spends target s a ∧ (f a).Spends target s' b := by
  constructor
  · intro h
    induction j generalizing spent with
    | done a => exact ⟨[], spent, a, rfl, .done a, h⟩
    | call e text input next ih =>
      cases h with
      | call ns hv hrest =>
        obtain ⟨s, s', a, rfl, hs, hs'⟩ := ih _ _ hrest
        exact ⟨_, s', a, rfl, .call ns hv hs, hs'⟩
    | fetch => cases h
    | isDirectory => cases h
    | makeDirectory => cases h
    | store => cases h
    | drive => cases h
  · rintro ⟨s, s', a, rfl, hs, hs'⟩
    induction hs with
    | done => exact hs'
    | call ns hv _ ih => exact .call ns hv (ih hs')

theorem spends_bind_done_iff {j : Job α} {f : α → Job β} {g : α → β} (hf : ∀ a, f a = done (g a)) {b : β} :
    (j >>= f).Spends target spent b ↔ ∃ a, j.Spends target spent a ∧ b = g a := by
  rw [spends_bind_iff]
  simp only [hf, spends_done_iff]
  constructor
  · rintro ⟨s, s', a, rfl, hs, rfl, rfl⟩
    rw [List.append_nil]
    exact ⟨a, hs, rfl⟩
  · rintro ⟨a, hs, rfl⟩
    exact ⟨spent, [], a, (List.append_nil _).symm, hs, rfl, rfl⟩

theorem map_fst_timeless (calls : List Call) : (calls.map fun c => (c, 0)).map Prod.fst = calls := by
  rw [List.map_map]
  exact List.map_id calls

/-- In a world where time stands still, runs take no time, and they are all that is left behind. -/
theorem Spends.does {j : Job α} {calls : List Call} (h : j.Spends target (calls.map fun c => (c, 0)) a) (w : World) :
    j.Does target w calls a (w.called calls) := by
  generalize hspent : (calls.map fun c => (c, 0)) = spent at h
  induction h generalizing calls w with
  | done a =>
    cases List.map_eq_nil_iff.mp hspent
    rw [World.called_nil]
    exact .done a w
  | call ns hv _ ih =>
    obtain ⟨c, rest, rfl, hc, hrest⟩ := List.map_eq_cons_iff.mp hspent
    cases hc
    rw [← World.called_cons]
    exact .call hv (ih _ hrest)

end Job

namespace Bench

variable {text : String} {input : List UInt8} {iterations : Nat} {spent : List (Call × Nat)}

/-- One sample for each engine, from the times of its runs, which follow each other. -/
def samplesOf (iterations : Nat) : List Engine → List Nat → List Sample
  | [], _ => []
  | e :: es, times =>
    ⟨e.name, average (times.take (max iterations 1)).sum (max iterations 1)⟩ ::
      samplesOf iterations es (times.drop (max iterations 1))

theorem engine_samplesOf (engines : List Engine) (times : List Nat) :
    (samplesOf iterations engines times).map Sample.engine = engines.map Engine.name := by
  induction engines generalizing times with
  | nil => rfl
  | cons e engines ih => rw [samplesOf, List.map_cons, List.map_cons, ih]

theorem samplesOf_cons_append {e : Engine} {engines : List Engine} {times : List Nat}
    (h : times.length = max iterations 1) {rest : List Nat} : samplesOf iterations (e :: engines) (times ++ rest) =
      ⟨e.name, average times.sum (max iterations 1)⟩ :: samplesOf iterations engines rest := by
  rw [samplesOf, List.take_left' h, List.drop_left' h]

theorem length_of_calls {e : Engine} (h : spent.map Prod.fst = timedRuns text input iterations e) :
    (spent.map Prod.snd).length = max iterations 1 := by
  rw [List.length_map, ← List.length_map Prod.fst, h, timedRuns, List.length_replicate]

theorem repeatCall_spends_iff {e : Engine} (h : Call.Gives ⟨e, text, input⟩ target .done) {total n : Nat}
    {a : Except Verdict Nat} : (repeatCall e text input total n).Spends target spent a ↔
      spent.map Prod.fst = List.replicate n ⟨e, text, input⟩ ∧ a = .ok (total + (spent.map Prod.snd).sum) := by
  induction n generalizing total spent with
  | zero =>
    rw [repeatCall, Job.spends_done_iff, List.replicate_zero, List.map_eq_nil_iff]
    refine and_congr_right ?_
    rintro rfl
    rfl
  | succ n ih =>
    rw [repeatCall, Job.spends_call_iff h, List.replicate_succ, List.map_eq_cons_iff]
    constructor
    · rintro ⟨ns, rest, rfl, hrest⟩
      obtain ⟨hcalls, rfl⟩ := ih.mp hrest
      refine ⟨⟨_, rest, rfl, rfl, hcalls⟩, ?_⟩
      rw [List.map_cons, List.sum_cons, Nat.add_assoc]
    · rintro ⟨⟨⟨c, ns⟩, rest, rfl, rfl, hcalls⟩, rfl⟩
      refine ⟨ns, rest, rfl, ih.mpr ⟨hcalls, ?_⟩⟩
      rw [List.map_cons, List.sum_cons, Nat.add_assoc]

/-- A run that does not end well is the only one. -/
theorem repeatCall_fails_spends_iff {e : Engine} {v : Verdict} (h : Call.Gives ⟨e, text, input⟩ target v) (hv : v ≠ .done)
    {total n : Nat} {a : Except Verdict Nat} : (repeatCall e text input total (n + 1)).Spends target spent a ↔
      spent.map Prod.fst = [⟨e, text, input⟩] ∧ a = .error v := by
  rw [repeatCall, Job.spends_call_iff h]
  simp only [Job.spends_done_iff, List.map_eq_singleton_iff]
  constructor
  · rintro ⟨ns, rest, rfl, rfl, rfl⟩
    exact ⟨⟨_, rfl, rfl⟩, rfl⟩
  · rintro ⟨⟨⟨c, ns⟩, rfl, rfl⟩, rfl⟩
    exact ⟨ns, [], rfl, rfl, rfl⟩

theorem sample_spends {e : Engine} {a : Except Verdict Sample} : (sample e text input iterations).Spends target spent a ↔
    ∃ r, (repeatCall e text input 0 (max iterations 1)).Spends target spent r ∧
      a = r.map fun ns => ⟨e.name, average ns (max iterations 1)⟩ := by
  refine Job.spends_bind_done_iff fun r => ?_
  cases r with
  | ok ns => rfl
  | error v => rfl

theorem sample_spends_iff {e : Engine} (h : Call.Gives ⟨e, text, input⟩ target .done) {a : Except Verdict Sample} :
    (sample e text input iterations).Spends target spent a ↔ spent.map Prod.fst = timedRuns text input iterations e ∧
      a = .ok ⟨e.name, average (spent.map Prod.snd).sum (max iterations 1)⟩ := by
  rw [sample_spends]
  simp only [repeatCall_spends_iff h, and_assoc, exists_and_left, exists_eq_left, Nat.zero_add]
  rfl

theorem sample_fails_spends_iff {e : Engine} {v : Verdict} (h : Call.Gives ⟨e, text, input⟩ target v) (hv : v ≠ .done)
    {a : Except Verdict Sample} : (sample e text input iterations).Spends target spent a ↔
      spent.map Prod.fst = [⟨e, text, input⟩] ∧ a = .error v := by
  obtain ⟨n, hn⟩ : ∃ n, max iterations 1 = n + 1 := ⟨max iterations 1 - 1, by omega⟩
  rw [sample_spends, hn]
  simp only [repeatCall_fails_spends_iff h hv, and_assoc, exists_and_left, exists_eq_left]
  rfl

/-- The engines that come first are measured, whatever comes behind them. -/
theorem sampleAll_append_spends_iff {before : List Engine} (h : ∀ e ∈ before, Call.Gives ⟨e, text, input⟩ target .done)
    (after : List Engine) (done : List Sample) {a : Except Verdict (List Sample)} :
    (sampleAll text input iterations done (before ++ after)).Spends target spent a ↔
      ∃ s s', spent = s ++ s' ∧ s.map Prod.fst = before.flatMap (timedRuns text input iterations) ∧
        (sampleAll text input iterations ((samplesOf iterations before (s.map Prod.snd)).reverse ++ done) after).Spends
          target s' a := by
  induction before generalizing spent done with
  | nil =>
    constructor
    · intro hspends
      exact ⟨[], spent, rfl, rfl, hspends⟩
    · rintro ⟨s, s', rfl, hs, hspends⟩
      cases List.map_eq_nil_iff.mp hs
      exact hspends
  | cons e before ih =>
    obtain ⟨he, hbefore⟩ := List.forall_mem_cons.mp h
    rw [List.cons_append, sampleAll, Job.spends_bind_iff, List.flatMap_cons]
    constructor
    · rintro ⟨s, s', r, rfl, hs, hs'⟩
      obtain ⟨hcalls, rfl⟩ := (sample_spends_iff he).mp hs
      obtain ⟨s₁, s₂, rfl, hcalls', hrest⟩ := (ih hbefore _).mp hs'
      refine ⟨s ++ s₁, s₂, (List.append_assoc _ _ _).symm, ?_, ?_⟩
      · rw [List.map_append, hcalls, hcalls']
      · rw [List.map_append, samplesOf_cons_append (length_of_calls hcalls), List.reverse_cons, List.append_assoc]
        exact hrest
    · rintro ⟨s, s', rfl, hs, hrest⟩
      obtain ⟨s₁, s₂, rfl, hcalls, hcalls'⟩ := List.map_eq_append_iff.mp hs
      rw [List.map_append, samplesOf_cons_append (length_of_calls hcalls), List.reverse_cons, List.append_assoc] at hrest
      exact ⟨s₁, s₂ ++ s', _, List.append_assoc _ _ _, (sample_spends_iff he).mpr ⟨hcalls, rfl⟩,
        (ih hbefore _).mpr ⟨s₂, s', rfl, hcalls', hrest⟩⟩

theorem sampleAll_spends_iff {engines : List Engine} (h : ∀ e ∈ engines, Call.Gives ⟨e, text, input⟩ target .done)
    {a : Except Verdict (List Sample)} : (sampleAll text input iterations [] engines).Spends target spent a ↔
      spent.map Prod.fst = engines.flatMap (timedRuns text input iterations) ∧
        a = .ok (samplesOf iterations engines (spent.map Prod.snd)) := by
  have hall := @sampleAll_append_spends_iff target text input iterations spent engines h [] [] a
  simp only [List.append_nil, sampleAll, List.reverse_reverse, Job.spends_done_iff] at hall
  rw [hall]
  constructor
  · rintro ⟨s, s', rfl, hcalls, rfl, rfl⟩
    rw [List.append_nil]
    exact ⟨hcalls, rfl⟩
  · rintro ⟨hcalls, rfl⟩
    exact ⟨spent, [], (List.append_nil _).symm, hcalls, rfl, rfl⟩

/-- The failing engine ends the job, so that the samples before it are lost. -/
theorem sampleAll_cons_fails_spends_iff {e : Engine} {v : Verdict} (he : Call.Gives ⟨e, text, input⟩ target v)
    (hv : v ≠ .done) (after : List Engine) (done : List Sample) {a : Except Verdict (List Sample)} :
    (sampleAll text input iterations done (e :: after)).Spends target spent a ↔
      spent.map Prod.fst = [⟨e, text, input⟩] ∧ a = .error v := by
  rw [sampleAll, Job.spends_bind_iff]
  constructor
  · rintro ⟨s, s', r, rfl, hs, hrest⟩
    obtain ⟨hcalls, rfl⟩ := (sample_fails_spends_iff he hv).mp hs
    obtain ⟨rfl, rfl⟩ := Job.spends_done_iff.mp hrest
    rw [List.append_nil]
    exact ⟨hcalls, rfl⟩
  · rintro ⟨hcalls, rfl⟩
    exact ⟨spent, [], _, (List.append_nil _).symm, (sample_fails_spends_iff he hv).mpr ⟨hcalls, rfl⟩, .done _⟩

theorem sampleAll_fails_spends_iff {before : List Engine} {e : Engine} {v : Verdict}
    (h : ∀ e ∈ before, Call.Gives ⟨e, text, input⟩ target .done) (he : Call.Gives ⟨e, text, input⟩ target v) (hv : v ≠ .done)
    (after : List Engine) {a : Except Verdict (List Sample)} :
    (sampleAll text input iterations [] (before ++ e :: after)).Spends target spent a ↔
      spent.map Prod.fst = before.flatMap (timedRuns text input iterations) ++ [⟨e, text, input⟩] ∧ a = .error v := by
  rw [sampleAll_append_spends_iff h]
  simp only [sampleAll_cons_fails_spends_iff he hv]
  constructor
  · rintro ⟨s, s', rfl, hs, hs', rfl⟩
    rw [List.map_append, hs, hs']
    exact ⟨rfl, rfl⟩
  · rintro ⟨hcalls, rfl⟩
    obtain ⟨s, s', rfl, hs, hs'⟩ := List.map_eq_append_iff.mp hcalls
    exact ⟨s, s', rfl, hs, hs', rfl⟩

section Measure

variable {title : String} {engines : List Engine}

theorem measure_spends {a : Except Verdict Report} : (measure title text input iterations engines).Spends target spent a ↔
    ∃ r, (sampleAll text input iterations [] engines).Spends target spent r ∧ a = r.map fun samples => ⟨title, samples⟩ := by
  refine Job.spends_bind_done_iff fun r => ?_
  cases r with
  | ok samples => rfl
  | error v => rfl

theorem measure_spends_iff (h : ∀ e ∈ engines, Call.Gives ⟨e, text, input⟩ target .done) {a : Except Verdict Report} :
    (measure title text input iterations engines).Spends target spent a ↔
      spent.map Prod.fst = engines.flatMap (timedRuns text input iterations) ∧
        a = .ok ⟨title, samplesOf iterations engines (spent.map Prod.snd)⟩ := by
  rw [measure_spends]
  simp only [sampleAll_spends_iff h, and_assoc, exists_and_left, exists_eq_left]
  rfl

theorem measure_fails_spends_iff {before after : List Engine} {e : Engine} {v : Verdict}
    (hsplit : engines = before ++ e :: after) (h : ∀ e ∈ before, Call.Gives ⟨e, text, input⟩ target .done)
    (he : Call.Gives ⟨e, text, input⟩ target v) (hv : v ≠ .done) {a : Except Verdict Report} :
    (measure title text input iterations engines).Spends target spent a ↔
      spent.map Prod.fst = before.flatMap (timedRuns text input iterations) ++ [⟨e, text, input⟩] ∧ a = .error v := by
  rw [measure_spends, hsplit]
  simp only [sampleAll_fails_spends_iff h he hv, and_assoc, exists_and_left, exists_eq_left]
  rfl

theorem measure_done (iterations : Nat) (title : String) (h : ∀ e ∈ engines, Call.Gives ⟨e, text, input⟩ target .done)
    (w : World) :
    ∃ r : Report, r.title = title ∧ r.samples.map Sample.engine = engines.map Engine.name ∧
      (measure title text input iterations engines).Does target w (engines.flatMap (timedRuns text input iterations)) (.ok r)
        (w.called (engines.flatMap (timedRuns text input iterations))) := by
  have hcalls := Job.map_fst_timeless (engines.flatMap (timedRuns text input iterations))
  exact ⟨⟨title, samplesOf iterations engines _⟩, rfl, engine_samplesOf engines _,
    ((measure_spends_iff h).mpr ⟨hcalls, rfl⟩).does w⟩

theorem measure_fails (iterations : Nat) (title : String) {before : List Engine} {e : Engine} {v : Verdict}
    (h : ∀ e ∈ before, Call.Gives ⟨e, text, input⟩ target .done) (he : Call.Gives ⟨e, text, input⟩ target v) (hv : v ≠ .done)
    (after : List Engine) (w : World) :
    (measure title text input iterations (before ++ e :: after)).Does target w
      (before.flatMap (timedRuns text input iterations) ++ [⟨e, text, input⟩]) (.error v)
      (w.called (before.flatMap (timedRuns text input iterations) ++ [⟨e, text, input⟩])) :=
  ((measure_fails_spends_iff rfl h he hv).mpr ⟨Job.map_fst_timeless _, rfl⟩).does w

end Measure

end Bench

end TapeMachine
