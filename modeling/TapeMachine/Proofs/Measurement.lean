import TapeMachine.Proofs.Reports

namespace TapeMachine

section Crashes

variable {target : Target} {text : String} {step : Step}

theorem Engine.exists_contained {e : Engine} (h : e.prepare target text = .ok step) :
    ∃ size q, Contained step size q := by
  obtain ⟨size, hload⟩ := loads_of_prepare h
  by_cases he : e = .scanning
  · subst he
    cases hload
    exact ⟨_, _, Scanning.contained _⟩
  · exact ⟨size, _, hload.contained he⟩

theorem Call.Gives.exists_failed {c : Call} {v : Verdict} (h : c.Gives target v) (hv : v ≠ .done) : ∃ f, v = .failed f := by
  obtain ⟨limit, hlimit⟩ := h
  obtain ⟨x, hx, rfl⟩ := Option.map_eq_some_iff.mp hlimit
  cases hp : c.engine.prepare target c.text with
  | error f =>
    rw [Engine.run?_of_error hp] at hx
    cases hx
    exact ⟨f, rfl⟩
  | ok step =>
    obtain ⟨size, q, hin⟩ := Engine.exists_contained hp
    obtain hdone | ⟨f, hf, -⟩ := hin.ends ((Engine.finishes_iff hp).mp ⟨limit, hx⟩)
    · exact absurd hdone hv
    · exact ⟨f, hf⟩

end Crashes

namespace Bench

section Measure

variable (target : Target) (title text : String) (input : List UInt8) (iterations : Nat) (engines : List Engine)

/-- What a measurement does, whatever the times of its runs are: it makes the calls that it reports, or it makes one call
of the first engine whose run fails, after those of the engines before it. In a world where time stands still it ends. -/
structure Measures : Prop where
  sampled : ∀ times, (samplesOf iterations engines times).map Sample.engine = engines.map Engine.name
  succeeds : (∀ e ∈ engines, Call.Gives ⟨e, text, input⟩ target .done) → ∀ spent a,
    (measure title text input iterations engines).Spends target spent a ↔
      spent.map Prod.fst = engines.flatMap (timedRuns text input iterations) ∧
        a = .ok ⟨title, samplesOf iterations engines (spent.map Prod.snd)⟩
  fails : (¬ ∀ e ∈ engines, Call.Gives ⟨e, text, input⟩ target .done) → ∃ before e after f, engines = before ++ e :: after ∧
    (∀ e ∈ before, Call.Gives ⟨e, text, input⟩ target .done) ∧ Call.Gives ⟨e, text, input⟩ target (.failed f) ∧ ∀ spent a,
      (measure title text input iterations engines).Spends target spent a ↔
        spent.map Prod.fst = before.flatMap (timedRuns text input iterations) ++ [⟨e, text, input⟩] ∧
          a = .error (.failed f)
  performs : ∀ w : World, ∃ calls a limit,
    (measure title text input iterations engines).Spends target (calls.map fun c => (c, 0)) a ∧
      ∀ k, (measure title text input iterations engines).perform target (limit + k) w = some (a, w.called calls)

variable {target title text input iterations engines}

/-- There is a measurement, since all runs end, also one whose runs take no time. -/
theorem exists_measure_spends (title : String) (iterations : Nat)
    (hends : ∀ e ∈ engines, ∃ v, Call.Gives ⟨e, text, input⟩ target v) :
    ∃ (calls : List Call) (a : Except Verdict Report),
      (measure title text input iterations engines).Spends target (calls.map fun c => (c, 0)) a := by
  obtain hall | ⟨before, e, after, v, hsplit, hbefore, he, hv⟩ := first_failing hends
  · exact ⟨_, _, (measure_spends_iff hall).mpr ⟨Job.map_fst_timeless _, rfl⟩⟩
  · exact ⟨_, _, (measure_fails_spends_iff hsplit hbefore he hv).mpr ⟨Job.map_fst_timeless _, rfl⟩⟩

theorem measures (hends : ∀ e ∈ engines, ∃ v, Call.Gives ⟨e, text, input⟩ target v) :
    Measures target title text input iterations engines := by
  refine ⟨engine_samplesOf engines, fun h _ _ => measure_spends_iff h, fun h => ?_, fun w => ?_⟩
  · obtain hall | ⟨before, e, after, v, hsplit, hbefore, he, hv⟩ := first_failing hends
    · exact absurd hall h
    · obtain ⟨f, rfl⟩ := he.exists_failed hv
      exact ⟨before, e, after, f, hsplit, hbefore, he, fun _ _ => measure_fails_spends_iff hsplit hbefore he hv⟩
  · obtain ⟨calls, a, hspends⟩ := exists_measure_spends title iterations hends
    obtain ⟨limit, hlimit⟩ := (hspends.does w).exists_perform
    exact ⟨calls, a, limit, hspends, fun k => Job.perform_add hlimit k⟩

end Measure

theorem select_names {names : List String} {engines : List Engine} (h : Engine.select names = .ok engines) :
    engines.map Engine.name = if names = [] then Engine.all.map Engine.name else names := by
  by_cases hknown : ∀ n ∈ names, ∃ e, Engine.ofName? n = some e
  · obtain ⟨engines', hengines, hnames⟩ := Engine.select_of_known hknown
    cases h.symm.trans hengines
    exact hnames
  · obtain ⟨before, name, after, rfl, hbefore, hname⟩ := Engine.exists_first_unknown hknown
    cases h.symm.trans (Engine.select_of_unknown hbefore hname)

/-- A measurement runs what it reports: the engines that are named, in their order and as often as they are named, each of
them as often as it is asked for, on the whole input. -/
theorem measurements_run_what_they_report (target : Target) (title text : String) (input : List UInt8) (iterations : Nat)
    {names : List String} {engines : List Engine} (hselect : Engine.select names = .ok engines)
    (hends : ∀ e ∈ engines, ∃ v, Call.Gives ⟨e, text, input⟩ target v) :
    engines.map Engine.name = (if names = [] then Engine.all.map Engine.name else names) ∧
      Measures target title text input iterations engines :=
  ⟨select_names hselect, measures hends⟩

/-- Only the scanning engine runs a loop without an end. It does so twice, then the next engine refuses the text. -/
theorem measurements_run_what_they_report_lazy :
    Engine.select ["simpleinterp", "opinterp3", "simpleinterp"] = .ok [.scanning, .idiomatic, .scanning] ∧
      ∃ f limit, (measure "lazy" "+[-" [7] 2 [.scanning, .idiomatic, .scanning]).perform .standard limit
          ⟨⟨[], []⟩, .start [] {}, #[]⟩ =
        some (.error (.failed f), ⟨⟨[], []⟩, .start [] {}, #[.scanning, .scanning, .idiomatic]⟩) := by
  have hselect : Engine.select ["simpleinterp", "opinterp3", "simpleinterp"] =
      .ok [.scanning, .idiomatic, .scanning] := by decide
  have hscanning : Call.Gives ⟨.scanning, "+[-", [7]⟩ .standard .done := ⟨4, by decide +kernel⟩
  obtain ⟨f, hf⟩ : ∃ f, Call.Gives ⟨.idiomatic, "+[-", [7]⟩ .standard (.failed f) := ⟨_, 0, rfl⟩
  have hends : ∀ e ∈ [Engine.scanning, .idiomatic, .scanning], ∃ v, Call.Gives ⟨e, "+[-", [7]⟩ .standard v := by
    simp only [List.forall_mem_cons]
    exact ⟨⟨_, hscanning⟩, ⟨_, hf⟩, ⟨_, hscanning⟩, nofun⟩
  have hmeasures := (measurements_run_what_they_report .standard "lazy" "+[-" [7] 2 hselect hends).2
  have hidiomatic : ¬ Call.Gives ⟨.idiomatic, "+[-", [7]⟩ .standard .done := fun hd => by cases hd.unique hf
  obtain ⟨before, e, after, g, hsplit, hbefore, he, hspends⟩ :=
    hmeasures.fails fun h => hidiomatic (h .idiomatic (by decide))
  obtain ⟨calls, a, limit, hmeasure, hperform⟩ := hmeasures.performs ⟨⟨[], []⟩, .start [] {}, #[]⟩
  obtain ⟨hcalls, rfl⟩ := (hspends _ _).mp hmeasure
  rw [Job.map_fst_timeless] at hcalls
  refine ⟨hselect, g, limit, (hperform 0).trans ?_⟩
  match before with
  | [] =>
    cases hsplit
    cases he.unique hscanning
  | [_] =>
    cases hsplit
    rw [hcalls]
    rfl
  | _ :: second :: _ =>
    have hsecond : Engine.idiomatic = second := (List.cons.inj (List.cons.inj hsplit).2).1
    subst hsecond
    exact absurd (hbefore .idiomatic (by simp)) hidiomatic

end Bench

end TapeMachine
