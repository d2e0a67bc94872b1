import TapeMachine.Bench.Session
import TapeMachine.Proofs.Files
import TapeMachine.Proofs.Reading
import TapeMachine.Proofs.Timing
import TapeMachine.Proofs.Title

namespace TapeMachine

namespace Bench

variable {target : Target}

theorem makeFirst_does (remaining ps : List Path) (w : World) :
    ∃ answer files, (makeFirst remaining ps).Does target w [] answer { w with files := files } ∧ w.files.Widens files := by
  induction ps generalizing remaining with
  | nil => exact ⟨.ok remaining, w.files, .done _ _, .refl _ _⟩
  | cons p ps ih =>
    cases hp : w.files.makeDirectory p with
    | ok files => exact ⟨.ok remaining, files, .made hp (.done _ _), FileTree.widens_of_makeDirectory hp⟩
    | error e =>
      by_cases he : e = .system .notFound
      · subst he
        obtain ⟨answer, files, hd, hw⟩ := ih (p :: remaining)
        exact ⟨answer, files, .notMade hp hd, hw⟩
      · refine ⟨if w.files.isDirectory p then .ok remaining else .error e, w.files, .notMade hp ?_, .refl _ _⟩
        split
        next h => cases h
        next h => cases h; exact absurd rfl he
        next h => cases h; exact .isDirectory (.done _ _)

theorem makeEach_does (ps : List Path) (w : World) :
    ∃ answer files, (makeEach ps).Does target w [] answer { w with files := files } ∧ w.files.Widens files := by
  induction ps generalizing w with
  | nil => exact ⟨.ok (), w.files, .done _ _, .refl _ _⟩
  | cons p ps ih =>
    cases hp : w.files.makeDirectory p with
    | ok files =>
      obtain ⟨answer, files', hd, hw⟩ := ih { w with files := files }
      exact ⟨answer, files', .made hp hd, (FileTree.widens_of_makeDirectory hp).trans hw⟩
    | error e =>
      by_cases he : e = .system .alreadyExists ∧ w.files.isDirectory p
      · obtain ⟨answer, files, hd, hw⟩ := ih w
        refine ⟨answer, files, .notMade hp (.isDirectory ?_), hw⟩
        simp only [he, and_self, ↓reduceIte]
        exact hd
      · refine ⟨.error e, w.files, .notMade hp (.isDirectory ?_), .refl _ _⟩
        simp only [he, ↓reduceIte]
        exact .done _ _

theorem makeDirectories_does (p : Path) (w : World) :
    ∃ answer files, (makeDirectories p).Does target w [] answer { w with files := files } ∧ w.files.Widens files := by
  obtain ⟨answer, files, hd, hw⟩ := makeFirst_does [] p.ancestors w
  cases answer with
  | error e => exact ⟨.error e, files, hd.bind_nil (.done _ _), hw⟩
  | ok remaining =>
    obtain ⟨answer', files', hd', hw'⟩ := makeEach_does remaining { w with files := files }
    exact ⟨answer', files', hd.bind_nil hd', hw.trans hw'⟩

/-- A report is stored where its title says, or it is refused and no file is changed. -/
theorem storeReport_does (print : Printer) (dir : Path) (r : Report) (w : World) :
    (∃ files, (storeReport print dir r).Does target w [] (.ok (reportPath dir r.title)) { w with files := files } ∧
        w.files.Grows (· = w.files.place (reportPath dir r.title)) files ∧
        files.fetch (reportPath dir r.title) = .ok (print r)) ∨
      ∃ files e, (storeReport print dir r).Does target w [] (.error e) { w with files := files } ∧ w.files.Widens files := by
  obtain ⟨answer, files, hd, hw⟩ := makeDirectories_does dir w
  cases answer with
  | error e => exact .inr ⟨files, e, hd.bind_nil (.done _ _), hw⟩
  | ok u =>
    cases hs : files.store (reportPath dir r.title) (print r) with
    | error e => exact .inr ⟨files, e, hd.bind_nil (.notStored hs (.done _ _)), hw⟩
    | ok files' =>
      obtain ⟨hg, hf⟩ := FileTree.grows_of_store hs
      rw [hw.place_eq] at hg
      exact .inl ⟨files', hd.bind_nil (.stored hs (.done _ _)), (hw.mono fun _ h => h.elim).trans hg, hf⟩

def textAt? (t : FileTree) (p : Path) : Option String :=
  match t.entryAt (t.place p) with
  | some (.file content) => Utf8.strict? content
  | _ => none

theorem textAt?_of_holds {t : FileTree} {p : Path} {content : List UInt8} (h : t.Holds p content) :
    textAt? t p = Utf8.strict? content := by
  rw [textAt?, h]

/-- What a session has to do once nothing keeps it from its programs: its own arguments, the engines and the input, and the
files as they are then. -/
structure Plan where
  target : Target
  print : Printer
  session : Session
  engines : List Engine
  input : List UInt8
  start : FileTree

namespace Plan

variable (plan : Plan)

def reportOf (p : Path) : Path :=
  reportPath plan.session.outputDir p.title

def placeOf (p : Path) : Place :=
  plan.start.place (plan.reportOf p)

def RunsWell (text : String) : Prop :=
  ∀ e ∈ plan.engines, Call.Gives ⟨e, text, plan.input⟩ plan.target .done

/-- The calls that measure a program with the text its file holds at the start. -/
def callsOf (p : Path) : List Call :=
  match textAt? plan.start p with
  | some text => plan.engines.flatMap (timedRuns text plan.input plan.session.iterations)
  | none => []

/-- The programs have their reports, of the engines in order, and nothing else has been changed since the start but that
there are new directories. -/
structure Kept (kept : List Path) (files : FileTree) : Prop where
  grows : plan.start.Grows (fun q => ∃ p ∈ kept, q = plan.placeOf p) files
  measured : ∀ p ∈ kept, ∃ text, textAt? plan.start p = some text ∧ plan.RunsWell text
  reported : ∀ p ∈ kept, ∃ content, files.fetch (plan.reportOf p) = .ok content ∧
    plan.print.Shows p.title (plan.engines.map Engine.name) content

/-- The program stops the session, after the calls: its file cannot be read, it is no text, an engine is the first that does
not run it well, or its report is refused. -/
inductive Stops (files : FileTree) (p : Path) : Trouble → List Call → Prop where
  | unreadable {e : StreamError} : files.fetch p = .error e → (∀ content, plan.start.fetch p ≠ .ok content) →
      Stops files p (.unreadable e) []
  | illFormed {content : List UInt8} : plan.start.Holds p content → Utf8.strict? content = none →
      Stops files p (.unreadable .notUtf8) []
  | fails {text : String} {before after : List Engine} {e : Engine} {v : Verdict} :
      textAt? plan.start p = some text → plan.engines = before ++ e :: after →
      (∀ e ∈ before, Call.Gives ⟨e, text, plan.input⟩ plan.target .done) →
      Call.Gives ⟨e, text, plan.input⟩ plan.target v → v ≠ .done →
      Stops files p (.ofVerdict v)
        (before.flatMap (timedRuns text plan.input plan.session.iterations) ++ [⟨e, text, plan.input⟩])
  | refused {text : String} {r : Report} {w : World} {e : StreamError} :
      textAt? plan.start p = some text → plan.RunsWell text → r.title = p.title →
      (storeReport plan.print plan.session.outputDir r).Does plan.target w [] (.error e) { w with files := files } →
      w.files.Widens files → Stops files p (.failed (.stream e)) (plan.callsOf p)

def EndsOn (p : Path) : Prop :=
  ∀ text, textAt? plan.start p = some text → ∀ e ∈ plan.engines, ∃ v, Call.Gives ⟨e, text, plan.input⟩ plan.target v

variable {plan} {kept : List Path} {files files' : FileTree} {p : Path}

theorem placeOf_eq (p : Path) :
    plan.placeOf p = plan.start.place plan.session.outputDir ++ [reportName p.title] :=
  place_reportPath _ _ p.slash_not_mem_title

theorem title_eq_of_placeOf {q : Path} (h : plan.placeOf p = plan.placeOf q) : p.title = q.title := by
  rw [placeOf_eq, placeOf_eq] at h
  have hn := List.append_cancel_left h
  exact reportName_injective (List.singleton_inj.mp hn)

/-- A file that can be read at the place of a report has its title. -/
theorem title_eq_of_fetch {t : FileTree} {q : Path} {content : List UInt8} (h : t.fetch p = .ok content)
    (hp : t.place p = plan.placeOf q) : p.title = q.title := by
  obtain ⟨n, hn, hlast⟩ := FileTree.fileName?_of_fetch h
  rw [hp, placeOf_eq, List.getLast?_concat] at hlast
  cases hlast
  exact title_of_reportName q.title_ne_empty hn

/-- No report is stored in the file of a program with another title. -/
theorem not_overwritten (hp : p.title ∉ kept.map Path.title) {t : FileTree} (ht : t.place p = plan.start.place p)
    {content : List UInt8} (hf : t.fetch p = .ok content) : ¬ ∃ q ∈ kept, plan.start.place p = plan.placeOf q := by
  rintro ⟨q, hq, hplace⟩
  have he := title_eq_of_fetch hf (ht.trans hplace)
  exact hp (he ▸ List.mem_map_of_mem hq)

namespace Kept

theorem nil (plan : Plan) : plan.Kept [] plan.start :=
  ⟨.refl _ _, nofun, nofun⟩

/-- What can be read is what was there at the start. -/
theorem holds (h : plan.Kept kept files) (hp : p.title ∉ kept.map Path.title) {content : List UInt8}
    (hf : files.fetch p = .ok content) : plan.start.Holds p content :=
  h.grows.holds (not_overwritten hp (h.grows.place_eq p) hf) (FileTree.holds_of_fetch hf)

theorem fetch_start (h : plan.Kept kept files) (hp : p.title ∉ kept.map Path.title) {e : StreamError}
    (hf : files.fetch p = .error e) (content : List UInt8) : plan.start.fetch p ≠ .ok content := by
  intro hs
  have hf' := h.grows.fetch (not_overwritten hp rfl hs) hs
  cases hf.symm.trans hf'

theorem widens (h : plan.Kept kept files) (hw : files.Widens files') : plan.Kept kept files' := by
  refine ⟨h.grows.trans (hw.mono fun _ hq => hq.elim), h.measured, fun p hp => ?_⟩
  obtain ⟨content, hf, hshows⟩ := h.reported p hp
  exact ⟨content, hw.fetch (fun hq => hq) hf, hshows⟩

/-- One more report is stored, beside the others. -/
theorem snoc (h : plan.Kept kept files) (hp : p.title ∉ kept.map Path.title)
    (hg : files.Grows (· = files.place (plan.reportOf p)) files') {text : String}
    (htext : textAt? plan.start p = some text) (hwell : plan.RunsWell text) {content : List UInt8}
    (hf : files'.fetch (plan.reportOf p) = .ok content)
    (hshows : plan.print.Shows p.title (plan.engines.map Engine.name) content) : plan.Kept (kept ++ [p]) files' := by
  have hplace : files.place (plan.reportOf p) = plan.placeOf p := h.grows.place_eq _
  have hsplit : ∀ {c : Path → Prop}, (∀ q ∈ kept, c q) → c p → ∀ q ∈ kept ++ [p], c q := by
    intro c hk hc q hq
    rcases List.mem_append.mp hq with hq | hq
    · exact hk q hq
    · exact List.mem_singleton.mp hq ▸ hc
  refine ⟨?_, hsplit h.measured ⟨text, htext, hwell⟩, hsplit (fun q hq => ?_) ⟨content, hf, hshows⟩⟩
  · refine (h.grows.mono ?_).trans (hg.mono ?_)
    · rintro _ ⟨q, hq, rfl⟩
      exact ⟨q, List.mem_append_left _ hq, rfl⟩
    · rintro _ rfl
      exact ⟨p, List.mem_append_right _ (List.mem_singleton_self p), hplace⟩
  · obtain ⟨content', hf', hshows'⟩ := h.reported q hq
    refine ⟨content', hg.fetch (fun he => ?_) hf', hshows'⟩
    have hq' : plan.placeOf q = plan.placeOf p := by
      rw [← hplace, ← he]
      exact (h.grows.place_eq _).symm
    exact hp (title_eq_of_placeOf hq' ▸ List.mem_map_of_mem hq)

end Kept

section

variable {print : Printer} {session : Session} {engines : List Engine} {input content : List UInt8}
  {title text : String} {w w₁ w₂ : World} {cs : List Call}

theorem runProgram_fails (hf : w.files.fetch p = .ok content) (hs : Utf8.strict? content = some text) {v : Verdict}
    (h : (measure title text input session.iterations engines).Does target w cs (.error v) w₁) :
    (runProgram print session engines input title p).Does target w cs (.error (.ofVerdict v)) w₁ := by
  refine .fetch ?_
  rw [hf]
  simp only [hs]
  exact h.bind_nil (.done _ _)

theorem runProgram_stores (hf : w.files.fetch p = .ok content) (hs : Utf8.strict? content = some text) {r : Report}
    {answer : Except StreamError Path}
    (h : (measure title text input session.iterations engines).Does target w cs (.ok r) w₁)
    (h' : (storeReport print session.outputDir r).Does target w₁ [] answer w₂) :
    (runProgram print session engines input title p).Does target w cs (answer.mapError fun e => .failed (.stream e)) w₂ := by
  refine .fetch ?_
  rw [hf]
  simp only [hs]
  refine h.bind_nil (h'.bind_nil ?_)
  cases answer <;> exact .done _ _

end

/-- What one program does: its report is stored, or it stops the session. -/
theorem runProgram_does (hprint : plan.print.Tells) {w : World} (h : plan.Kept kept w.files)
    (hp : p.title ∉ kept.map Path.title) (hends : plan.EndsOn p) :
    (∃ files, (runProgram plan.print plan.session plan.engines plan.input p.title p).Does plan.target w (plan.callsOf p)
        (.ok (plan.reportOf p)) { w.called (plan.callsOf p) with files := files } ∧ plan.Kept (kept ++ [p]) files) ∨
      ∃ t cs files, (runProgram plan.print plan.session plan.engines plan.input p.title p).Does plan.target w cs (.error t)
        { w.called cs with files := files } ∧ plan.Kept kept files ∧ plan.Stops files p t cs := by
  cases hf : w.files.fetch p with
  | error e =>
    refine .inr ⟨_, [], w.files, .fetch ?_, h, .unreadable hf (h.fetch_start hp hf)⟩
    rw [hf, World.called_nil]
    exact .done _ _
  | ok content =>
    have hholds := h.holds hp hf
    have htextAt := textAt?_of_holds hholds
    cases hs : Utf8.strict? content with
    | none =>
      refine .inr ⟨_, [], w.files, .fetch ?_, h, .illFormed hholds hs⟩
      rw [hf, World.called_nil]
      simp only [hs]
      exact .done _ _
    | some text =>
      have htext : textAt? plan.start p = some text := htextAt.trans hs
      rcases first_failing (hends text htext) with hwell | ⟨before, e, after, v, hengines, hbefore, hv, hne⟩
      · obtain ⟨r, ht, hsamples, hmeasure⟩ := measure_done plan.session.iterations p.title hwell w
        have hcalls : plan.callsOf p = plan.engines.flatMap (timedRuns text plan.input plan.session.iterations) := by
          simp only [callsOf, htext]
        rw [← hcalls] at hmeasure
        rcases storeReport_does plan.print plan.session.outputDir r (w.called (plan.callsOf p)) with
          ⟨files, hstore, hgrows, hfetch⟩ | ⟨files, e, hstore, hwidens⟩
        · have hpath : reportPath plan.session.outputDir r.title = plan.reportOf p := by rw [ht, reportOf]
          rw [hpath] at hstore hgrows hfetch
          have hshows := hprint.shows r
          rw [ht, hsamples] at hshows
          exact .inl ⟨files, runProgram_stores hf hs hmeasure hstore, h.snoc hp hgrows htext hwell hfetch hshows⟩
        · exact .inr ⟨_, _, files, runProgram_stores hf hs hmeasure hstore, h.widens hwidens,
            .refused htext hwell ht hstore hwidens⟩
      · have hmeasure := measure_fails plan.session.iterations p.title hbefore hv hne after w
        rw [← hengines] at hmeasure
        exact .inr ⟨_, _, w.files, runProgram_fails hf hs hmeasure, h, .fails htext hengines hbefore hv hne⟩

/-- How the programs end: all have their reports, or there is a first one that stops the session. -/
inductive Finishes (plan : Plan) (rest : List Path) (files : FileTree) : Except Trouble Unit → List Call → Prop where
  | all : rest = [] → Finishes plan rest files (.ok ()) []
  | stopped {p : Path} {later : List Path} {t : Trouble} {cs : List Call} : rest = p :: later →
      plan.Stops files p t cs → Finishes plan rest files (.error t) cs

theorem runPrograms_does (hprint : plan.print.Tells) {w : World} {todo : List Path} (h : plan.Kept kept w.files)
    (hn : ((kept ++ todo).map Path.title).Nodup) (hends : ∀ p ∈ todo, plan.EndsOn p) :
    ∃ more rest last answer files, todo = more ++ rest ∧ plan.Kept (kept ++ more) files ∧
      plan.Finishes rest files answer last ∧
      (runPrograms plan.print plan.session plan.engines plan.input (todo.map fun p => (p.title, p))).Does plan.target w
        (more.flatMap plan.callsOf ++ last) answer
        { w.called (more.flatMap plan.callsOf ++ last) with files := files } := by
  -- on the programs still to be done; the reports of those before them have been kept
  induction todo generalizing kept w with
  | nil =>
    refine ⟨[], [], [], .ok (), w.files, rfl, by rwa [List.append_nil], .all rfl, ?_⟩
    simp only [List.flatMap_nil, List.append_nil, World.called_nil]
    exact .done _ _
  | cons p todo ih =>
    have hp : p.title ∉ kept.map Path.title := by
      rw [List.map_append, List.map_cons] at hn
      intro hm
      exact List.disjoint_of_nodup_append hn hm List.mem_cons_self
    rcases runProgram_does hprint h hp (hends p List.mem_cons_self) with
      ⟨files, hdoes, hkept⟩ | ⟨t, cs, files, hdoes, hkept, hstops⟩
    · have hn' : ((kept ++ [p] ++ todo).map Path.title).Nodup := by simpa using hn
      have hkept' : plan.Kept (kept ++ [p]) ({ w.called (plan.callsOf p) with files := files } : World).files := hkept
      obtain ⟨more, rest, last, answer, files', htodo, hkept'', hfinishes, hrest⟩ :=
        ih hkept' hn' fun q hq => hends q (List.mem_cons_of_mem _ hq)
      refine ⟨p :: more, rest, last, answer, files', by rw [htodo, List.cons_append], by simpa using hkept'',
        hfinishes, ?_⟩
      have hcalled : (w.called (plan.callsOf p ++ (more.flatMap plan.callsOf ++ last))) =
          (w.called (plan.callsOf p)).called (more.flatMap plan.callsOf ++ last) := (World.called_append _ _ _).symm
      rw [List.flatMap_cons, List.append_assoc, hcalled]
      exact hdoes.bind hrest
    · refine ⟨[], p :: todo, cs, .error t, files, rfl, by rwa [List.append_nil], .stopped rfl hstops, ?_⟩
      simp only [List.flatMap_nil, List.nil_append]
      exact hdoes.bind_nil (.done _ _)

end Plan

end Bench

namespace Engine

def chosen (n : String) : Except Failure Engine :=
  match ofName? n with
  | some e => .ok e
  | none => .error (.unknownEngine n)

theorem select_of_unknown {before after : List String} {name : String}
    (hb : ∀ n ∈ before, ∃ e, ofName? n = some e) (hn : ofName? name = none) :
    select (before ++ name :: after) = .error (.unknownEngine name) := by
  have hempty : (before ++ name :: after).isEmpty = false := by simp
  rw [select, hempty]
  show (before ++ name :: after).mapM chosen = _
  induction before with
  | nil => rw [List.nil_append, List.mapM_cons, chosen, hn]; rfl
  | cons n before ih =>
    obtain ⟨e, he⟩ := hb n List.mem_cons_self
    have hrest := ih (fun m hm => hb m (List.mem_cons_of_mem _ hm)) (by simp)
    rw [List.cons_append, List.mapM_cons, chosen, he, hrest]
    rfl

theorem exists_first_unknown {names : List String} (h : ¬ ∀ n ∈ names, ∃ e, ofName? n = some e) :
    ∃ before name after, names = before ++ name :: after ∧ (∀ n ∈ before, ∃ e, ofName? n = some e) ∧
      ofName? name = none := by
  induction names with
  | nil => exact absurd nofun h
  | cons n names ih =>
    cases hn : ofName? n with
    | none => exact ⟨[], n, names, rfl, nofun, hn⟩
    | some e =>
      have hrest : ¬ ∀ m ∈ names, ∃ e, ofName? m = some e := fun hm => h (List.forall_mem_cons.mpr ⟨⟨e, hn⟩, hm⟩)
      obtain ⟨before, name, after, rfl, hbefore, hname⟩ := ih hrest
      exact ⟨n :: before, name, after, rfl, List.forall_mem_cons.mpr ⟨⟨e, hn⟩, hbefore⟩, hname⟩

theorem name_of_ofName? {n : String} {e : Engine} (h : ofName? n = some e) : e.name = n := by
  simpa using List.find?_some h

/-- Known names choose their engines in order, and no names choose all. -/
theorem select_of_known {names : List String} (h : ∀ n ∈ names, ∃ e, ofName? n = some e) :
    ∃ engines, select names = .ok engines ∧
      engines.map name = if names = [] then all.map name else names := by
  have hmap : ∃ engines, names.mapM chosen = .ok engines ∧ engines.map name = names := by
    induction names with
    | nil => exact ⟨[], rfl, rfl⟩
    | cons n names ih =>
      obtain ⟨e, he⟩ := h n List.mem_cons_self
      obtain ⟨engines, hengines, hnames⟩ := ih fun m hm => h m (List.mem_cons_of_mem _ hm)
      refine ⟨e :: engines, ?_, by rw [List.map_cons, name_of_ofName? he, hnames]⟩
      rw [List.mapM_cons, chosen, he, hengines]
      rfl
  cases names with
  | nil => exact ⟨all, rfl, rfl⟩
  | cons n names => exact hmap

end Engine

namespace Bench

/-- The session makes the calls, ends with the answer and leaves the other world, and it can do nothing else. -/
structure Session.Runs (s : Session) (target : Target) (print : Printer) (w : World) (cs : List Call)
    (answer : Except Trouble Unit) (w' : World) : Prop where
  does : (s.run print).Does target w cs answer w'
  performs : ∃ limit, ∀ k, (s.run print).perform target (limit + k) w = some (answer, w')
  only : ∀ limit x, (s.run print).perform target limit w = some x → x = (answer, w')
  calls_unique : ∀ cs', (s.run print).Does target w cs' answer w' → cs' = cs
  logged : w'.calls = (w.called cs).calls

theorem Session.Runs.of_does {s : Session} {print : Printer} {w w' : World} {cs : List Call}
    {answer : Except Trouble Unit} (h : (s.run print).Does target w cs answer w') :
    s.Runs target print w cs answer w' := by
  obtain ⟨limit, hlimit⟩ := h.exists_perform
  refine ⟨h, ⟨limit, Job.perform_add hlimit⟩, fun limit' x hx => ?_, fun cs' h' => (h'.unique h).1, h.calls_eq⟩
  obtain ⟨cs', h'⟩ := Job.exists_does_of_perform hx
  obtain ⟨-, ha, hw⟩ := h'.unique h
  exact Prod.ext ha hw

/-- The programs up to one have their reports, each in a file of its own, and no file of another program's report has been
created or changed. -/
structure Plan.Ends (plan : Plan) (w : World) (kept rest : List Path) (last : List Call) (answer : Except Trouble Unit)
    (files : FileTree) : Prop where
  programs_eq : plan.session.programs = kept ++ rest
  keeps : plan.Kept kept files
  finishes : plan.Finishes rest files answer last
  apart : (plan.session.programs.map plan.placeOf).Nodup
  without : ∀ p ∈ rest, ∀ content, files.entryAt (plan.placeOf p) = some (.file content) →
    plan.start.entryAt (plan.placeOf p) = some (.file content)
  runs : plan.session.Runs plan.target plan.print w (kept.flatMap plan.callsOf ++ last) answer
    { w.called (kept.flatMap plan.callsOf ++ last) with files := files }

namespace Session

variable (s : Session)

/-- The input of the programs is in the file that is named, or empty if none is. -/
def Reads (files : FileTree) (input : List UInt8) : Prop :=
  match s.input? with
  | none => input = []
  | some p => files.fetch p = .ok input

/-- The session ends with the trouble, nothing has been run and no file or directory has been created. -/
def Refuses (target : Target) (print : Printer) (w : World) (t : Trouble) : Prop :=
  s.Runs target print w [] (.error t) w

variable {s} {target : Target} {print : Printer}

theorem readInput_does {w : World} {input : List UInt8} (h : s.Reads w.files input) :
    (readInput s.input?).Does target w [] (.ok input) w := by
  unfold Reads at h
  split at h
  next hnone =>
    subst h
    rw [hnone]
    exact .done _ _
  next p hsome =>
    rw [hsome]
    refine .fetch ?_
    rw [h]
    exact .done _ _

theorem run_does {engines : List Engine} (hengines : Engine.select s.engines = .ok engines) {w : World}
    {input : List UInt8} (hinput : s.Reads w.files input) (hn : (s.programs.map Path.title).Nodup)
    {cs : List Call} {answer : Except Trouble Unit} {w' : World}
    (h : (runPrograms print s engines input (s.programs.map fun p => (p.title, p))).Does target w cs answer w') :
    (s.run print).Does target w cs answer w' := by
  have htitles : titles s.programs = .ok (s.programs.map Path.title) := titles_eq_ok_iff.mpr ⟨hn, rfl⟩
  have hzip : (s.programs.map Path.title).zip s.programs = s.programs.map fun p => (p.title, p) := by
    simpa using (List.zip_map' (f := Path.title) (g := id) (l := s.programs))
  rw [run, hengines]
  refine Job.Does.bind (readInput_does hinput) ?_
  simp only [htitles, hzip]
  exact h

end Session

theorem Plan.exists_ends {plan : Plan} (hprint : plan.print.Tells) {w : World} (hstart : w.files = plan.start)
    (hengines : Engine.select plan.session.engines = .ok plan.engines) (hinput : plan.session.Reads w.files plan.input)
    (hn : (plan.session.programs.map Path.title).Nodup) (hends : ∀ p ∈ plan.session.programs, plan.EndsOn p) :
    ∃ kept rest last answer files, plan.Ends w kept rest last answer files := by
  have hplaces : (plan.session.programs.map plan.placeOf).Nodup :=
    List.Nodup.map_on (fun p hp q hq he => List.inj_on_of_nodup_map hn hp hq (title_eq_of_placeOf he)) hn.of_map
  have hnil : plan.Kept [] w.files := hstart ▸ .nil plan
  obtain ⟨kept, rest, last, answer, files, hsplit, hkept, hfinishes, hdoes⟩ := runPrograms_does hprint hnil hn hends
  rw [List.nil_append] at hkept
  refine ⟨kept, rest, last, answer, files, hsplit, hkept, hfinishes, hplaces, fun p hp content he => ?_,
    .of_does (Session.run_does hengines hinput hn hdoes)⟩
  refine hkept.grows.file_before ?_ he
  rintro ⟨q, hq, heq⟩
  have hprograms : plan.session.programs = kept ++ rest := hsplit
  rw [hprograms, List.map_append] at hplaces
  exact List.disjoint_of_nodup_append hplaces (List.mem_map_of_mem hq) (heq ▸ List.mem_map_of_mem hp)

end Bench

end TapeMachine
