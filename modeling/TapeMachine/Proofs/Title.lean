import TapeMachine.Proofs.Place

namespace TapeMachine

/-- `q` is the first path whose title occurred before, and `p` is the path it occurred at. -/
def FirstCollision (paths : List Path) (p q : Path) : Prop :=
  ∃ before between after, paths = before ++ p :: between ++ q :: after ∧
    ((before ++ p :: between).map Path.title).Nodup ∧ p.title = q.title

theorem FirstCollision.not_nodup {paths : List Path} {p q : Path} (h : FirstCollision paths p q) :
    ¬ (paths.map Path.title).Nodup := by
  obtain ⟨before, between, after, rfl, -, ht⟩ := h
  intro hn
  rw [List.map_append, List.map_append, List.map_cons, List.map_cons] at hn
  have hd := List.disjoint_of_nodup_append hn
  exact hd (List.mem_append_right _ List.mem_cons_self) (ht ▸ List.mem_cons_self)

namespace Title

/-- What is known once the titles of some paths have been noted. -/
def noted (paths : List Path) : List (String × Path) :=
  (paths.map fun p => (p.title, p)).reverse

theorem lookup_noted_eq_none {paths : List Path} {title : String} (h : (noted paths).lookup title = none) :
    title ∉ paths.map Path.title := by
  intro hm
  obtain ⟨p, hp, rfl⟩ := List.mem_map.mp hm
  have hn : (p.title, p) ∈ noted paths := List.mem_reverse.mpr (List.mem_map_of_mem hp)
  exact absurd (List.lookup_eq_none_iff.mp h _ hn) (by simp)

theorem lookup_noted_eq_some {paths : List Path} {title : String} {p : Path}
    (h : (noted paths).lookup title = some p) : p ∈ paths ∧ p.title = title := by
  obtain ⟨before, after, he, -⟩ := List.lookup_eq_some_iff.mp h
  have hn : (title, p) ∈ noted paths := by
    rw [he]
    exact List.mem_append_right _ List.mem_cons_self
  obtain ⟨q, hq, he⟩ := List.mem_map.mp (List.mem_reverse.mp hn)
  cases he
  exact ⟨hq, rfl⟩

theorem assign_noted (seen : List Path) (hs : (seen.map Path.title).Nodup) (paths : List Path) :
    ((seen ++ paths).map Path.title).Nodup ∧
        assign (noted seen) paths = .ok ((seen ++ paths).map Path.title) ∨
      ∃ p q, FirstCollision (seen ++ paths) p q ∧
        assign (noted seen) paths = .error (.titleCollision p.display q.display q.title) := by
  induction paths generalizing seen with
  | nil =>
    refine .inl ⟨by rwa [List.append_nil], ?_⟩
    simp [assign, noted, Function.comp_def]
  | cons q paths ih =>
    rw [assign]
    split
    next p hp =>
      -- the first title that occurs again
      obtain ⟨hmem, ht⟩ := lookup_noted_eq_some hp
      obtain ⟨before, between, rfl⟩ := List.append_of_mem hmem
      exact .inr ⟨p, q, ⟨before, between, paths, rfl, hs, ht⟩, rfl⟩
    next hq =>
      have hq := lookup_noted_eq_none hq
      have hs' : ((seen ++ [q]).map Path.title).Nodup := by
        rw [List.map_append, List.map_singleton]
        exact List.nodup_append.mpr ⟨hs, by simp, fun a ha b hb hab =>
          hq (by rw [List.mem_singleton.mp hb] at hab; exact hab ▸ ha)⟩
      have hn : (q.title, q) :: noted seen = noted (seen ++ [q]) := by simp [noted]
      have hsp : seen ++ q :: paths = seen ++ [q] ++ paths := by simp
      rw [hn, hsp]
      exact ih (seen ++ [q]) hs'

end Title

theorem titles_cases (paths : List Path) :
    (paths.map Path.title).Nodup ∧ titles paths = .ok (paths.map Path.title) ∨
      ∃ p q, FirstCollision paths p q ∧
        titles paths = .error (.titleCollision p.display q.display q.title) :=
  Title.assign_noted [] List.nodup_nil paths

theorem titles_eq_ok_iff {paths : List Path} {ts : List String} :
    titles paths = .ok ts ↔ (paths.map Path.title).Nodup ∧ ts = paths.map Path.title := by
  rcases titles_cases paths with ⟨hn, h⟩ | ⟨p, q, hc, h⟩
  · rw [h, Except.ok.injEq, eq_comm, and_iff_right hn]
  · rw [h]
    exact ⟨nofun, fun hn => absurd hn.1 hc.not_nodup⟩

namespace Bench

/-- A path leads directly into a directory if it adds one name to it. -/
def LiesIn (dir p : Path) : Prop :=
  ∃ n, p.fileName? = some n ∧ p.components = dir.components ++ [n] ∧
    ∀ t : FileTree, t.place p = t.place dir ++ [n]

theorem liesIn_reportPath (dir : Path) {title : String} (h : '/' ∉ title.toList) :
    LiesIn dir (reportPath dir title) :=
  ⟨reportName title, fileName?_reportPath dir h, components_reportPath dir h, fun t => place_reportPath dir t h⟩

theorem reportPath_inj {dir : Path} {t u : String} (ht : '/' ∉ t.toList) (hu : '/' ∉ u.toList)
    (h : reportPath dir t = reportPath dir u) : t = u := by
  have hn := congrArg Path.fileName? h
  rw [fileName?_reportPath dir ht, fileName?_reportPath dir hu] at hn
  exact reportName_injective (Option.some.inj hn)

theorem nodup_reportPaths (dir : Path) {paths : List Path} (h : (paths.map Path.title).Nodup) :
    ((paths.map Path.title).map (reportPath dir)).Nodup := by
  apply List.Nodup.map_on _ h
  intro t ht u hu he
  obtain ⟨p, -, rfl⟩ := List.mem_map.mp ht
  obtain ⟨q, -, rfl⟩ := List.mem_map.mp hu
  exact reportPath_inj p.slash_not_mem_title q.slash_not_mem_title he

end Bench

theorem exists_error_of_title_eq {paths : List Path} {p q : Path} (hp : p ∈ paths) (hq : q ∈ paths) (hne : p ≠ q)
    (ht : p.title = q.title) : ∃ f, titles paths = .error f := by
  rcases titles_cases paths with ⟨hn, -⟩ | ⟨a, b, -, h⟩
  · exact absurd (List.inj_on_of_nodup_map hn hp hq ht) hne
  · exact ⟨_, h⟩

/-- Titles are given out exactly if they are pairwise different. Otherwise the first path whose title occurred before is
reported, with the one it occurred at. Different stems that are shown alike collide, and so does a path without a name
with a stem that is the title of such a path. -/
theorem titles_detect_collisions (paths : List Path) :
    ((∃ ts, titles paths = .ok ts) ↔ (paths.map Path.title).Nodup) ∧
      (∀ ts, titles paths = .ok ts → ts = paths.map Path.title ∧
        ∀ dir, (ts.map (Bench.reportPath dir)).Nodup ∧ ∀ t ∈ ts, Bench.LiesIn dir (Bench.reportPath dir t)) ∧
      (∀ f, titles paths = .error f → ∃ p q, FirstCollision paths p q ∧
        f.message = p.display ++ " and " ++ q.display ++ " would both write " ++ q.title ++ ".json") ∧
      (∀ p q m n, p ∈ paths → q ∈ paths → p.fileName? = some m → q.fileName? = some n →
        Path.stem m ≠ Path.stem n → Utf8.lossy (Path.stem m) = Utf8.lossy (Path.stem n) →
        ∃ f, titles paths = .error f) ∧
      ∀ p q n, p ∈ paths → q ∈ paths → p.fileName? = none → q.fileName? = some n →
        Path.stem n = Path.ofString "program" → ∃ f, titles paths = .error f := by
  refine ⟨⟨?_, fun hn => ⟨_, titles_eq_ok_iff.mpr ⟨hn, rfl⟩⟩⟩, ?_, ?_, ?_, ?_⟩
  · rintro ⟨ts, h⟩
    exact (titles_eq_ok_iff.mp h).1
  · intro ts h
    obtain ⟨hn, rfl⟩ := titles_eq_ok_iff.mp h
    refine ⟨rfl, fun dir => ⟨Bench.nodup_reportPaths dir hn, fun t ht => ?_⟩⟩
    obtain ⟨p, -, rfl⟩ := List.mem_map.mp ht
    exact Bench.liesIn_reportPath dir p.slash_not_mem_title
  · intro f h
    rcases titles_cases paths with ⟨-, h'⟩ | ⟨p, q, hc, h'⟩
    · cases h.symm.trans h'
    · cases h.symm.trans h'
      exact ⟨p, q, hc, rfl⟩
  · intro p q m n hp hq hm hn hne hl
    have hpq : p ≠ q := by
      rintro rfl
      exact hne (congrArg Path.stem (Option.some.inj (hm.symm.trans hn)))
    have ht : p.title = q.title := by simp only [Path.title, hm, hn, hl]
    exact exists_error_of_title_eq hp hq hpq ht
  · intro p q n hp hq hm hn hs
    have hpq : p ≠ q := by
      rintro rfl
      cases hm.symm.trans hn
    have ht : p.title = q.title := by
      simp only [Path.title, hm, hn, hs]
      exact (Utf8.lossy_encode "program").symm
    exact exists_error_of_title_eq hp hq hpq ht

/-- Two stems of one ill-formed byte each, and the directory above beside a program named `program`. -/
theorem titles_detect_collisions_unlike :
    (∃ f, titles [[0xFF, 46, 98], [47, 0xFE, 46, 102]] = .error f) ∧
      ∃ f, titles [[46, 46], [97, 46, 98], [47, 112, 114, 111, 103, 114, 97, 109, 46, 98]] = .error f := by
  constructor
  · exact (titles_detect_collisions _).2.2.2.1 [0xFF, 46, 98] [47, 0xFE, 46, 102] [0xFF, 46, 98] [0xFE, 46, 102]
      (by decide) (by decide) (by decide) (by decide) (by decide) rfl
  · have hstem : Path.stem [112, 114, 111, 103, 114, 97, 109, 46, 98] = Path.ofString "program" :=
      (Utf8.encode_ofList ['p', 'r', 'o', 'g', 'r', 'a', 'm']).symm
    exact (titles_detect_collisions _).2.2.2.2 [46, 46] [47, 112, 114, 111, 103, 114, 97, 109, 46, 98]
      [112, 114, 111, 103, 114, 97, 109, 46, 98] (by decide) (by decide) (by decide) (by decide) hstem

end TapeMachine
