import TapeMachine.Proofs.Place

namespace TapeMachine.FileTree

theorem lookup_filter_ne {p q : Place} (h : q ≠ p) (entries : List (Place × Entry)) :
    (entries.filter (·.1 ≠ p)).lookup q = entries.lookup q := by
  induction entries with
  | nil => rfl
  | cons x entries ih =>
    by_cases hx : x.1 = p
    · have hq : (q == x.1) = false := by simpa [hx] using h
      rw [List.filter_cons_of_neg (by simpa using hx), ih, List.lookup_cons, hq]
    · rw [List.filter_cons_of_pos (by simpa using hx), List.lookup_cons, List.lookup_cons, ih]

theorem entryAt_insert_of_ne (t : FileTree) {p q : Place} (h : q ≠ p) (e : Entry) :
    (t.insert p e).entryAt q = t.entryAt q := by
  have hq : (q == p) = false := by simpa using h
  simp only [entryAt, insert, List.lookup_cons, hq, lookup_filter_ne h]

theorem entryAt_insert_self (t : FileTree) {p : Place} (h : p ≠ []) (e : Entry) :
    (t.insert p e).entryAt p = some e := by
  simp [entryAt, insert, h]

theorem ne_nil_of_entryAt {t : FileTree} {p : Place} (h : t.entryAt p ≠ some .directory) : p ≠ [] := by
  rintro rfl
  exact h rfl

def Target.place : Target → Place
  | existing p _ => p
  | absent p => p

/-- A name that stands for an entry of its directory. -/
structure Plain (n : Name) : Prop where
  ne_dot : n ≠ [Path.dot]
  ne_up : n ≠ [Path.dot, Path.dot]
  length_le : n.length ≤ maxNameLength

/-- The names lead from a directory to the target, through directories. -/
inductive Leads (t : FileTree) : Place → List Name → Target → Prop where
  | here (dir : Place) : Leads t dir [] (.existing dir .directory)
  | stay {dir : Place} {ns : List Name} {x : Target} : Leads t dir ns x → Leads t dir ([Path.dot] :: ns) x
  | up {dir : Place} {ns : List Name} {x : Target} : Leads t dir.dropLast ns x →
      Leads t dir ([Path.dot, Path.dot] :: ns) x
  | into {dir : Place} {n : Name} {ns : List Name} {x : Target} : Plain n →
      t.entryAt (dir ++ [n]) = some .directory → Leads t (dir ++ [n]) ns x → Leads t dir (n :: ns) x
  | file {dir : Place} {n : Name} {content : List UInt8} : Plain n →
      t.entryAt (dir ++ [n]) = some (.file content) → Leads t dir [n] (.existing (dir ++ [n]) (.file content))
  | absent {dir : Place} {n : Name} : Plain n → t.entryAt (dir ++ [n]) = none →
      Leads t dir [n] (.absent (dir ++ [n]))

variable {t : FileTree} {dir : Place} {ns : List Name} {x : Target}

theorem leads_of_walk (h : t.walk dir ns = .ok x) : Leads t dir ns x := by
  induction ns generalizing dir with
  | nil =>
    cases h
    exact .here dir
  | cons n ns ih =>
    rw [walk] at h
    split at h
    next hn => exact hn ▸ .stay (ih h)
    next hdot =>
      split at h
      next hn => exact hn ▸ .up (ih h)
      next hup =>
        split at h
        next => cases h
        next hlength =>
          have hplain : Plain n := ⟨hdot, hup, Nat.le_of_not_lt hlength⟩
          simp only at h
          split at h
          next hentry => exact .into hplain hentry (ih h)
          next hentry =>
            split at h
            next hns =>
              cases h
              exact hns ▸ .file hplain hentry
            next => cases h
          next hentry =>
            split at h
            next hns =>
              cases h
              exact hns ▸ .absent hplain hentry
            next => cases h

theorem walk_of_leads (h : Leads t dir ns x) : t.walk dir ns = .ok x := by
  induction h with
  | here => rfl
  | stay _ ih => simpa [walk] using ih
  | up _ ih => simpa [walk] using ih
  | into hn he _ ih => simpa [walk, hn.ne_dot, hn.ne_up, Nat.not_lt.mpr hn.length_le, he] using ih
  | file hn he => simp [walk, hn.ne_dot, hn.ne_up, Nat.not_lt.mpr hn.length_le, he]
  | absent hn he => simp [walk, hn.ne_dot, hn.ne_up, Nat.not_lt.mpr hn.length_le, he]

theorem Leads.place_eq (h : Leads t dir ns x) : x.place = Path.follow dir ns := by
  induction h with
  | here => rfl
  | stay _ ih => simpa [Path.follow] using ih
  | up _ ih => simpa [Path.follow] using ih
  | into hn _ _ ih => simpa [Path.follow, hn.ne_dot, hn.ne_up] using ih
  | file hn | absent hn => simp [Path.follow, hn.ne_dot, hn.ne_up, Target.place]

/-- A target that is no directory is named by the last name. -/
theorem Leads.exists_last (h : Leads t dir ns x) (hx : ∀ q, x ≠ .existing q .directory) :
    ∃ n, ns.getLast? = some n ∧ x.place.getLast? = some n ∧ Plain n := by
  induction h with
  | here dir => exact absurd rfl (hx dir)
  | stay _ ih | up _ ih | into _ _ _ ih =>
    obtain ⟨n, hn, hlast, hplain⟩ := ih hx
    exact ⟨n, by rw [List.getLast?_cons, hn]; rfl, hlast, hplain⟩
  | file hn | absent hn => exact ⟨_, rfl, List.getLast?_concat, hn⟩

/-- What is said of a target is so. -/
theorem Leads.entryAt_place (h : Leads t dir ns x) :
    (∀ q, x = .absent q → t.entryAt q = none) ∧
      ∀ q content, x = .existing q (.file content) → t.entryAt q = some (.file content) := by
  induction h with
  | here => exact ⟨nofun, nofun⟩
  | stay _ ih | up _ ih | into _ _ _ ih => exact ih
  | file hn he =>
    refine ⟨nofun, fun q content hx => ?_⟩
    cases hx
    exact he
  | absent hn he =>
    refine ⟨fun q hx => ?_, nofun⟩
    cases hx
    exact he

/-- Files have changed at places of `changed` alone. Directories have stayed, and new ones stand where nothing was. -/
structure Grows (changed : Place → Prop) (t t' : FileTree) : Prop where
  workingPlace_eq : t'.workingPlace = t.workingPlace
  directory : ∀ q, t.entryAt q = some .directory → t'.entryAt q = some .directory
  other : ∀ q, ¬ changed q → t'.entryAt q = t.entryAt q ∨ t.entryAt q = none ∧ t'.entryAt q = some .directory

/-- Only directories have been added. -/
abbrev Widens (t t' : FileTree) : Prop :=
  Grows (fun _ => False) t t'

namespace Grows

variable {changed changed' : Place → Prop} {t' t'' : FileTree}

theorem refl (changed : Place → Prop) (t : FileTree) : Grows changed t t :=
  ⟨rfl, fun _ h => h, fun _ _ => .inl rfl⟩

theorem trans (h : Grows changed t t') (h' : Grows changed t' t'') : Grows changed t t'' := by
  refine ⟨h'.workingPlace_eq.trans h.workingPlace_eq, fun q hq => h'.directory q (h.directory q hq), fun q hq => ?_⟩
  rcases h.other q hq with he | ⟨hnone, hdir⟩
  · rcases h'.other q hq with he' | ⟨hnone', hdir'⟩
    · exact .inl (he'.trans he)
    · exact .inr ⟨he ▸ hnone', hdir'⟩
  · exact .inr ⟨hnone, h'.directory q hdir⟩

theorem mono (h : Grows changed t t') (hc : ∀ q, changed q → changed' q) : Grows changed' t t' :=
  ⟨h.workingPlace_eq, h.directory, fun q hq => h.other q fun hq' => hq (hc q hq')⟩

theorem startOf_eq (h : Grows changed t t') (p : Path) : t'.startOf p = t.startOf p := by
  rw [startOf, startOf, h.workingPlace_eq]

theorem place_eq (h : Grows changed t t') (p : Path) : t'.place p = t.place p := by
  rw [place, place, h.startOf_eq]

/-- A file that is there later was there before. -/
theorem file_before (h : Grows changed t t') {q : Place} (hq : ¬ changed q) {content : List UInt8}
    (he : t'.entryAt q = some (.file content)) : t.entryAt q = some (.file content) := by
  rcases h.other q hq with heq | ⟨-, hdir⟩
  · exact heq ▸ he
  · cases he.symm.trans hdir

theorem file_after (h : Grows changed t t') {q : Place} (hq : ¬ changed q) {content : List UInt8}
    (he : t.entryAt q = some (.file content)) : t'.entryAt q = some (.file content) := by
  rcases h.other q hq with heq | ⟨hnone, -⟩
  · exact heq.trans he
  · cases he.symm.trans hnone

theorem leads_file (h : Grows changed t t') {q : Place} (hq : ¬ changed q) {content : List UInt8}
    (hl : Leads t dir ns (.existing q (.file content))) : Leads t' dir ns (.existing q (.file content)) := by
  generalize hx : Target.existing q (.file content) = x at hl
  induction hl with
  | here => cases hx
  | stay _ ih => exact .stay (ih hx)
  | up _ ih => exact .up (ih hx)
  | into hn he _ ih => exact .into hn (h.directory _ he) (ih hx)
  | file hn he =>
    cases hx
    exact .file hn (h.file_after hq he)
  | absent => cases hx

theorem insert_directory {q : Place} (hq : t.entryAt q = none) : Widens t (t.insert q .directory) := by
  have hentry : t.entryAt q ≠ some .directory := by simp [hq]
  have hne := ne_nil_of_entryAt hentry
  refine ⟨rfl, fun p hp => ?_, fun p _ => ?_⟩
  · by_cases hpq : p = q
    · rw [hpq, entryAt_insert_self t hne]
    · rw [entryAt_insert_of_ne t hpq, hp]
  · by_cases hpq : p = q
    · subst hpq
      exact .inr ⟨hq, entryAt_insert_self t hne _⟩
    · exact .inl (entryAt_insert_of_ne t hpq _)

theorem insert_file {q : Place} (hq : t.entryAt q ≠ some .directory) (content : List UInt8) :
    Grows (· = q) t (t.insert q (.file content)) := by
  refine ⟨rfl, fun p hp => ?_, fun p hpq => .inl (entryAt_insert_of_ne t hpq _)⟩
  have hpq : p ≠ q := by
    rintro rfl
    exact hq hp
  rw [entryAt_insert_of_ne t hpq, hp]

end Grows

/-- The path is not refused before it is followed. -/
structure Followed (p : Path) : Prop where
  contains_zero : p.contains 0 = false
  ne_nil : p ≠ []
  length_le : p.length ≤ maxPathLength

theorem locate_eq_ok_iff {p : Path} : t.locate p = .ok x ↔ Followed p ∧ Leads t (t.startOf p) p.names x := by
  constructor
  · intro h
    unfold locate at h
    split at h
    · cases h
    · split at h
      · cases h
      · split at h
        · cases h
        next h0 hnil hlength =>
          simp only at h
          split at h
          · cases h
          next hw =>
            cases h
            exact ⟨⟨by simpa using h0, hnil, Nat.le_of_not_lt hlength⟩, leads_of_walk hw⟩
  · rintro ⟨⟨h0, hnil, hlength⟩, hl⟩
    have hw := walk_of_leads hl
    unfold startOf Path.names at hw
    simp only [locate, h0, hnil, Nat.not_lt.mpr hlength, hw, Bool.false_eq_true, ↓reduceIte]

theorem leads_of_locate {p : Path} (h : t.locate p = .ok x) : Leads t (t.startOf p) p.names x :=
  (locate_eq_ok_iff.mp h).2

theorem place_of_locate {p : Path} (h : t.locate p = .ok x) : x.place = t.place p :=
  (leads_of_locate h).place_eq

theorem fetch_eq_ok_iff {p : Path} {content : List UInt8} :
    t.fetch p = .ok content ↔
      t.locate p = .ok (.existing (t.place p) (.file content)) ∧ endsInSlash p = false := by
  constructor
  · intro h
    unfold fetch at h
    split at h
    · cases h
    · cases h
    · cases h
    next q c hq =>
      split at h
      · cases h
      next hs =>
        cases h
        have hplace := place_of_locate hq
        rw [← hplace]
        exact ⟨hq, by simpa using hs⟩
  · rintro ⟨hl, hs⟩
    simp only [fetch, hl, hs, Bool.false_eq_true, ↓reduceIte]

def Holds (t : FileTree) (p : Path) (content : List UInt8) : Prop :=
  t.entryAt (t.place p) = some (.file content)

theorem holds_of_fetch {p : Path} {content : List UInt8} (h : t.fetch p = .ok content) : t.Holds p content :=
  (leads_of_locate (fetch_eq_ok_iff.mp h).1).entryAt_place.2 _ _ rfl

/-- A file that can be read has the name that its path ends in. -/
theorem fileName?_of_fetch {p : Path} {content : List UInt8} (h : t.fetch p = .ok content) :
    ∃ n, p.fileName? = some n ∧ (t.place p).getLast? = some n := by
  have hl := leads_of_locate (fetch_eq_ok_iff.mp h).1
  obtain ⟨n, hlast, hplace, hplain⟩ := hl.exists_last nofun
  refine ⟨n, ?_, hplace⟩
  obtain ⟨ms, hms⟩ := List.getLast?_eq_some_iff.mp hlast
  have hcomponents : p.components.getLast? = some n := by
    rw [Path.components_eq, hms, List.filter_append]
    simp [hplain.ne_dot]
  rw [Path.fileName?, hcomponents]
  exact if_neg hplain.ne_up

namespace Grows

variable {changed : Place → Prop} {t' : FileTree}

theorem fetch (h : Grows changed t t') {p : Path} (hp : ¬ changed (t.place p)) {content : List UInt8}
    (hf : t.fetch p = .ok content) : t'.fetch p = .ok content := by
  rw [fetch_eq_ok_iff] at hf ⊢
  obtain ⟨hfollowed, hl⟩ := locate_eq_ok_iff.mp hf.1
  have hl' := h.leads_file hp hl
  rw [← h.startOf_eq] at hl'
  rw [h.place_eq]
  exact ⟨locate_eq_ok_iff.mpr ⟨hfollowed, hl'⟩, hf.2⟩

theorem holds (h : Grows changed t t') {p : Path} (hp : ¬ changed (t.place p)) {content : List UInt8}
    (hf : t'.Holds p content) : t.Holds p content := by
  unfold Holds at hf
  rw [h.place_eq] at hf
  exact h.file_before hp hf

end Grows

theorem widens_of_makeDirectory {t' : FileTree} {p : Path} (h : t.makeDirectory p = .ok t') : Widens t t' := by
  unfold makeDirectory at h
  split at h
  · cases h
  · cases h
  next q hq =>
    cases h
    exact .insert_directory ((leads_of_locate hq).entryAt_place.1 q rfl)

theorem Leads.entryAt_ne_directory (h : Leads t dir ns x) (hx : ∀ q, x ≠ .existing q .directory) :
    t.entryAt x.place ≠ some .directory := by
  intro hd
  cases x with
  | existing q e =>
    cases e with
    | directory => exact hx q rfl
    | file content => cases hd.symm.trans (h.entryAt_place.2 q content rfl)
  | absent q => cases hd.symm.trans (h.entryAt_place.1 q rfl)

/-- The names of a file lead to it once it has been created or replaced. -/
theorem Leads.insert (h : Leads t dir ns x) (hx : ∀ q, x ≠ .existing q .directory) (content : List UInt8) :
    Leads (t.insert x.place (.file content)) dir ns (.existing x.place (.file content)) := by
  have hentry := h.entryAt_ne_directory hx
  have hnil := ne_nil_of_entryAt hentry
  have hgrows := Grows.insert_file hentry content
  clear hentry
  induction h with
  | here dir => exact absurd rfl (hx dir)
  | stay _ ih => exact .stay (ih hx hnil hgrows)
  | up _ ih => exact .up (ih hx hnil hgrows)
  | into hn he _ ih => exact .into hn (hgrows.directory _ he) (ih hx hnil hgrows)
  | file hn | absent hn => exact .file hn (entryAt_insert_self t hnil _)

theorem store_eq_ok {t' : FileTree} {p : Path} {content : List UInt8} (h : t.store p content = .ok t') :
    ∃ x, t.locate p = .ok x ∧ (∀ q, x ≠ .existing q .directory) ∧ endsInSlash p = false ∧
      t' = t.insert x.place (.file content) := by
  unfold store at h
  split at h
  · cases h
  · cases h
  all_goals
    split at h
    · cases h
    next hl hs =>
      cases h
      exact ⟨_, hl, nofun, by simpa using hs, rfl⟩

/-- What was stored can be read back, and no other file was touched. -/
theorem grows_of_store {t' : FileTree} {p : Path} {content : List UInt8} (h : t.store p content = .ok t') :
    Grows (· = t.place p) t t' ∧ t'.fetch p = .ok content := by
  obtain ⟨x, hl, hx, hs, rfl⟩ := store_eq_ok h
  obtain ⟨hfollowed, hleads⟩ := locate_eq_ok_iff.mp hl
  have hplace : x.place = t.place p := place_of_locate hl
  have hgrows := Grows.insert_file (hleads.entryAt_ne_directory hx) content
  have hleads' := hleads.insert hx content
  rw [hplace] at hgrows hleads' ⊢
  refine ⟨hgrows, fetch_eq_ok_iff.mpr ⟨locate_eq_ok_iff.mpr ⟨hfollowed, ?_⟩, hs⟩⟩
  rw [hgrows.startOf_eq, hgrows.place_eq]
  exact hleads'

end TapeMachine.FileTree
