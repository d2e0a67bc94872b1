import TapeMachine.Bench.Store
import TapeMachine.Bench.Title
import TapeMachine.Proofs.Utf8

namespace TapeMachine

namespace Path

theorem pieces_append_slash (p q : Path) : pieces (p ++ slash :: q) = pieces p ++ pieces q := by
  induction p with
  | nil => simp [pieces]
  | cons b bs ih =>
    simp only [List.cons_append, pieces]
    split
    · rw [ih, List.cons_append]
    · obtain ⟨n, ns, hn⟩ := List.exists_cons_of_ne_nil (pieces_ne_nil bs)
      rw [ih, hn]
      rfl

theorem pieces_of_not_mem {n : Name} (h : slash ∉ n) : pieces n = [n] := by
  induction n with
  | nil => rfl
  | cons b bs ih =>
    rw [List.mem_cons, not_or] at h
    rw [pieces, if_neg (Ne.symm h.1), ih h.2]

theorem slash_not_mem_of_mem_pieces {p : Path} {n : Name} (h : n ∈ pieces p) : slash ∉ n := by
  induction p generalizing n with
  | nil =>
    rw [pieces, List.mem_singleton] at h
    rw [h]
    exact List.not_mem_nil
  | cons b bs ih =>
    rw [pieces] at h
    split at h
    · rcases List.mem_cons.mp h with rfl | h
      · exact List.not_mem_nil
      · exact ih h
    · next hb =>
      obtain ⟨m, ms, hm⟩ := List.exists_cons_of_ne_nil (pieces_ne_nil bs)
      simp only [hm] at h ih
      rcases List.mem_cons.mp h with rfl | h
      · rw [List.mem_cons, not_or]
        exact ⟨Ne.symm hb, ih List.mem_cons_self⟩
      · exact ih (List.mem_cons_of_mem _ h)

/-- The pieces that are not empty; dots are kept. -/
def names (p : Path) : List Name :=
  p.pieces.filter (· ≠ [])

theorem names_of_not_mem {n : Name} (hs : slash ∉ n) (hn : n ≠ []) : names n = [n] := by
  simp [names, pieces_of_not_mem hs, hn]

theorem names_append_slash (p q : Path) : names (p ++ slash :: q) = names p ++ names q := by
  rw [names, pieces_append_slash, List.filter_append]
  rfl

theorem names_join (dir : Path) {p : Path} (h : p.isAbsolute = false) :
    names (dir.join p) = names dir ++ names p := by
  have h' : ¬ p.isAbsolute = true := by simp [h]
  rw [join, if_neg h']
  split
  next hd =>
    rcases hd with rfl | hd
    · rfl
    · obtain ⟨d, rfl⟩ := List.getLast?_eq_some_iff.mp hd
      have hd : names (d ++ [slash]) = names d := by
        rw [names_append_slash d []]
        exact List.append_nil _
      rw [hd, List.append_assoc]
      exact names_append_slash d p
  next => exact names_append_slash dir p

theorem isAbsolute_join (dir : Path) {p : Path} (h : p.isAbsolute = false) :
    (dir.join p).isAbsolute = dir.isAbsolute := by
  have h' : ¬ p.isAbsolute = true := by simp [h]
  rw [join, if_neg h']
  cases dir with
  | nil => exact h
  | cons b bs => split <;> rfl

theorem components_eq (p : Path) : p.components = p.names.filter (· ≠ [dot]) := by
  simp only [components, names, List.filter_filter, ← Bool.decide_and, and_comm]

theorem slash_not_mem_of_fileName? {p : Path} {n : Name} (h : p.fileName? = some n) : slash ∉ n ∧ n ≠ [] := by
  unfold fileName? at h
  split at h
  next m hm =>
    have hmem := List.mem_of_getLast? hm
    rw [components, List.mem_filter] at hmem
    split at h
    · cases h
    · cases h
      exact ⟨slash_not_mem_of_mem_pieces hmem.1, by simpa using (of_decide_eq_true hmem.2).1⟩
  next => cases h

theorem beforeLastDot_append (m : Name) {e : Name} (he : dot ∉ e) : beforeLastDot (m ++ dot :: e) = m := by
  have hr : (m ++ dot :: e).reverse = e.reverse ++ (dot :: m.reverse) := by simp
  have hd : ∀ b ∈ e.reverse, (decide (b ≠ dot)) = true := by
    intro b hb
    rw [List.mem_reverse] at hb
    exact decide_eq_true fun h => he (h ▸ hb)
  rw [beforeLastDot, hr, List.dropWhile_append_of_pos hd]
  simp

theorem stem_append {m e : Name} (hm : m ≠ []) (he : dot ∉ e) : stem (m ++ dot :: e) = m := by
  simp only [stem, beforeLastDot_append m he, hm, ↓reduceIte]

theorem stem_subset (n : Name) : stem n ⊆ n := by
  unfold stem beforeLastDot
  simp only
  split
  · exact List.Subset.refl n
  · intro b hb
    have h := List.mem_reverse.mp hb
    exact List.mem_reverse.mp ((List.dropWhile_sublist _).subset (List.mem_of_mem_drop h))

theorem stem_ne_nil {n : Name} (h : n ≠ []) : stem n ≠ [] := by
  simp only [stem]
  split
  · exact h
  · assumption

theorem slash_not_mem_title (p : Path) : '/' ∉ p.title.toList := by
  unfold title
  split
  next n hn =>
    intro h
    exact (slash_not_mem_of_fileName? hn).1 (stem_subset n (Utf8.slash_mem_of_mem_lossy _ h))
  next => decide

theorem title_ne_empty (p : Path) : p.title ≠ "" := by
  unfold title
  split
  next n hn => exact Utf8.lossy_ne_empty _ (stem_ne_nil (slash_not_mem_of_fileName? hn).2)
  next => decide

/-- The place that names lead to from a directory. -/
def follow (dir : Place) : List Name → Place
  | [] => dir
  | n :: ns =>
    if n = [dot] then follow dir ns
    else if n = [dot, dot] then follow dir.dropLast ns
    else follow (dir ++ [n]) ns

theorem follow_append (dir : Place) (ns ms : List Name) : follow dir (ns ++ ms) = follow (follow dir ns) ms := by
  induction ns generalizing dir with
  | nil => rfl
  | cons n ns ih =>
    simp only [List.cons_append, follow]
    split
    · exact ih dir
    · split
      · exact ih dir.dropLast
      · exact ih (dir ++ [n])

end Path

def FileTree.startOf (t : FileTree) (p : Path) : Place :=
  if p.isAbsolute then [] else t.workingPlace

def FileTree.place (t : FileTree) (p : Path) : Place :=
  Path.follow (t.startOf p) p.names

namespace Bench

def reportName (title : String) : Name :=
  Path.ofString (title ++ ".json")

theorem reportName_eq (title : String) : reportName title = Utf8.encode title ++ Path.dot :: [106, 115, 111, 110] := by
  have h : Utf8.encode ".json" = [46, 106, 115, 111, 110] := Utf8.encode_ofList ['.', 'j', 's', 'o', 'n']
  rw [reportName, Path.ofString, Utf8.encode_append, h]
  rfl

theorem reportName_injective : Function.Injective reportName := by
  intro t u h
  rw [reportName_eq, reportName_eq] at h
  exact Utf8.encode_injective (List.append_cancel_right h)

variable {title : String}

theorem slash_not_mem_reportName (h : '/' ∉ title.toList) : Path.slash ∉ reportName title := by
  rw [reportName_eq, List.mem_append]
  rintro (h' | h')
  · exact h (Utf8.slash_mem_of_mem_encode h')
  · exact absurd h' (by decide)

theorem reportName_ne {n : Name} (h : n.length < 5) : reportName title ≠ n := by
  intro he
  rw [← he, reportName_eq, List.length_append] at h
  exact Nat.not_lt.mpr (Nat.le_add_left 5 _) h

theorem names_reportName (h : '/' ∉ title.toList) : Path.names (reportName title) = [reportName title] := by
  exact Path.names_of_not_mem (slash_not_mem_reportName h) (reportName_ne (by decide))

theorem isAbsolute_reportName (h : '/' ∉ title.toList) : Path.isAbsolute (reportName title) = false := by
  have hs := slash_not_mem_reportName h
  unfold Path.isAbsolute
  cases hn : reportName title with
  | nil => rfl
  | cons b bs =>
    rw [hn, List.mem_cons, not_or] at hs
    simpa using Ne.symm hs.1

theorem stem_reportName (h : title ≠ "") : Path.stem (reportName title) = Utf8.encode title := by
  have hn : Utf8.encode title ≠ [] := fun he => h (Utf8.encode_injective (he.trans (Utf8.encode_ofList []).symm))
  rw [reportName_eq]
  exact Path.stem_append hn (by decide)

variable (dir : Path)

theorem names_reportPath (h : '/' ∉ title.toList) :
    (reportPath dir title).names = dir.names ++ [reportName title] := by
  have hj : (reportPath dir title).names = dir.names ++ Path.names (reportName title) :=
    Path.names_join dir (isAbsolute_reportName h)
  rw [hj, names_reportName h]

theorem components_reportPath (h : '/' ∉ title.toList) :
    (reportPath dir title).components = dir.components ++ [reportName title] := by
  have hd : reportName title ≠ [Path.dot] := reportName_ne (by decide)
  rw [Path.components_eq, names_reportPath dir h, List.filter_append, ← Path.components_eq]
  simp [hd]

theorem fileName?_reportPath (h : '/' ∉ title.toList) :
    (reportPath dir title).fileName? = some (reportName title) := by
  have hd : reportName title ≠ [Path.dot, Path.dot] := reportName_ne (by decide)
  simp only [Path.fileName?, components_reportPath dir h, List.getLast?_concat, hd, ↓reduceIte]

theorem place_reportPath (t : FileTree) (h : '/' ∉ title.toList) :
    t.place (reportPath dir title) = t.place dir ++ [reportName title] := by
  have ha : (reportPath dir title).isAbsolute = dir.isAbsolute :=
    Path.isAbsolute_join dir (isAbsolute_reportName h)
  have hd : reportName title ≠ [Path.dot] := reportName_ne (by decide)
  have hdd : reportName title ≠ [Path.dot, Path.dot] := reportName_ne (by decide)
  have hstart : t.startOf (reportPath dir title) = t.startOf dir := by
    rw [FileTree.startOf, FileTree.startOf, ha]
  rw [FileTree.place, FileTree.place, hstart, names_reportPath dir h, Path.follow_append]
  simp only [Path.follow, hd, hdd, ↓reduceIte]

/-- A file with the name of a report has the title of the report. -/
theorem title_of_reportName {p : Path} (ht : title ≠ "") (h : p.fileName? = some (reportName title)) :
    p.title = title := by
  simp only [Path.title, h, stem_reportName ht]
  exact Utf8.lossy_encode title

end Bench

end TapeMachine
