import Mathlib.Data.List.Basic
import TapeMachine.Bench.Report
import TapeMachine.Proofs.Utf8

namespace TapeMachine

namespace Text

/-- No escape is the beginning of another one, and none begins as a quotation ends. -/
structure Escape.PrefixFree (escape : Escape) : Prop where
  eq_of_prefix : ∀ {c d : Char}, escape c <+: escape d → c = d
  exists_cons : ∀ c, ∃ x xs, escape c = x :: xs ∧ x ≠ '"'

/-- A quotation can be read back, whatever follows it. -/
theorem Escape.PrefixFree.append_inj {escape : Escape} (h : escape.PrefixFree) {s t xs ys : List Char}
    (heq : s.flatMap escape ++ '"' :: xs = t.flatMap escape ++ '"' :: ys) : s = t ∧ xs = ys := by
  have opened : ∀ {c : Char} {us vs zs : List Char}, '"' :: us ≠ (c :: vs).flatMap escape ++ zs := by
    intro c us vs zs hq
    obtain ⟨x, xs, hx, hne⟩ := h.exists_cons c
    rw [List.flatMap_cons, hx] at hq
    exact hne (List.cons.inj hq).1.symm
  induction s generalizing t with
  | nil =>
    cases t with
    | nil => exact ⟨rfl, (List.cons.inj heq).2⟩
    | cons d t => exact absurd heq opened
  | cons c s ih =>
    cases t with
    | nil => exact absurd heq.symm opened
    | cons d t =>
      rw [List.flatMap_cons, List.flatMap_cons, List.append_assoc, List.append_assoc] at heq
      have hc : escape c <+: escape d ++ (t.flatMap escape ++ '"' :: ys) := ⟨_, heq⟩
      obtain rfl : c = d := by
        rcases List.prefix_or_prefix_of_prefix hc (List.prefix_append _ _) with hcd | hdc
        · exact h.eq_of_prefix hcd
        · exact (h.eq_of_prefix hdc).symm
      obtain ⟨rfl, hrest⟩ := ih (List.append_cancel_left heq)
      exact ⟨rfl, hrest⟩

end Text

namespace Decimal.Format

variable {f : Format} {ds : List Char}

variable (hsign : '\n' ∉ f.exponentSign.toList)

include hsign

end Decimal.Format

/-- The bytes are a report with the title and the engines, and no other report is written as them. -/
structure Printer.Shows (print : Printer) (title : String) (engines : List String) (content : List UInt8) : Prop where
  printed : ∃ r : Report, r.title = title ∧ r.samples.map Sample.engine = engines ∧ print r = content
  only : ∀ r : Report, print r = content → r.title = title ∧ r.samples.map Sample.engine = engines

theorem Printer.Tells.shows {print : Printer} (h : print.Tells) (r : Report) :
    print.Shows r.title (r.samples.map Sample.engine) (print r) :=
  ⟨⟨r, rfl, rfl, rfl⟩, fun _ he => ⟨h.title he, h.engines he⟩⟩

namespace Report

end Report

end TapeMachine
