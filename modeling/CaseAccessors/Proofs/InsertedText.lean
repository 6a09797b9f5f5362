import CaseAccessors.Completion
import CaseAccessors.Proofs.BodyEnd

/-! What the text of an insertion looks like from outside: it ends with the indentation of the brace
that follows it, and it holds the braces of accessors. -/
namespace CaseAccessors

namespace Text

theorem dropWhile_isBlank_eq_nil_iff {s : Text} :
    s.dropWhile isBlank = [] ↔ ∀ c ∈ s, isBlank c = true := by
  induction s with
  | nil => simp
  | cons c s ih =>
    by_cases hc : isBlank c = true
    · rw [List.dropWhile_cons_of_pos hc, ih]
      simp [hc]
    · rw [List.dropWhile_cons_of_neg hc]
      simp [hc]

theorem trim_eq_nil_iff {s : Text} : trim s = [] ↔ ∀ c ∈ s, isBlank c = true := by
  rw [trim, List.reverse_eq_nil_iff, dropWhile_isBlank_eq_nil_iff,
    ← dropWhile_isBlank_eq_nil_iff (s := s)]
  constructor
  · intro h
    have hhead := List.head?_dropWhile_not isBlank s
    cases hs : s.dropWhile isBlank with
    | nil => rfl
    | cons c t =>
      rw [hs] at h hhead
      have hc : isBlank c = false := hhead
      rw [h c (by simp)] at hc
      cases hc
  · intro h
    simp [h]

theorem withNewline_append (s t newline : Text) :
    withNewline (s ++ t) newline = withNewline s newline ++ withNewline t newline := by
  simp [withNewline]

theorem withNewline_newline (s newline : Text) :
    withNewline ('\n' :: s) newline = newline ++ withNewline s newline := rfl

theorem withNewline_cons_of_ne {c : Char} (hc : c ≠ '\n') (s newline : Text) :
    withNewline (c :: s) newline = c :: withNewline s newline := by
  rw [withNewline, List.flatMap_cons, if_neg hc]
  rfl

theorem withNewline_of_not_mem {s : Text} (h : '\n' ∉ s) (newline : Text) :
    withNewline s newline = s := by
  induction s with
  | nil => rfl
  | cons c s ih =>
    have hc : c ≠ '\n' := fun hc => h (hc ▸ List.mem_cons_self)
    rw [withNewline_cons_of_ne hc, ih fun hs => h (List.mem_cons_of_mem c hs)]

theorem mem_withNewline {s : Text} {c : Char} (hc : c ∈ s) (hne : c ≠ '\n') (newline : Text) :
    c ∈ withNewline s newline :=
  List.mem_flatMap.2 ⟨c, hc, by simp [hne]⟩

theorem isIndent_of_mem_indentAt {before after : Text} {c : Char} (h : c ∈ indentAt before after) :
    isIndent c = true :=
  List.all_eq_true.1 List.all_takeWhile c h

theorem isIndent_of_mem_lineIndent? {s : Text} {offset : Nat} {c : Char}
    (h : c ∈ (lineIndent? s offset).getD []) : isIndent c = true := by
  rw [lineIndent?] at h
  cases hcut : s.cutAt? offset with
  | none => simp [hcut] at h
  | some p =>
    rw [hcut] at h
    exact isIndent_of_mem_indentAt h

end Text

theorem Options.isIndent_of_mem_unit (o : Options) : ∀ c ∈ o.unit, Text.isIndent c = true := by
  intro c hc
  rw [List.eq_of_mem_replicate hc]
  rfl

namespace Accessor

/-- Printed accessors are whole lines, one of which opens a body. -/
theorem exists_printAll (st : Style) {as : List Accessor} (h : as ≠ []) :
    ∃ s, printAll st as = s ++ ['\n'] ∧ '\x7b' ∈ s := by
  have hone : ∀ a : Accessor, ∃ s, a.print st = s ++ ['\n'] ∧ '\x7b' ∈ s := fun a => by
    obtain ⟨u, hu, hmem⟩ : ∃ u, a.print st = u ++ st.line 0 ['\x7d'] ∧ '\x7b' ∈ u :=
      ⟨_, rfl, by simp [Style.line]⟩
    exact ⟨u ++ (st.indent ++ ['\x7d']), by rw [hu, Style.line]; simp, by simp [hmem]⟩
  unfold printAll
  induction as with
  | nil => exact absurd rfl h
  | cons a as ih =>
    obtain ⟨s, hs, hmem⟩ := hone a
    cases as with
    | nil => exact ⟨s, hs, hmem⟩
    | cons b as =>
      obtain ⟨t, ht, -⟩ := ih (List.cons_ne_nil b as)
      refine ⟨s ++ ['\n'] ++ ['\n'] ++ t, ?_, by simp [hmem]⟩
      rw [List.map_cons, List.map_cons, Text.joinWith_cons_cons, ← List.map_cons, ht, hs]
      simp

theorem getLast?_printAll (st : Style) (as : List Accessor) :
    ∀ c ∈ (printAll st as).getLast?, c = '\n' := by
  by_cases h : as = []
  · simp [h, printAll, Text.joinWith]
  · obtain ⟨s, hs, -⟩ := exists_printAll st h
    simp [hs]

end Accessor

namespace Decl

theorem accessors_complete (d : Decl) : d.complete.1.accessors = d.accessors ++ d.missing := by
  have hnew : (d.missing.map Member.accessor).filterMap Member.accessor? = d.missing := by
    rw [List.filterMap_map]
    exact List.filterMap_some
  rw [complete, accessors, List.filterMap_append, hnew, accessors]

theorem complete_snd_iff {d : Decl} : d.complete.2 = true ↔ d.missing ≠ [] := by
  simp [complete]

end Decl

namespace Site

theorem accessors_and_indent_of_enumeration {s : Site} {src : Text} {e : Enumeration}
    (h : s.enumeration src = .ok e) :
    e.decl.accessors = [] ∧ ∀ c ∈ e.indent, Text.isIndent c = true := by
  obtain ⟨brace, g, b, -, -, rfl⟩ := enumeration_eq_ok_iff.1 h
  refine ⟨?_, fun c hc => Text.isIndent_of_mem_lineIndent? hc⟩
  rw [Decl.accessors, List.filterMap_map]
  exact List.filterMap_eq_nil_iff.2 fun _ _ => rfl

end Site

end CaseAccessors
