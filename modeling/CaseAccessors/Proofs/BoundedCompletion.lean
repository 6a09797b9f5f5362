import CaseAccessors.Proofs.Hunk

/-! Completing where no text has more than `Text.maxSize` bytes. The blanks of a level stand in any
output that has new accessors, so a text can be completed just if it can be where there is room for
all, and its output has no more bytes than that. -/
namespace CaseAccessors

namespace Text

theorem infix_withNewline {s t : Text} (hs : '\n' ∉ s) (h : s <:+: t) (newline : Text) :
    s <:+: t.withNewline newline := by
  obtain ⟨front, behind, rfl⟩ := h
  rw [withNewline_append, withNewline_append, withNewline_of_not_mem hs]
  exact ⟨_, _, rfl⟩

end Text

namespace Accessor

theorem unit_infix_printAll (st : Style) {as : List Accessor} (h : as ≠ []) :
    st.unit <:+: printAll st as := by
  have hone : ∀ a : Accessor, st.unit <:+: a.print st := by
    intro a
    obtain ⟨behind, hprint⟩ : ∃ behind, a.print st =
        st.line 0 (a.header st) ++ (st.line 1 "get \x7b".toList ++ behind) :=
      ⟨_, by simp only [print, List.append_assoc]; rfl⟩
    rw [hprint]
    exact ⟨st.line 0 (a.header st) ++ st.indent, "get \x7b\n".toList ++ behind,
      by simp [Style.line]⟩
  unfold printAll
  cases as with
  | nil => exact absurd rfl h
  | cons a as =>
    cases as with
    | nil => exact hone a
    | cons b as =>
      rw [List.map_cons, List.map_cons, Text.joinWith_cons_cons, List.append_assoc]
      exact (hone a).trans (List.prefix_append _ _).isInfix

end Accessor

theorem Layout.infix_surround (l : Layout) (block : Text) : block <:+: l.surround block :=
  ⟨_, _, rfl⟩

namespace Enumeration

theorem unit_infix_insertion {o : Options} {src : Text} {e : Enumeration} {i : Insertion}
    (h : e.insertion? o src = some i) : o.unit <:+: i.text := by
  have hplain : '\n' ∉ o.unit := fun hmem => absurd (o.isIndent_of_mem_unit _ hmem) (by decide)
  unfold insertion? at h
  dsimp only at h
  split at h
  · next hchanged =>
    have haccessors : e.decl.complete.1.accessors ≠ [] := by
      rw [Decl.accessors_complete]
      simp [Decl.complete_snd_iff.1 hchanged]
    obtain rfl := Option.some.inj h
    refine Text.infix_withNewline hplain (List.IsInfix.trans ?_ (Layout.infix_surround _ _)) _
    exact Accessor.unit_infix_printAll ⟨_, o.unit, _⟩ haccessors
  · cases h

theorem isSome_insertion? (o : Options) (src : Text) (e : Enumeration) :
    (e.insertion? o src).isSome = e.decl.complete.2 := by
  unfold insertion?
  dsimp only
  split
  · next h => exact h.symm
  · next h => simpa using h

end Enumeration

namespace Insertion

theorem exists_infix_of_carryOutAll? {is : List Insertion} (his : is ≠ []) {src output : Text}
    (h : carryOutAll? is src = some output) : ∃ i ∈ is, i.text <:+: output := by
  have hperm := latestFirst_perm is
  obtain hnil | ⟨front, i, heq⟩ := List.eq_nil_or_concat (latestFirst is)
  · rw [hnil] at hperm
    exact absurd hperm.symm.eq_nil his
  · rw [List.concat_eq_append] at heq
    rw [carryOutAll?, heq, List.foldlM_append] at h
    obtain ⟨s, -, h⟩ := Option.bind_eq_some_iff.1 h
    rw [List.foldlM_cons] at h
    obtain ⟨s', hlast, h⟩ := Option.bind_eq_some_iff.1 h
    obtain rfl := Option.some.inj h
    obtain ⟨⟨before, rest⟩, -, hlast⟩ := Option.bind_eq_some_iff.1 hlast
    obtain ⟨⟨dropped, after⟩, -, hlast⟩ := Option.bind_eq_some_iff.1 hlast
    obtain rfl := Option.some.inj hlast
    exact ⟨i, hperm.mem_iff.1 (by simp [heq]), before, after, rfl⟩

end Insertion

section Bounded

variable {o : Options} {src output : Text} {enums : List Enumeration} {c : Completion}

/-- An output with new accessors is no shorter than one level of nesting. -/
theorem indentWidth_le_of_any
    (hout : Insertion.carryOutAll? (enums.filterMap (·.insertion? o src)) src = some output)
    (hany : enums.any (·.decl.complete.2) = true) : o.indentWidth ≤ Text.byteSize output := by
  obtain ⟨e, he, hchanged⟩ := List.any_eq_true.1 hany
  rw [← e.isSome_insertion? o src, Option.isSome_iff_exists] at hchanged
  obtain ⟨i, hi⟩ := hchanged
  obtain ⟨j, hj, hinfix⟩ := Insertion.exists_infix_of_carryOutAll?
    (List.ne_nil_of_mem (List.mem_filterMap.2 ⟨e, he, hi⟩)) hout
  obtain ⟨e', -, hj⟩ := List.mem_filterMap.1 hj
  have hunit : Text.byteSize o.unit = o.indentWidth := Text.byteSize_replicate o.indentWidth
  exact hunit ▸ Text.byteSize_le_of_infix ((Enumeration.unit_infix_insertion hj).trans hinfix)

theorem completeBounded_of_source_error {e : SourceError} (h : readEnumerations src = .error e) :
    completeBounded o src = .error (.source e) := by
  rw [completeBounded, h]
  rfl

/-- With room for any output a text turns into one that may still have too many bytes. -/
theorem completeBounded_eq (h : complete o src = .ok c) :
    completeBounded o src =
      if Text.byteSize c.output ≤ Text.maxSize then .ok c else .error (.panic .capacity) := by
  obtain ⟨enums, hread, hout, hchanges⟩ := exists_of_complete h
  have henums : completeEnums o src enums = .ok c := by
    rw [completeEnums, hout, ← hchanges]
  have hwidth := indentWidth_le_of_any hout
  rw [completeBounded, hread]
  change (if enums.any (·.decl.complete.2) ∧
    Text.maxSize < o.indentWidth then .error (.panic .capacity)
    else completeEnums o src enums >>= fun c =>
      if Text.byteSize c.output ≤ Text.maxSize then .ok c else .error (.panic .capacity)) = _
  rw [henums]
  split
  · next hwide =>
    rw [if_neg fun hroom => ?_]
    have := hwidth hwide.1
    omega
  · rfl

theorem complete_of_completeBounded (h : completeBounded o src = .ok c) :
    complete o src = .ok c ∧ Text.byteSize c.output ≤ Text.maxSize := by
  obtain ⟨enums, hread, h⟩ := exists_of_bind_eq_ok h
  split at h
  · cases h
  · obtain ⟨c', hc, h⟩ := exists_of_bind_eq_ok h
    split at h
    · next hroom =>
      obtain rfl := Except.ok.inj h
      refine ⟨?_, hroom⟩
      rw [complete, hread]
      exact hc
    · cases h

end Bounded

end CaseAccessors
