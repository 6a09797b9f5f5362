import CaseAccessors.Proofs.Part

/-! Printing and reading agree. Accessors that are printed into an enum are read back as its
members, under their names and in their order, and as nothing else. -/
namespace CaseAccessors

open Piece

structure CaseExpr where
  name : Text
  fields : List FieldExpr
  plain : isPlainName name = true

def CaseExpr.case (c : CaseExpr) : Case := ⟨c.name, c.fields.map FieldExpr.field⟩

def Decl.accessorsFor (d : Decl) (cs : List (CaseExpr × Option Access)) : List Accessor :=
  cs.filterMap fun (c, access) => (d.accessorFor? c.case).map fun a => { a with access }

def Accessor.IsOfCase (a : Accessor) : Prop :=
  ∃ (c : CaseExpr) (access : Option Access),
    a = { Accessor.ofCase c.name (c.fields.map FieldExpr.field) with access }

theorem Accessor.exists_words_of_isOfCase {st : Style} (hst : st.IsBlank) {as : List Accessor}
    (has : ∀ a ∈ as, a.IsOfCase) :
    ∃ wss : List (List Word), Spells (printAll st as) wss.flatten ∧
      List.Forall₂ IsProperty wss (as.map name) := by
  apply exists_printAll_words
  intro a ha
  obtain ⟨c, access, rfl⟩ := has a ha
  exact exists_print hst c.plain c.fields access

theorem Decl.isOfCase_of_mem_accessorsFor {d : Decl} {cs : List (CaseExpr × Option Access)}
    {a : Accessor} (h : a ∈ d.accessorsFor cs) : a.IsOfCase := by
  obtain ⟨⟨c, access⟩, -, h⟩ := List.mem_filterMap.1 h
  obtain ⟨a', ha', rfl⟩ := Option.map_eq_some_iff.1 h
  unfold accessorFor? at ha'
  split at ha'
  · cases ha'
  · cases ha'
    exact ⟨c, access, rfl⟩

theorem Decl.map_name_accessorsFor {d : Decl} (hd : d.members = [])
    (cs : List (CaseExpr × Option Access)) :
    (d.accessorsFor cs).map Accessor.name = cs.map fun c => c.1.name := by
  unfold accessorsFor
  induction cs with
  | nil => rfl
  | cons c cs ih =>
    have hfirst :
        d.accessorFor? c.1.case = some (.ofCase c.1.name (c.1.fields.map FieldExpr.field)) := by
      simp [accessorFor?, hasMember, hd, CaseExpr.case]
    simp only [List.filterMap_cons, hfirst, Option.map_some, List.map_cons, ih]
    rfl

/-- The accessors of cases, printed into an enum, are read as its members under the names of the
cases, and as no case or enum. -/
theorem readEnumerations_printAll {d : Decl} (hd : d.members = [])
    (cs : List (CaseExpr × Option Access)) {st : Style} (hst : st.IsBlank) :
    ∃ e, readEnumerations ("enum E \x7b\n".toList ++ Accessor.printAll st (d.accessorsFor cs) ++
      ['\x7d']) = .ok [e] ∧ e.decl.cases = [] ∧
      e.decl.members.map Member.name = (d.accessorsFor cs).map Accessor.name ∧
      (d.accessorsFor cs).map Accessor.name = cs.map fun c => c.1.name := by
  have hcases : ∀ a ∈ d.accessorsFor cs, a.IsOfCase := fun a ha =>
    Decl.isOfCase_of_mem_accessorsFor ha
  obtain ⟨wss, hwss, hproperties⟩ := Accessor.exists_words_of_isOfCase hst hcases
  obtain ⟨ps, hps, hpart⟩ := Part.of_properties hwss (Accessor.getLast?_printAll st _) hproperties
  have hspells : Spells "enum E \x7b\n".toList
      [(.ident, "enum".toList), (.ident, ['E']), sign '\x7b'] := .fixed (by decide)
  obtain ⟨header, hheader, hwords, hreads⟩ := hspells.exists_pieces_of_newline fun _ hc =>
    (Option.some.inj hc).symm
  have hisHeader : IsHeader (header.filterMap word?) ['E'] := by
    rw [hwords]
    exact .mk (.inl rfl) (by decide)
  obtain ⟨es, hes, hfound⟩ := (hpart.enum hreads hisHeader 0).readEnumerations
  rw [textOf_append, textOf_append, hheader, hps, textOf_indentedBrace, ← List.append_assoc] at hes
  cases hfound with
  | @cons r e _ es hof hrest =>
    cases hrest
    refine ⟨e, hes, hof.cases, ?_, Decl.map_name_accessorsFor hd cs⟩
    rw [hof.members, List.map_map]
    exact List.map_id _

/-- A case that is named and labelled by keywords. -/
theorem readEnumerations_printAll_enum :
    ∃ e,
      readEnumerations ("enum E \x7b\n".toList ++ Accessor.printAll ⟨"\t".toList, "  ".toList, true⟩
      (Decl.accessorsFor ⟨['E'], none, [], []⟩
        [(⟨"enum".toList, [⟨some ⟨"case".toList, by decide⟩, .named ⟨"Int".toList, by decide⟩⟩,
          ⟨none, .optional (.array (.named ⟨"String".toList, by decide⟩))⟩], by decide⟩,
            some .publicAccess)]) ++ ['\x7d']) = .ok [e] ∧
      e.decl.cases = [] ∧ e.decl.members.map Member.name = ["enum".toList] := by
  obtain ⟨e, he, hcases, hmembers, hnames⟩ := @readEnumerations_printAll ⟨['E'], none, [], []⟩ rfl
    [(⟨"enum".toList, [⟨some ⟨"case".toList, by decide⟩, .named ⟨"Int".toList, by decide⟩⟩,
      ⟨none, .optional (.array (.named ⟨"String".toList, by decide⟩))⟩], by decide⟩,
        some .publicAccess)] ⟨"\t".toList, "  ".toList, true⟩ ⟨by simp [Text.isIndent], by
          simp [Text.isIndent]⟩
  exact ⟨e, he, hcases, hmembers.trans hnames⟩

end CaseAccessors
