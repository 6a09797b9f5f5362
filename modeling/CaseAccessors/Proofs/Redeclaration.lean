import CaseAccessors.Proofs.Evaluation
import CaseAccessors.Proofs.Hunk

/-! Names that completing declares in a body. None of them is the name of a member. Two of them are
equal just where two cases have the name, and reading finds such cases in a valid source, since it
goes through all branches of a conditional compilation. -/
namespace CaseAccessors

namespace Enumeration

def memberNames (e : Enumeration) : List Text := e.decl.members.map Member.name

def caseNames (e : Enumeration) : List Text := e.decl.cases.map Case.name

/-- The accessors that are added declare no name a second time. -/
structure NoRedeclaration (e : Enumeration) : Prop where
  nodup : e.change.added.Nodup
  fresh : ∀ n ∈ e.change.added, n ∉ e.memberNames

theorem added_eq_filter {e : Enumeration} (h : e.decl.accessors = []) :
    e.change.added = e.caseNames.filter fun n => n ∉ e.memberNames := by
  simp only [added_eq h, Decl.map_name_missing, Decl.not_hasMember]
  rfl

end Enumeration

namespace Layout

theorem isSpace_of_mem_surround (o : Options) (memberIndent : Option Text)
    {declIndent before : Text} (h : ∀ c ∈ declIndent, Text.isIndent c = true) :
    ∀ c ∈ (ofBefore o memberIndent declIndent before).lead ++
      (ofBefore o memberIndent declIndent before).trail, isSpace c = true := by
  unfold ofBefore
  dsimp only
  split
  · split <;> simp [isSpace]
  · intro c hc
    simp only [List.cons_append, List.nil_append, List.mem_cons] at hc
    obtain rfl | rfl | hc := hc
    · rfl
    · rfl
    · exact Text.isSpace_of_isIndent (h c hc)

end Layout

open Enumeration in
/-- What is inserted for an enum are accessors under the names of the cases that no member has. So
no name is declared again unless two of these cases have it. -/
theorem noRedeclaration_iff {src : Text} {enums : List Enumeration}
    (h : readEnumerations src = .ok enums) {e : Enumeration} (he : e ∈ enums) :
    (e.NoRedeclaration ↔ (e.caseNames.filter fun n => n ∉ e.memberNames).Nodup) ∧
      (∀ n ∈ e.change.added, n ∉ e.memberNames) ∧
      ∀ o, (e.insertion? o src = none ↔ e.change.added = []) ∧
        ∀ i, e.insertion? o src = some i → ∃ style lead trail newline added,
          i.text = (lead ++ Accessor.printAll style added ++ trail).withNewline newline ∧
            (∀ c ∈ lead ++ trail, isSpace c = true) ∧ added.map Accessor.name = e.change.added := by
  obtain ⟨ps, rfl, hps, hbalanced, hread⟩ := exists_of_readEnumerations h
  obtain ⟨s, hs, hes⟩ := hread e he
  obtain ⟨haccessors, hindent⟩ := Site.accessors_and_indent_of_enumeration hes
  obtain ⟨as, bs, rfl, -, hclose⟩ := exists_closingBrace hps hbalanced hs hes
  have hadded := added_eq_filter haccessors
  have hfresh : ∀ n ∈ e.change.added, n ∉ e.memberNames := fun n hn => by
    rw [hadded, List.mem_filter, decide_eq_true_eq] at hn
    exact hn.2
  refine ⟨⟨fun hno => hadded ▸ hno.nodup, fun hnodup => ⟨hadded ▸ hnodup, hfresh⟩⟩, hfresh,
    fun o => ⟨?_, ?_⟩⟩
  · rw [insertion?_eq_none_iff, added_eq haccessors, List.map_eq_nil_iff]
  · intro i hi
    rw [Piece.textOf_append, insertion?_eq_some_iff hclose, haccessors] at hi
    obtain ⟨-, layout, newline, hlayout, -, rfl⟩ := hi
    refine ⟨_, layout.lead, layout.trail, newline, e.decl.missing, rfl, ?_,
      (added_eq haccessors).symm⟩
    rw [hlayout]
    exact Layout.isSpace_of_mem_surround o e.memberIndent hindent

theorem noRedeclaration_iff_property :
    ∃ e, readEnumerations "enum E \x7b case a, b; var b: Int \x7b 0 \x7d \x7d".toList = .ok [e] ∧
      e.caseNames = ["a".toList, "b".toList] ∧ e.memberNames = ["b".toList] ∧
          e.NoRedeclaration := by
  have hread :
      (readEnumerations "enum E \x7b case a, b; var b: Int \x7b 0 \x7d \x7d".toList).toOption.map
        (·.map fun e => (e.caseNames, e.memberNames)) =
          some [(["a".toList, "b".toList], ["b".toList])] := by decide +kernel
  obtain ⟨enums, henums, hnames⟩ := Option.map_eq_some_iff.1 hread
  obtain ⟨e, rfl, he⟩ := List.map_eq_singleton_iff.1 hnames
  obtain ⟨hcases, hmembers⟩ := Prod.mk.inj he
  refine ⟨e, eq_ok_of_toOption henums, hcases, hmembers, ?_⟩
  rw [(noRedeclaration_iff (eq_ok_of_toOption henums) List.mem_cons_self).1, hcases, hmembers]
  decide

/-- Only one of the cases exists in any build, but both get an accessor. -/
theorem redeclaration_of_alternatives :
    ∃ e, readEnumerations ("enum Level: Int \x7b\n#if DEBUG\n    case low = 10\n" ++
      "#else\n    case low = 1\n#endif\n\x7d\n").toList = .ok [e] ∧
      e.change.added = ["low".toList, "low".toList] ∧ ¬e.NoRedeclaration := by
  have hread : (readEnumerations ("enum Level: Int \x7b\n#if DEBUG\n    case low = 10\n" ++
      "#else\n    case low = 1\n#endif\n\x7d\n").toList).toOption.map (·.map fun e =>
        e.change.added) =
        some [["low".toList, "low".toList]] := by decide +kernel
  obtain ⟨enums, henums, hadded⟩ := Option.map_eq_some_iff.1 hread
  obtain ⟨e, rfl, he⟩ := List.map_eq_singleton_iff.1 hadded
  refine ⟨e, eq_ok_of_toOption henums, he, fun hno => ?_⟩
  have hnodup := hno.nodup
  rw [he] at hnodup
  exact absurd hnodup (by decide)

end CaseAccessors
