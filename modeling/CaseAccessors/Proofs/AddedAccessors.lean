import CaseAccessors.Proofs.Evaluation
import Mathlib.Logic.Function.Iterate

/-! What completing a declaration adds to it: one accessor for each case whose name no member has,
in the order of the cases. A completed declaration lacks nothing, so completing it again, however
often, changes nothing. -/
namespace CaseAccessors

/-- How an accessor presents some fields: its shape, and the type that its own is an optional of. -/
inductive Shape.Presents : List Field → Shape → Text → Prop where
  | unit : Presents [] .unit "Void".toList
  | single (f : Field) : Presents [f] (.single f) f.type
  | tuple {fields : List Field} : 2 ≤ fields.length → Presents fields (.tuple fields)
      ('(' :: (Text.joinWith ", ".toList (fields.map fun f => labelled f.label f.type) ++ [')']))

theorem Shape.presents_ofFields (fields : List Field) :
    Presents fields (ofFields fields) (ofFields fields).valueType := by
  match fields with
  | [] => exact .unit
  | [f] => exact .single f
  | f :: f' :: fields => exact .tuple (by simp)

/-- The accessor that a case asks for in a declaration with an access level. -/
structure Accessor.AnswersTo (a : Accessor) (c : Case) (level : Option Access) : Prop where
  name_eq : a.name = c.name
  settable : a.setter.isSome = true
  presents : a.shape.Presents c.fields a.valueType
  access_eq : a.access =
    if level = some .openAccess ∨ level = some .publicAccess then some .publicAccess
    else if level = some .packageAccess then some .packageAccess
    else none

theorem Case.accessor_answersTo (c : Case) (level : Option Access) :
    (c.accessor (level.bind Access.forMembers)).AnswersTo c level where
  name_eq := rfl
  settable := rfl
  presents := Shape.presents_ofFields c.fields
  access_eq := by
    cases level with
    | none => rfl
    | some level => cases level <;> rfl

namespace Decl

variable {d : Decl}

theorem forall₂_missing (d : Decl) :
    List.Forall₂ (fun c a => Accessor.AnswersTo a c d.access)
      (d.cases.filter fun c => c.name ∉ d.members.map Member.name) d.missing := by
  simp only [missing_eq, ← not_hasMember, List.forall₂_map_right_iff]
  exact List.forall₂_same.2 fun c _ => c.accessor_answersTo d.access

theorem hasMember_complete {c : Case} (hc : c ∈ d.cases) :
    d.complete.1.hasMember c.name = true := by
  rw [hasMember_iff, complete, List.map_append, List.mem_append]
  by_cases hmember : d.hasMember c.name = true
  · exact .inl (hasMember_iff.1 hmember)
  · have hmissing : c.accessor (d.access.bind Access.forMembers) ∈ d.missing :=
      mem_missing.2 ⟨c, hc, by simpa using hmember, rfl⟩
    exact .inr (List.mem_map.2 ⟨_, List.mem_map_of_mem hmissing, rfl⟩)

theorem missing_complete (d : Decl) : d.complete.1.missing = [] := by
  rw [missing_eq, List.map_eq_nil_iff, List.filter_eq_nil_iff]
  intro c (hc : c ∈ d.cases)
  simp [hasMember_complete hc]

theorem complete_of_missing_eq_nil (h : d.missing = []) : d.complete = (d, false) := by
  rw [complete, h]
  simp

theorem complete_complete (d : Decl) : d.complete.1.complete = (d.complete.1, false) :=
  complete_of_missing_eq_nil (missing_complete d)

/-- Completing adds just the accessors that are missing, and a second time none. -/
theorem complete_exact (d : Decl) :
    d.complete.1.name = d.name ∧ d.complete.1.access = d.access ∧ d.complete.1.cases = d.cases ∧
      (∃ added, d.complete.1.members = d.members ++ added.map .accessor ∧
        List.Forall₂ (fun c a => Accessor.AnswersTo a c d.access)
          (d.cases.filter fun c => c.name ∉ d.members.map Member.name) added ∧
        (d.complete.2 = true ↔ added ≠ [])) ∧
      ∀ n, (fun r : Decl × Bool => r.1.complete)^[n + 1] d.complete = (d.complete.1, false) := by
  refine ⟨rfl, rfl, rfl, ⟨d.missing, rfl, forall₂_missing d, by simp [complete]⟩, fun n => ?_⟩
  rw [Function.iterate_succ_apply, complete_complete]
  exact Function.iterate_fixed (complete_complete d) n

end Decl

end CaseAccessors
