import CaseAccessors.Completion
import Mathlib.Data.List.Nodup

/-! Insertions at places of a text that follow each other. Carried out in whatever order they are
listed, they give the text with every one of them in its place. -/
namespace CaseAccessors

/-- A step through a text: a stretch that stays, or one that gives way to another text. -/
inductive Edit where
  | keep (s : Text)
  | replace (dropped inserted : Text)
  deriving DecidableEq, Repr

namespace Edit

def source : List Edit → Text
  | [] => []
  | .keep s :: es => s ++ source es
  | .replace dropped _ :: es => dropped ++ source es

def target : List Edit → Text
  | [] => []
  | .keep s :: es => s ++ target es
  | .replace _ inserted :: es => inserted ++ target es

/-- The insertions that turn the source into the target, where the source begins at an offset. -/
def insertions (offset : Nat) : List Edit → List Insertion
  | [] => []
  | .keep s :: es => insertions (offset + Text.byteSize s) es
  | .replace dropped inserted :: es =>
    let stop := offset + Text.byteSize dropped
    ⟨offset, stop, inserted⟩ :: insertions stop es

theorem source_append (es fs : List Edit) : source (es ++ fs) = source es ++ source fs := by
  induction es with
  | nil => rfl
  | cons e es ih => cases e <;> simp [source, ih]

theorem target_append (es fs : List Edit) : target (es ++ fs) = target es ++ target fs := by
  induction es with
  | nil => rfl
  | cons e es ih => cases e <;> simp [target, ih]

theorem insertions_append (offset : Nat) (es fs : List Edit) :
    insertions offset (es ++ fs) =
      insertions offset es ++ insertions (offset + Text.byteSize (source es)) fs := by
  induction es generalizing offset with
  | nil => rfl
  | cons e es ih =>
    cases e with
    | keep s => simp [insertions, source, ih, Nat.add_assoc]
    | replace dropped inserted => simp [insertions, source, ih, Nat.add_assoc]

end Edit

namespace Insertion

theorem carryOut?_append (before dropped after text : Text) :
    carryOut? ⟨Text.byteSize before, Text.byteSize before + Text.byteSize dropped, text⟩
      (before ++ (dropped ++ after)) = some (before ++ text ++ after) := by
  simp only [carryOut?, Text.cutAt?_byteSize, Nat.add_sub_cancel_left, Option.bind_eq_bind,
    Option.bind_some]
  rfl

/-- Carried out from the last to the first, insertions do not move each other's places. -/
theorem carryOut_insertions (before : Text) (es : List Edit) :
    (Edit.insertions (Text.byteSize before) es).reverse.foldlM (fun s i => i.carryOut? s)
      (before ++ Edit.source es) = some (before ++ Edit.target es) := by
  induction es generalizing before with
  | nil => rfl
  | cons e es ih =>
    cases e with
    | keep s =>
      have hlater := ih (before ++ s)
      rwa [Text.byteSize_append, List.append_assoc, List.append_assoc] at hlater
    | replace dropped inserted =>
      have hlater := ih (before ++ dropped)
      have hfirst := carryOut?_append before dropped (Edit.target es) inserted
      rw [Text.byteSize_append, List.append_assoc, List.append_assoc] at hlater
      rw [Edit.insertions, List.reverse_cons, List.foldlM_append, Edit.source, hlater,
        Option.bind_eq_bind, Option.bind_some, List.foldlM_cons, hfirst]
      simp [Edit.target]

theorem insertByStart_perm (i : Insertion) (is : List Insertion) :
    (insertByStart i is).Perm (i :: is) := by
  induction is with
  | nil => exact .refl _
  | cons j is ih =>
    unfold insertByStart
    split
    · exact .refl _
    · exact (ih.cons j).trans (.swap i j is)

theorem latestFirst_perm (is : List Insertion) : (latestFirst is).Perm is := by
  induction is with
  | nil => exact .refl _
  | cons i is ih => exact (insertByStart_perm i _).trans (ih.cons i)

theorem pairwise_insertByStart (i : Insertion) {is : List Insertion}
    (h : is.Pairwise fun i j => j.start ≤ i.start) :
    (insertByStart i is).Pairwise fun i j => j.start ≤ i.start := by
  induction is with
  | nil => exact List.pairwise_singleton _ i
  | cons j is ih =>
    obtain ⟨hj, his⟩ := List.pairwise_cons.1 h
    unfold insertByStart
    split
    · next hij =>
      refine List.pairwise_cons.2 ⟨?_, h⟩
      rintro k (_ | ⟨_, hk⟩)
      · exact hij
      · exact Nat.le_trans (hj k hk) hij
    · next hij =>
      refine List.pairwise_cons.2 ⟨fun k hk => ?_, ih his⟩
      obtain rfl | hk := List.mem_cons.1 ((insertByStart_perm i is).mem_iff.1 hk)
      · omega
      · exact hj k hk

theorem pairwise_latestFirst (is : List Insertion) :
    (latestFirst is).Pairwise fun i j => j.start ≤ i.start := by
  induction is with
  | nil => exact .nil
  | cons i is ih => exact pairwise_insertByStart i ih

theorem latestFirst_eq {is js : List Insertion} (hperm : is.Perm js)
    (hjs : js.Pairwise fun i j => i.start < j.start) : latestFirst is = js.reverse := by
  have hp : (latestFirst is).Perm js.reverse :=
    (latestFirst_perm is).trans (hperm.trans js.reverse_perm.symm)
  have hrev : js.reverse.Pairwise fun i j => j.start ≤ i.start := by
    rw [List.pairwise_reverse]
    exact hjs.imp Nat.le_of_lt
  have hnodup : (js.map start).Nodup := List.pairwise_map.2 (hjs.imp Nat.ne_of_lt)
  apply hp.eq_of_pairwise _ (pairwise_latestFirst is) hrev
  intro i j hi hj hij hji
  exact List.inj_on_of_nodup_map hnodup (by simpa using hp.mem_iff.1 hi) (by simpa using hj)
    (Nat.le_antisymm hji hij)

/-- Insertions give the target in whatever order they are listed, if no two of them share a place.
-/
theorem carryOutAll?_eq {is : List Insertion} {es : List Edit}
    (hperm : is.Perm (Edit.insertions 0 es))
    (hsorted : (Edit.insertions 0 es).Pairwise fun i j => i.start < j.start) :
    carryOutAll? is (Edit.source es) = some (Edit.target es) := by
  rw [carryOutAll?, latestFirst_eq hperm hsorted]
  exact carryOut_insertions [] es

end Insertion

end CaseAccessors
