import CaseAccessors.Proofs.EnumTree
import CaseAccessors.Proofs.Splice

/-! Trees of enums with accessors behind their items. Accessors add to the members of an enum and
change nothing else, and they can be inserted at the places of the closing braces. -/
namespace CaseAccessors

open Piece

/-- Accessors as they are inserted. -/
structure Block where
  text : Text
  names : List Text
  getLast?_text : ∀ c ∈ text.getLast?, c = '\n'
  spells : ∃ wss, Spells text wss.flatten ∧ List.Forall₂ IsProperty wss names

namespace Block

def textOf? (b : Option Block) : Text := b.elim [] Block.text

def namesOf? (b : Option Block) : List Text := b.elim [] Block.names

theorem exists_part (b : Option Block) :
    ∃ ps, textOf ps = textOf? b ∧ Part ps (namesOf? b) [] fun _ => [] := by
  cases b with
  | none => exact ⟨[], rfl, .nil⟩
  | some b =>
    obtain ⟨wss, hwss, hproperties⟩ := b.spells
    exact Part.of_properties hwss b.getLast?_text hproperties

def edits (b : Option Block) : List Edit := b.elim [] fun b => [.replace [] b.text]

theorem source_edits (b : Option Block) : Edit.source (edits b) = [] := by
  cases b <;> rfl

theorem target_edits (b : Option Block) : Edit.target (edits b) = textOf? b := by
  cases b with
  | none => rfl
  | some b => exact List.append_nil b.text

theorem insertions_edits (b : Option Block) (offset : Nat) :
    Edit.insertions offset (edits b) = (b.map fun b => ⟨offset, offset, b.text⟩).toList := by
  cases b <;> rfl

theorem start_of_mem {b : Option Block} {offset : Nat} {i : Insertion}
    (h : i ∈ (b.map fun b => (⟨offset, offset, b.text⟩ : Insertion)).toList) :
    i.start = offset := by
  cases b with
  | none => cases h
  | some b => rw [List.mem_singleton.1 h]

end Block

/-- What stands behind the items of each enum. -/
inductive Filling : EnumItems → Type where
  | done : Filling .done
  | case (c : CaseLine) {rest : EnumItems} (f : Filling rest) : Filling (.case c rest)
  | property (name : PlainName) (type : TypeExpr) {rest : EnumItems} (f : Filling rest) :
      Filling (.property name type rest)
  | enum (access : Option Access) (name : PlainName) {items rest : EnumItems}
    (inner : Filling items)
      (block : Option Block) (f : Filling rest) : Filling (.enum access name items rest)

theorem byteSize_closingLine (depth : Nat) : Text.byteSize (lineAt depth ['\x7d']) = depth + 2 := by
  have hnewline : Text.byteSize ['\n'] = 1 := rfl
  rw [lineAt, ← textOf_indentedBrace, Text.byteSize_append, byteSize_indentedBrace, hnewline]

namespace Filling

def text (depth : Nat) : {items : EnumItems} → Filling items → Text
  | _, done => []
  | _, case c f => lineAt depth c.text ++ f.text depth
  | _, property name type f => lineAt depth (propertyText name type) ++ f.text depth
  | _, enum access name inner block f =>
    lineAt depth (enumHeader access name) ++ (inner.text (depth + 4) ++ Block.textOf? block) ++
      lineAt depth ['}'] ++ f.text depth

/-- What is read of the enums if the text begins at an offset. -/
def found (depth offset : Nat) : {items : EnumItems} → Filling items → List Finding
  | _, done => []
  | _, case c f => f.found depth (offset + Text.byteSize (lineAt depth c.text))
  | _, property name type f =>
    f.found depth (offset + Text.byteSize (lineAt depth (propertyText name type)))
  | .enum _ _ items _, enum access name inner block f =>
    let start := offset + Text.byteSize (lineAt depth (enumHeader access name))
    let close := start + Text.byteSize (inner.text (depth + 4) ++ Block.textOf? block) + depth
    ⟨name.1, ⟨items.memberNames ++ Block.namesOf? block, items.cases⟩, close⟩ ::
      (inner.found (depth + 4) start ++ f.found depth (close + 2))

theorem exists_part {items : EnumItems} (f : Filling items) (depth : Nat) :
    ∃ ps, textOf ps = f.text depth ∧ Part ps items.memberNames items.cases fun offset =>
      f.found depth offset := by
  induction f generalizing depth with
  | done => exact ⟨[], rfl, .nil⟩
  | case c f ih =>
    obtain ⟨ps, hps, hpart⟩ := c.exists_part depth
    obtain ⟨qs, hqs, hrest⟩ := ih depth
    refine ⟨ps ++ qs, by rw [textOf_append, hps, hqs, text], ?_⟩
    have hall := hpart.append hrest
    rw [hps] at hall
    exact hall
  | property name type f ih =>
    obtain ⟨ps, hps, hpart⟩ := exists_part_property name type depth
    obtain ⟨qs, hqs, hrest⟩ := ih depth
    refine ⟨ps ++ qs, by rw [textOf_append, hps, hqs, text], ?_⟩
    have hall := hpart.append hrest
    rw [hps] at hall
    exact hall
  | enum access name inner block f ihInner ih =>
    obtain ⟨header, hheader, hreads, hisHeader⟩ := exists_header access name depth
    obtain ⟨is, his, hinner⟩ := ihInner (depth + 4)
    obtain ⟨bs, hbs, hblock⟩ := Block.exists_part block
    obtain ⟨qs, hqs, hrest⟩ := ih depth
    have henum :=
      (((hinner.append hblock).enum hreads hisHeader depth).append .newline).append hrest
    refine ⟨header ++ ((is ++ bs) ++ indentedBrace depth) ++ [.blank '\n'] ++ qs, ?_, ?_⟩
    · simp only [textOf_append, hheader, his, hbs, hqs, textOf_indentedBrace, text, lineAt,
        List.append_assoc]
      rfl
    · have hclose : ∀ offset,
        offset + Text.byteSize (textOf (header ++ ((is ++ bs) ++ indentedBrace depth) ++
          [.blank '\n'])) =
            offset + Text.byteSize (textOf header) + Text.byteSize (textOf (is ++ bs)) +
            depth + 2 := by
        intro offset
        have hnewline : Text.byteSize (textOf [.blank '\n']) = 1 := rfl
        simp only [textOf_append, Text.byteSize_append, byteSize_indentedBrace, hnewline]
        omega
      simp only [hclose, unquoted_written name.2, List.append_nil, List.nil_append] at henum
      rw [hheader, textOf_append is bs, his, hbs] at henum
      exact henum

def empty : (items : EnumItems) → Filling items
  | .done => done
  | .case c rest => case c (empty rest)
  | .property name type rest => property name type (empty rest)
  | .enum access name items rest => enum access name (empty items) none (empty rest)

theorem text_empty (items : EnumItems) (depth : Nat) :
    (empty items).text depth = items.text depth := by
  induction items generalizing depth with
  | done => rfl
  | case c rest ih => rw [empty, text, ih, EnumItems.text]
  | property name type rest ih => rw [empty, text, ih, EnumItems.text]
  | enum access name items rest ihItems ih =>
    rw [empty, text, ihItems, ih, EnumItems.text, Block.textOf?, Option.elim_none, List.append_nil]

def edits (depth : Nat) : {items : EnumItems} → Filling items → List Edit
  | _, done => []
  | _, case c f => .keep (lineAt depth c.text) :: f.edits depth
  | _, property name type f => .keep (lineAt depth (propertyText name type)) :: f.edits depth
  | _, enum access name inner block f =>
    .keep (lineAt depth (enumHeader access name)) :: (inner.edits (depth + 4) ++
      (Block.edits block ++ .keep (lineAt depth ['\x7d']) :: f.edits depth))

theorem source_edits {items : EnumItems} (f : Filling items) (depth : Nat) :
    Edit.source (f.edits depth) = items.text depth := by
  induction f generalizing depth with
  | done => rfl
  | case c f ih => rw [edits, Edit.source, ih, EnumItems.text]
  | property name type f ih => rw [edits, Edit.source, ih, EnumItems.text]
  | enum access name inner block f ihInner ih =>
    rw [edits, Edit.source, Edit.source_append, Edit.source_append, Block.source_edits, Edit.source,
      ihInner, ih, EnumItems.text, List.nil_append, List.append_assoc, List.append_assoc]

theorem target_edits {items : EnumItems} (f : Filling items) (depth : Nat) :
    Edit.target (f.edits depth) = f.text depth := by
  induction f generalizing depth with
  | done => rfl
  | case c f ih => rw [edits, Edit.target, ih, text]
  | property name type f ih => rw [edits, Edit.target, ih, text]
  | enum access name inner block f ihInner ih =>
    rw [edits, Edit.target, Edit.target_append, Edit.target_append, Block.target_edits, Edit.target,
      ihInner, ih, text]
    simp only [List.append_assoc]

/-- The insertions for an enum: those inside of it, its own one, and those behind it. -/
theorem insertions_enum (access : Option Access) (name : PlainName) {items rest : EnumItems}
    (inner : Filling items) (block : Option Block) (f : Filling rest)
    {depth offset start close : Nat}
    (hstart : offset + Text.byteSize (lineAt depth (enumHeader access name)) = start)
    (hclose : start + Text.byteSize (items.text (depth + 4)) = close) :
    Edit.insertions offset ((enum access name inner block f).edits depth) =
      Edit.insertions start (inner.edits (depth + 4)) ++
        ((block.map fun b => ⟨close, close, b.text⟩).toList ++
          Edit.insertions (close + (depth + 2)) (f.edits depth)) := by
  rw [edits, Edit.insertions, hstart, Edit.insertions_append, source_edits, hclose,
    Edit.insertions_append, Block.insertions_edits, Block.source_edits, Edit.insertions,
    byteSize_closingLine]
  rfl

theorem byteSize_enum (access : Option Access) (name : PlainName) (items rest : EnumItems)
    (depth : Nat) :
    Text.byteSize ((EnumItems.enum access name items rest).text depth) =
      Text.byteSize (lineAt depth (enumHeader access name)) +
        Text.byteSize (items.text (depth + 4)) + (depth + 2) + Text.byteSize (rest.text depth) := by
  rw [EnumItems.text, Text.byteSize_append, Text.byteSize_append, Text.byteSize_append,
    byteSize_closingLine]

theorem start_bounds {items : EnumItems} (f : Filling items) (depth offset : Nat) :
    ∀ i ∈ Edit.insertions offset (f.edits depth), offset ≤ i.start ∧
      i.start < offset + Text.byteSize (items.text depth) := by
  induction f generalizing depth offset with
  | done => simp [edits, Edit.insertions]
  | case c f ih =>
    intro i hi
    have hi := ih depth _ i hi
    rw [EnumItems.text, Text.byteSize_append]
    omega
  | property name type f ih =>
    intro i hi
    have hi := ih depth _ i hi
    rw [EnumItems.text, Text.byteSize_append]
    omega
  | @enum access name items rest inner block f ihInner ih =>
    rw [insertions_enum access name inner block f rfl rfl, byteSize_enum]
    intro i hi
    rcases List.mem_append.1 hi with hi | hi
    · have hi := ihInner _ _ i hi
      omega
    rcases List.mem_append.1 hi with hi | hi
    · have hi := Block.start_of_mem hi
      omega
    · have hi := ih _ _ i hi
      omega

theorem pairwise_start {items : EnumItems} (f : Filling items) (depth offset : Nat) :
    (Edit.insertions offset (f.edits depth)).Pairwise fun i j => i.start < j.start := by
  induction f generalizing depth offset with
  | done => exact .nil
  | case c f ih => exact ih depth _
  | property name type f ih => exact ih depth _
  | @enum access name items rest inner block f ihInner ih =>
    rw [insertions_enum access name inner block f rfl rfl, List.pairwise_append,
      List.pairwise_append]
    refine ⟨ihInner _ _, ⟨?_, ih _ _, ?_⟩, ?_⟩
    · cases block <;> simp
    · intro i hi j hj
      have hi := Block.start_of_mem hi
      have hj := f.start_bounds _ _ j hj
      omega
    · intro i hi j hj
      have hi := inner.start_bounds _ _ i hi
      rcases List.mem_append.1 hj with hj | hj
      · have hj := Block.start_of_mem hj
        omega
      · have hj := f.start_bounds _ _ j hj
        omega

end Filling

end CaseAccessors
