import CaseAccessors.Proofs.TypeExpr

/-! The words of printed accessors: each is a property, in whose type and body reading finds neither
a further binding nor an enum. -/
namespace CaseAccessors

/-- The text spells words that reading passes over. -/
def Harmless (s : Text) : Prop := ∃ ws, Spells s ws ∧ Inert ws

theorem closed_concat {c : Char} (h : isIdentPart c = false) (s : Text) : Closed (s ++ [c]) := by
  intro d hd
  rw [List.getLast?_concat] at hd
  rw [← Option.some.inj hd]
  exact h

def isInert (ws : List Word) : Bool :=
  (checkDelimiters [] (ws.map fun w => ⟨⟨[], w.1, w.2⟩, .start⟩)).isOk &&
    !ws.contains (.ident, "enum".toList)

namespace Inert

theorem of_isInert {ws : List Word} (h : isInert ws = true) : Inert ws := by
  rw [isInert, Bool.and_eq_true, Bool.not_eq_true', List.contains_eq_mem, decide_eq_false_iff_not]
    at h
  obtain ⟨hcheck, hmem⟩ := h
  refine ⟨?_, .of_forall_ne fun w hw he => hmem (he ▸ hw)⟩
  cases hc : checkDelimiters [] (ws.map fun w => ⟨⟨[], w.1, w.2⟩, .start⟩) with
  | error e => rw [hc] at hcheck; cases hcheck
  | ok u =>
    have hbalanced := balanced_of_checkDelimiters hc
    rw [List.map_map] at hbalanced
    exact hbalanced

end Inert

namespace Harmless

theorem nil : Harmless [] := ⟨[], .nil, .nil⟩

theorem of_spell? {s : Text} (h : (spell? [] s).any isInert = true) : Harmless s := by
  obtain ⟨ws, hws, hinert⟩ := (Option.any_eq_true _ _).1 h
  exact ⟨ws, .fixed hws, .of_isInert hinert⟩

theorem append {s t : Text} (hs : Harmless s) (ht : Harmless t) (h : Closed s ∨ Stops t) :
    Harmless (s ++ t) := by
  obtain ⟨ws, hs, hws⟩ := hs
  obtain ⟨us, ht, hus⟩ := ht
  exact ⟨ws ++ us, hs.append ht h, hws.append hus⟩

theorem blank {c : Char} {s : Text} (hc : isSpace c = true) (hs : Harmless s) :
    Harmless (c :: s) := by
  obtain ⟨ws, hs, hws⟩ := hs
  exact ⟨ws, .blank hc hs, hws⟩

theorem append_mark {s t : Text} {c : Char} (hs : Harmless s)
    (hc : isMark c = true ∧ isOpener c = false ∧ isCloser c = false ∧ c ≠ '.') (ht : Harmless t) :
    Harmless (s ++ c :: t) := by
  obtain ⟨ws, hs, hws⟩ := hs
  obtain ⟨us, ht, hus⟩ := ht
  obtain ⟨hmark, hopen, hclose, hpoint⟩ := hc
  exact ⟨ws ++ sign c :: us, hs.append_mark hmark hpoint ht, hws.append (.mark hopen hclose hus)⟩

theorem parens {s : Text} (hs : Harmless s) : Harmless ('(' :: (s ++ [')'])) := by
  obtain ⟨ws, hs, hws⟩ := hs
  exact ⟨sign '(' :: (ws ++ [sign ')']),
    .mark (by decide) (hs.append_mark (by decide) (by decide) .nil),
    .group rfl rfl hws .nil⟩

theorem joinWith {parts : List Text} (h : ∀ s ∈ parts, Harmless s) :
    Harmless (Text.joinWith ", ".toList parts) := by
  induction parts with
  | nil => exact nil
  | cons s parts ih =>
    have hs := h s List.mem_cons_self
    have ih := ih fun t ht => h t (List.mem_cons_of_mem s ht)
    cases parts with
    | nil => exact hs
    | cons t parts =>
      rw [Text.joinWith_cons_cons, List.append_assoc]
      exact hs.append_mark (by decide) (.blank (by decide) ih)

theorem parenthesized {parts : List Text} (h : ∀ s ∈ parts, Harmless s) :
    Harmless (parenthesized parts) := parens (joinWith h)

end Harmless

theorem escaped_ne_enum (n : Text) : ((.ident, escaped n) : Word) ≠ (.ident, "enum".toList) := by
  intro h
  have htext := congrArg Prod.snd h
  simp only [escaped] at htext
  split at htext
  · cases htext
  · next hn =>
    rw [htext] at hn
    exact hn (by decide)

theorem unquoted_of_isPlainName {n : Text} (h : isPlainName n = true) : unquoted n = n := by
  obtain ⟨c, t, rfl, hc⟩ := exists_cons_of_isPlainName h
  unfold unquoted
  split
  · next heq =>
    rw [(List.cons.inj heq).1] at hc
    cases hc
  · rfl

theorem unquoted_ite {n : Text} (h : isPlainName n = true) (c : Prop) [Decidable c] :
    unquoted (if c then '`' :: n ++ ['`'] else n) = n := by
  split
  · simp [unquoted]
  · exact unquoted_of_isPlainName h

theorem unquoted_escaped {n : Text} (h : isPlainName n = true) : unquoted (escaped n) = n :=
  unquoted_ite h _

namespace Spells

theorem ite {n s : Text} {ws : List Word} (hn : isPlainName n = true) (c : Prop) [Decidable c]
    (hs : ∀ c ∈ s.head?, isIdentPart c = false) (h : Spells s ws) :
    Spells ((if c then '`' :: n ++ ['`'] else n) ++ s)
      ((.ident, if c then '`' :: n ++ ['`'] else n) :: ws) := by
  split
  · simpa using Spells.quotedName hn h
  · exact .name hn hs h

theorem escaped {n : Text} (hn : isPlainName n = true) :
    Spells (escaped n) [(.ident, CaseAccessors.escaped n)] := by
  have h := ite hn (keywords.contains n = true) (by simp) .nil
  rwa [List.append_nil] at h

end Spells

namespace Harmless

theorem escaped {n : Text} (hn : isPlainName n = true) : Harmless (escaped n) :=
  ⟨_, .escaped hn, .cons rfl rfl (escaped_ne_enum n) .nil⟩

theorem labelled {label : Option Text} (hlabel : ∀ l ∈ label, isPlainName l = true) {s : Text}
    (hs : Harmless s) : Harmless (labelled label s) := by
  cases label with
  | none => exact hs
  | some l =>
    obtain ⟨ws, hs, hws⟩ := hs
    refine ⟨(.ident, l) :: sign ':' :: ws, ?_, .label (.mark rfl rfl hws)⟩
    rw [CaseAccessors.labelled, List.append_assoc]
    exact .name (hlabel l rfl) (by rintro _ ⟨⟩; rfl) (.mark (by decide) (.blank (by decide) hs))

end Harmless

theorem isPlainName_elementName (index : Nat) : isPlainName (Shape.elementName index) = true := by
  rw [isPlainName, Shape.elementName]
  simp only [List.head?_cons, Option.any_some, List.all_cons, Bool.and_eq_true, List.all_eq_true]
  refine ⟨by decide, by decide, fun c hc => ?_⟩
  have hdigit := Nat.isDigit_of_mem_toDigits (by decide) (by decide) hc
  refine ⟨isIdentPart_of_isDigit hdigit, decide_eq_true ?_⟩
  rw [isDigit_iff] at hdigit
  omega

theorem closed_of_all {s : Text} (h : s.getLast?.all (fun c => !isIdentPart c) = true) :
    Closed s := by
  intro c hc
  rw [Option.mem_def.1 hc] at h
  simpa using h

theorem stops_of_all {s : Text} (h : s.head?.all (fun c => !isIdentPart c && c != '.') = true) :
    Stops s := by
  intro c hc
  rw [Option.mem_def.1 hc] at h
  simpa using h

namespace Style

structure IsBlank (st : Style) : Prop where
  indent : ∀ c ∈ st.indent, Text.isIndent c = true
  unit : ∀ c ∈ st.unit, Text.isIndent c = true

theorem closed_line (st : Style) (level : Nat) (s : Text) : Closed (st.line level s) :=
  closed_concat (by decide) _

theorem spells_line {st : Style} (hst : st.IsBlank) (level : Nat) {s : Text} {ws : List Word}
    (h : Spells s ws) : Spells (st.line level s) ws := by
  have hfront : ∀ c ∈ st.indent ++ (List.replicate level st.unit).flatten, isSpace c = true := by
    intro c hc
    apply Text.isSpace_of_isIndent
    rcases List.mem_append.1 hc with hc | hc
    · exact hst.indent c hc
    · obtain ⟨u, hu, hcu⟩ := List.mem_flatten.1 hc
      rw [List.eq_of_mem_replicate hu] at hcu
      exact hst.unit c hcu
  have hback : Spells (s ++ ['\n']) ws := by
    have hend :=
      h.append (Spells.blank (c := '\n') (by decide) .nil) (.inr (stops_cons (by decide) []))
    rwa [List.append_nil] at hend
  rw [line, List.append_assoc (_ ++ _)]
  exact hback.blanks hfront

theorem spells_line_append {st : Style} (hst : st.IsBlank) (level : Nat) {s t : Text}
    {ws us : List Word} (hs : Spells s ws) (ht : Spells t us) :
    Spells (st.line level s ++ t) (ws ++ us) :=
  (spells_line hst level hs).append ht (.inl (st.closed_line level s))

end Style

theorem closed_append {s t : Text} (ht : t ≠ []) (h : Closed t) : Closed (s ++ t) := by
  intro c hc
  apply h
  rw [List.getLast?_append] at hc
  cases hlast : t.getLast? with
  | none => exact absurd (List.getLast?_eq_none_iff.1 hlast) ht
  | some d => rwa [hlast, Option.some_or] at hc

theorem Style.closed_append_line (st : Style) (s : Text) (level : Nat) (t : Text) :
    Closed (s ++ st.line level t) :=
  closed_append (by simp [line]) (st.closed_line level t)

theorem Getter.closed_print (st : Style) (g : Getter) : Closed (g.print st) :=
  st.closed_append_line _ 2 _

theorem Setter.closed_print (st : Style) (s : Setter) : Closed (s.print st) := by
  unfold Setter.print
  split
  · exact st.closed_append_line _ 2 _
  · exact st.closed_append_line _ 2 _

namespace Harmless

theorem line {st : Style} (hst : st.IsBlank) (level : Nat) {s : Text} (h : Harmless s) :
    Harmless (st.line level s) := by
  obtain ⟨ws, h, hws⟩ := h
  exact ⟨ws, Style.spells_line hst level h, hws⟩

theorem lines {st : Style} (hst : st.IsBlank) (level : Nat) {s t : Text} (hs : Harmless s)
    (ht : Harmless t) : Harmless (st.line level s ++ st.line level t) :=
  (hs.line hst level).append (ht.line hst level) (.inl (st.closed_line level s))

theorem fixed_append {s t : Text} (hs : (spell? [] s).any isInert = true)
    (hclosed : s.getLast?.all (fun c => !isIdentPart c) = true) (ht : Harmless t) :
    Harmless (s ++ t) :=
  (of_spell? hs).append ht (.inl (closed_of_all hclosed))

theorem append_fixed {s t : Text} (hs : Harmless s) (ht : (spell? [] t).any isInert = true)
    (hstops : t.head?.all (fun c => !isIdentPart c && c != '.') = true) : Harmless (s ++ t) :=
  hs.append (of_spell? ht) (.inr (stops_of_all hstops))

theorem append_parenthesized {s : Text} {parts : List Text} (hs : Harmless s)
    (h : ∀ t ∈ parts, Harmless t) : Harmless (s ++ CaseAccessors.parenthesized parts) :=
  hs.append (parenthesized h) (.inr (stops_cons (by decide) _))

theorem pattern {g : Getter} (hname : isPlainName g.caseName = true)
    (hbindings : ∀ b ∈ g.bindings, isPlainName b = true) : Harmless g.pattern := by
  unfold Getter.pattern
  split
  · exact fixed_append (by decide) (by decide) (escaped hname)
  · refine append_parenthesized (fixed_append (by decide) (by decide) (escaped hname)) ?_
    intro t ht
    obtain ⟨b, hb, rfl⟩ := List.mem_map.1 ht
    exact escaped (hbindings b hb)

theorem getter {st : Style} (hst : st.IsBlank) {g : Getter} (hname : isPlainName g.caseName = true)
    (hbindings : ∀ b ∈ g.bindings, isPlainName b = true) (hresult : Harmless g.result.source) :
    Harmless (g.print st) := by
  unfold Getter.print
  apply lines hst 2
  · rw [List.append_assoc]
    exact fixed_append (by decide) (by decide)
      ((pattern hname hbindings).append_fixed (by decide) (by decide))
  · exact fixed_append (by decide) (by decide) hresult

theorem sourceText (s : Source) : Harmless s.text := by
  cases s with
  | whole => exact of_spell? (by decide)
  | element index =>
    apply fixed_append (by decide) (by decide)
    cases hdigits : Nat.toDigits 10 index with
    | nil => exact nil
    | cons c n =>
      have hdigit : ∀ d ∈ c :: n, d.isDigit = true := fun d hd =>
        Nat.isDigit_of_mem_toDigits (by decide) (by decide) (hdigits ▸ hd)
      have h : Spells (c :: (n ++ [])) [(.literal, c :: n)] := .number (hdigit c List.mem_cons_self)
        (fun d hd => hdigit d (List.mem_cons_of_mem c hd)) (by simp [Stops]) .nil
      rw [List.append_nil] at h
      exact ⟨_, h, .cons rfl rfl (by simp) .nil⟩

theorem setter {st : Style} (hst : st.IsBlank) {s : Setter} (hname : isPlainName s.caseName = true)
    (hlabels : ∀ a ∈ s.arguments, ∀ l ∈ a.label, isPlainName l = true) : Harmless (s.print st) := by
  unfold Setter.print
  split
  · exact lines hst 2 (of_spell? (by decide)) (fixed_append (by decide) (by decide) (escaped hname))
  · apply lines hst 2 (of_spell? (by decide))
    refine append_parenthesized (fixed_append (by decide) (by decide) (escaped hname)) ?_
    intro t ht
    obtain ⟨a, ha, rfl⟩ := List.mem_map.1 ht
    exact labelled (hlabels a ha) (sourceText a.source)

end Harmless

/-- The text is a type in whose words reading finds neither an enum nor a further binding. -/
def ReadsAsType (s : Text) : Prop := ∃ ws, Spells s ws ∧ Inert ws ∧ Skips ws

structure FieldExpr where
  label : Option { s : Text // isPlainName s = true }
  type : TypeExpr

def FieldExpr.field (f : FieldExpr) : Field := ⟨f.label.map Subtype.val, f.type.text⟩

theorem FieldExpr.isPlainName_label {fs : List FieldExpr} {field : Field}
    (h : field ∈ fs.map FieldExpr.field) : ∀ l ∈ field.label, isPlainName l = true := by
  obtain ⟨f, -, rfl⟩ := List.mem_map.1 h
  intro l hl
  obtain ⟨m, -, rfl⟩ := Option.map_eq_some_iff.1 hl
  exact m.2

theorem FieldExpr.exists_type {fs : List FieldExpr} {field : Field}
    (h : field ∈ fs.map FieldExpr.field) : ∃ t : TypeExpr, field.type = t.text := by
  obtain ⟨f, -, rfl⟩ := List.mem_map.1 h
  exact ⟨f.type, rfl⟩

namespace ReadsAsType

theorem harmless {s : Text} (h : ReadsAsType s) : Harmless s := by
  obtain ⟨ws, hs, hws, -⟩ := h
  exact ⟨ws, hs, hws⟩

theorem typeExpr (t : TypeExpr) : ReadsAsType t.text := ⟨t.words, t.spells, t.inert, t.skips⟩

theorem parens {s : Text} (h : Harmless s) : ReadsAsType ('(' :: (s ++ [')'])) := by
  obtain ⟨ws, hs, hws⟩ := h
  refine ⟨sign '(' :: (ws ++ [sign ')']), ?_, .group rfl rfl hws .nil, ?_⟩
  · exact .mark (by decide) (hs.append_mark (by decide) (by decide) .nil)
  · exact .group (.inl rfl) rfl hws.balanced .nil

theorem questionMark {s : Text} (h : ReadsAsType s) : ReadsAsType (s ++ ['?']) := by
  obtain ⟨ws, hs, hws, hskips⟩ := h
  refine ⟨ws ++ [sign '?'], hs.append_mark (by decide) (by decide) .nil, ?_, ?_⟩
  · exact hws.append (.mark rfl rfl .nil)
  · exact hskips.append (.sign (by decide) (by decide) (by decide) .nil)

theorem optionalType {s : Text} (h : ReadsAsType s) : ReadsAsType (optionalType s) := by
  unfold CaseAccessors.optionalType
  split
  · have hparens := (parens h.harmless).questionMark
    rwa [List.cons_append, List.append_assoc] at hparens
  · exact h.questionMark

theorem valueType (fs : List FieldExpr) :
    ReadsAsType (Shape.ofFields (fs.map FieldExpr.field)).valueType := by
  match fs with
  | [] => exact typeExpr (.named ⟨"Void".toList, by decide⟩)
  | [f] => exact typeExpr f.type
  | f :: g :: fs =>
    apply parens
    apply Harmless.joinWith
    intro t ht
    obtain ⟨field, hfield, rfl⟩ := List.mem_map.1 ht
    obtain ⟨e, he⟩ := @FieldExpr.exists_type (f :: g :: fs) field hfield
    rw [he]
    exact Harmless.labelled (@FieldExpr.isPlainName_label (f :: g :: fs) field hfield)
      (typeExpr e).harmless

end ReadsAsType

theorem harmless_getter {st : Style} (hst : st.IsBlank) {name : Text}
    (hname : isPlainName name = true) (fs : List FieldExpr) :
    Harmless (((Shape.ofFields (fs.map FieldExpr.field)).getter name).print st) := by
  match fs with
  | [] =>
    apply Harmless.getter hst hname
    · exact fun b hb => absurd hb List.not_mem_nil
    · change Harmless "()".toList
      exact .of_spell? (by decide)
  | [f] =>
    refine Harmless.getter hst hname ?_ (Harmless.escaped (by decide))
    intro b hb
    obtain rfl := List.mem_singleton.1 hb
    decide
  | f :: g :: fs =>
    refine Harmless.getter hst hname ?_ (Harmless.parenthesized ?_)
    · intro b hb
      obtain ⟨index, -, rfl⟩ := List.mem_map.1 hb
      exact isPlainName_elementName index
    · intro t ht
      obtain ⟨⟨label, b⟩, helement, rfl⟩ := List.mem_map.1 ht
      obtain ⟨hlabel, hb⟩ := List.of_mem_zip helement
      obtain ⟨field, hfield, rfl⟩ := List.mem_map.1 hlabel
      obtain ⟨index, -, rfl⟩ := List.mem_map.1 hb
      exact Harmless.labelled (@FieldExpr.isPlainName_label (f :: g :: fs) field hfield)
        (Harmless.escaped (isPlainName_elementName index))

theorem harmless_setter {st : Style} (hst : st.IsBlank) {name : Text}
    (hname : isPlainName name = true) (fs : List FieldExpr) :
    Harmless (((Shape.ofFields (fs.map FieldExpr.field)).setter name).print st) := by
  match fs with
  | [] => exact Harmless.setter hst hname fun a ha => absurd ha List.not_mem_nil
  | [f] =>
    apply Harmless.setter hst hname
    intro a ha
    obtain rfl := List.mem_singleton.1 ha
    exact @FieldExpr.isPlainName_label [f] f.field List.mem_cons_self
  | f :: g :: fs =>
    apply Harmless.setter hst hname
    intro a ha
    obtain ⟨index, hindex, rfl⟩ := List.mem_mapIdx.1 ha
    exact @FieldExpr.isPlainName_label (f :: g :: fs) _ (List.getElem_mem hindex)

def propertyWords (access : List Word) (name : Text) (type inside : List Word) : List Word :=
  access ++ (.ident, "var".toList) :: (.ident, name) ::
    sign ':' :: (type ++ sign '\x7b' :: (inside ++ [sign '\x7d']))

/-- The words are a property with a name, in whose type and body reading finds nothing. -/
inductive IsProperty : List Word → Text → Prop where
  | mk {access type inside : List Word} {name : Text} :
      (access = [] ∨ ∃ a : Access, access = [(.ident, a.keyword)]) → Inert type → Skips type →
      Inert inside → IsProperty (propertyWords access name type inside) (unquoted name)

theorem Access.inert (a : Access) : Inert [(.ident, a.keyword)] := by
  refine .cons rfl rfl ?_ .nil
  cases a <;> decide

theorem IsProperty.inert {ws : List Word} {name : Text} (h : IsProperty ws name) : Inert ws := by
  obtain ⟨haccess, htype, -, hinside⟩ := h
  rename_i access type inside name
  have hfront : Inert access := by
    obtain rfl | ⟨a, rfl⟩ := haccess
    · exact .nil
    · exact a.inert
  exact hfront.append (.cons rfl rfl (by decide) (.label (.mark rfl rfl (htype.append
    (.group rfl rfl hinside .nil)))))

theorem IsProperty.getLast? {ws : List Word} {name : Text} (h : IsProperty ws name) :
    ws.getLast? = some (sign '\x7d') := by
  obtain ⟨-, -, -, -⟩ := h
  simp [propertyWords, List.getLast?_append, List.getLast?_cons]

theorem IsProperty.inert_flatten {wss : List (List Word)} {names : List Text}
    (h : List.Forall₂ IsProperty wss names) : Inert wss.flatten := by
  induction h with
  | nil => exact .nil
  | cons hw _ ih => exact hw.inert.append ih

theorem Spells.append_binding {s n t : Text} {ws type : List Word} (hs : Spells s ws)
    (hclosed : Closed s) (hn : Spells n [(.ident, n)]) (ht : Spells t type) :
    Spells (s ++ "var ".toList ++ n ++ ": ".toList ++ t ++ " \x7b".toList)
      (ws ++ (.ident, "var".toList) :: (.ident, n) :: sign ':' :: (type ++ [sign '\x7b'])) := by
  have hvar : Spells "var ".toList [(.ident, "var".toList)] := .fixed (by decide)
  have hcolon : Spells ": ".toList [sign ':'] := .fixed (by decide)
  have hbrace : Spells " \x7b".toList [sign '\x7b'] := .fixed (by decide)
  have h₁ := hs.append hvar (.inl hclosed)
  have h₂ := h₁.append hn (.inl (closed_append (by decide) (closed_of_all (by decide))))
  have h₃ := h₂.append hcolon (.inr (stops_of_all (by decide)))
  have h₄ := h₃.append ht (.inl (closed_append (by decide) (closed_of_all (by decide))))
  have h₅ := h₄.append hbrace (.inr (stops_of_all (by decide)))
  simpa using h₅

theorem Accessor.exists_header {st : Style} {a : Accessor} (hname : isPlainName a.name = true)
    (htype : ReadsAsType a.valueType) :
    ∃ access type, (access = [] ∨ ∃ level : Access, access = [(.ident, level.keyword)]) ∧
      Inert type ∧ Skips type ∧ Spells (a.header st) (access ++ (.ident, "var".toList) ::
        (.ident, escaped a.name) :: sign ':' :: (type ++ [sign '\x7b'])) := by
  obtain ⟨type, htype, hinert, hskips⟩ := htype.optionalType
  have hfront : ∀ s ws, Spells s ws → Closed s → Spells (s ++ "var ".toList ++ escaped a.name ++
      ": ".toList ++ optionalType a.valueType ++ " \x7b".toList) (ws ++ (.ident, "var".toList) ::
        (.ident, escaped a.name) :: sign ':' :: (type ++ [sign '\x7b'])) := fun s ws hs hclosed =>
    hs.append_binding hclosed (.escaped hname) htype
  unfold Accessor.header
  split
  · next level hlevel =>
    split
    · refine ⟨[(.ident, level.keyword)], type, .inr ⟨level, rfl⟩, hinert, hskips, hfront _ _ ?_ ?_⟩
      · cases level <;> exact Spells.fixed (by decide)
      · exact closed_concat (by decide) _
    · exact ⟨[], type, .inl rfl, hinert, hskips, hfront _ _ .nil (by simp [Closed])⟩
  · exact ⟨[], type, .inl rfl, hinert, hskips, hfront _ _ .nil (by simp [Closed])⟩

theorem Accessor.exists_print {st : Style} (hst : st.IsBlank) {name : Text}
    (hname : isPlainName name = true) (fs : List FieldExpr) (access : Option Access) :
    ∃ ws,
      Spells (Accessor.print st { Accessor.ofCase name (fs.map FieldExpr.field) with access }) ws ∧
      IsProperty ws name := by
  obtain ⟨front, type, hfront, hinert, hskips, hheader⟩ := @Accessor.exists_header st
    { Accessor.ofCase name (fs.map FieldExpr.field) with access } hname (.valueType fs)
  obtain ⟨gs, hgetter, hgs⟩ := harmless_getter hst hname fs
  obtain ⟨ss, hsetter, hss⟩ := harmless_setter hst hname fs
  have hget : Spells "get \x7b".toList [(.ident, "get".toList), sign '\x7b'] := .fixed (by decide)
  have hset : Spells "set \x7b".toList [(.ident, "set".toList), sign '\x7b'] := .fixed (by decide)
  have hclose : Spells ['\x7d'] [sign '\x7d'] := .fixed (by decide)
  have hinside : Inert ((.ident, "get".toList) :: sign '\x7b' :: (gs ++ sign '\x7d' ::
      (.ident, "set".toList) :: sign '\x7b' :: (ss ++ [sign '\x7d']))) :=
    .cons rfl rfl (by decide)
      (.group rfl rfl hgs (.cons rfl rfl (by decide) (.group rfl rfl hss .nil)))
  have hprint := Style.spells_line_append hst 0 hheader (Style.spells_line_append hst 1 hget
    (hgetter.append (Style.spells_line_append hst 1 hclose (Style.spells_line_append hst 1 hset
      (hsetter.append (Style.spells_line_append hst 1 hclose (Style.spells_line hst 0 hclose))
        (.inl (Setter.closed_print st _))))) (.inl (Getter.closed_print st _))))
  have hproperty :
      IsProperty (propertyWords front (escaped name) type _) (unquoted (escaped name)) :=
    .mk hfront hinert hskips hinside
  rw [unquoted_escaped hname] at hproperty
  refine ⟨_, ?_, hproperty⟩
  simpa [print, Accessor.ofCase, propertyWords] using hprint

theorem Accessor.closed_print (st : Style) (a : Accessor) : Closed (a.print st) :=
  st.closed_append_line _ 0 _

theorem Accessor.exists_printAll_words {st : Style} {as : List Accessor}
    (h : ∀ a ∈ as, ∃ ws, Spells (a.print st) ws ∧ IsProperty ws a.name) :
    ∃ wss, Spells (printAll st as) wss.flatten ∧
      List.Forall₂ IsProperty wss (as.map Accessor.name) := by
  unfold printAll
  induction as with
  | nil => exact ⟨[], .nil, .nil⟩
  | cons a as ih =>
    obtain ⟨ws, hws, hproperty⟩ := h a List.mem_cons_self
    obtain ⟨wss, hwss, hproperties⟩ := ih fun b hb => h b (List.mem_cons_of_mem a hb)
    refine ⟨ws :: wss, ?_, .cons hproperty hproperties⟩
    rw [List.flatten_cons]
    cases as with
    | nil =>
      cases hproperties
      rwa [List.flatten_nil, List.append_nil]
    | cons b as =>
      have hlater := hws.append (.blank (c := '\n') (by decide) hwss) (.inl (a.closed_print st))
      rwa [List.map_cons, List.map_cons, Text.joinWith_cons_cons, ← List.map_cons,
        List.append_assoc]

end CaseAccessors
