import CaseAccessors.Proofs.Agreement
import CaseAccessors.Proofs.FieldReading

/-! Trees of enums as they are written, one item a line, and what is read of their lines. -/
namespace CaseAccessors

open Piece

/-- A name as it stands in a source: in backticks if it would be read as something else. -/
def written (name : Text) : Text := if isReserved name then '`' :: name ++ ['`'] else name

structure CaseLine extends CaseExpr where
  label_ne : ∀ f ∈ fields, ∀ l ∈ f.label, l.1 ≠ ['_']

def payloadText : List FieldExpr → Text
  | [] => []
  | fs => parenthesized (fs.map FieldExpr.text)

def CaseLine.text (c : CaseLine) : Text := "case ".toList ++ written c.name ++ payloadText c.fields

inductive EnumItems where
  | done
  | case (c : CaseLine) (rest : EnumItems)
  | property (name : PlainName) (type : TypeExpr) (rest : EnumItems)
  | enum (access : Option Access) (name : PlainName) (items rest : EnumItems)

structure EnumExpr where
  access : Option Access
  name : PlainName
  items : EnumItems

def lineAt (depth : Nat) (s : Text) : Text := List.replicate depth ' ' ++ s ++ ['\n']

def propertyText (name : PlainName) (type : TypeExpr) : Text :=
  "var ".toList ++ written name.1 ++ ": ".toList ++ type.text ++ " \x7b".toList ++ " 0 \x7d".toList

def enumHeader (access : Option Access) (name : PlainName) : Text :=
  (match access with
    | some a => a.keyword ++ [' ']
    | none => []) ++ ("enum ".toList ++ written name.1 ++ " \x7b".toList)

namespace EnumItems

def text (depth : Nat) : EnumItems → Text
  | done => []
  | case c rest => lineAt depth c.text ++ rest.text depth
  | property name type rest => lineAt depth (propertyText name type) ++ rest.text depth
  | enum access name items rest =>
    lineAt depth (enumHeader access name) ++ items.text (depth + 4) ++ lineAt depth ['}'] ++
      rest.text depth

def cases : EnumItems → List Case
  | done => []
  | case c rest => c.case :: rest.cases
  | property _ _ rest => rest.cases
  | enum _ _ _ rest => rest.cases

def memberNames : EnumItems → List Text
  | done => []
  | case _ rest => rest.memberNames
  | property name _ rest => name.1 :: rest.memberNames
  | enum _ name _ rest => name.1 :: rest.memberNames

/-- All enums among the items and inside of them, each before those inside of it. -/
def enums : EnumItems → List EnumExpr
  | done => []
  | case _ rest => rest.enums
  | property _ _ rest => rest.enums
  | enum access name items rest => ⟨access, name, items⟩ :: (items.enums ++ rest.enums)

end EnumItems

theorem CaseLine.text_eq (c : CaseLine) :
    c.text = "case ".toList ++ written c.name ++ payloadText c.fields := rfl

theorem written_free (n : Text) : written n ∉ ["enum", "case", "var", "let"].map String.toList := by
  have hreserved : ∀ s ∈ ["enum", "case", "var", "let"].map String.toList, isReserved s = true ∧
      s.head? ≠ some '`' := by decide
  intro h
  obtain ⟨hr, hhead⟩ := hreserved _ h
  unfold written at hr hhead
  split at hr
  · next hn =>
    rw [if_pos hn] at hhead
    exact hhead rfl
  · next hn => exact hn hr

theorem unquoted_written {n : Text} (h : isPlainName n = true) : unquoted (written n) = n :=
  unquoted_ite h _

theorem written_ne_enum (n : Text) : ((.ident, written n) : Word) ≠ (.ident, "enum".toList) := by
  intro h
  have htext := congrArg Prod.snd h
  exact written_free n (by rw [show written n = "enum".toList from htext]; decide)

theorem Spells.written {n : Text} (hn : isPlainName n = true) :
    Spells (written n) [(.ident, CaseAccessors.written n)] := by
  have h := ite hn (isReserved n = true) (by simp) .nil
  rwa [List.append_nil] at h

theorem getLast?_lineAt (depth : Nat) (s : Text) : ∀ c ∈ (lineAt depth s).getLast?, c = '\n' := by
  rw [lineAt, List.getLast?_concat]
  rintro _ ⟨⟩
  rfl

theorem Spells.indented (depth : Nat) {s : Text} {ws : List Word} (h : Spells s ws) :
    Spells (List.replicate depth ' ' ++ s) ws := by
  apply h.blanks
  intro c hc
  rw [List.eq_of_mem_replicate hc]
  rfl

theorem Spells.lineAt (depth : Nat) {s : Text} {ws : List Word} (h : Spells s ws) :
    Spells (lineAt depth s) ws := by
  have hend := (h.indented depth).append (Spells.blank (c := '\n') (by decide) .nil)
    (.inr (stops_cons (by decide) []))
  rwa [List.append_nil] at hend

namespace Piece

def parens (ps : List Piece) : List Piece :=
  .token (.punct '(') ['('] :: (ps ++ [.token (.punct ')') [')']])

theorem textOf_parens (ps : List Piece) : textOf (parens ps) = ['('] ++ textOf ps ++ [')'] := by
  simp [parens, text]

theorem filterMap_parens (ps : List Piece) :
    (parens ps).filterMap word? = sign '(' :: (ps.filterMap word? ++ [sign ')']) := by
  rw [parens, filterMap_word?_token, List.filterMap_append]
  rfl

theorem reads_parens {ps : List Piece} (h : ∀ rest, Reads ps (')' :: rest)) (rest : Text) :
    Reads (parens ps) rest :=
  ⟨Spells.stands_mark (by decide) _,
    reads_append.2 ⟨h rest, Spells.stands_mark (by decide) _, trivial⟩⟩

theorem exists_toTokens_parens (ps : List Piece) (lead : Text) (p : Place) :
    ∃ o k, toTokens lead p (parens ps) = o :: (toTokens [] (p.advance ['(']) ps ++ [k]) ∧
      o.word = sign '(' ∧ k.word = sign ')' := by
  obtain ⟨lead', h⟩ := toTokens_append ps [.token (.punct ')') [')']] [] (p.advance ['('])
  rw [parens, toTokens, h]
  exact ⟨_, _, rfl, rfl, rfl⟩

def payload (ps : List Piece) : List Piece :=
  .token (.punct '(') ['('] :: (ps ++ [.token (.punct ')') [')'], .blank '\n'])

theorem payload_eq (ps : List Piece) : payload ps = parens ps ++ [.blank '\n'] := by
  simp [payload, parens]

theorem textOf_payload (ps : List Piece) :
    textOf (payload ps) = ['('] ++ textOf ps ++ [')', '\n'] := by
  rw [payload_eq, textOf_append, textOf_parens]
  simp [text]

end Piece

theorem readFields_nil : readFields [] = .ok [] := by
  rw [readFields, splitFields, items]
  rfl

theorem read_case_of_payload {n : Text} (hn : isPlainName n = true) {keyword name : Token}
    (hkeyword : keyword.word = (.ident, "case".toList)) (hname : name.word = (.ident, written n))
    {rest behind : List Token} {fields : List Field}
    (hfields : readFields (payloadTokens rest) = .ok fields)
    (hafter : afterPayload rest = behind) (hbehind : ∀ t ∈ behind.head?, t.kind = .ident) :
    Body.read (keyword :: name :: rest) =
      (Body.read behind).map fun b => (b.addCases [⟨n, fields⟩]).addMembers [] := by
  obtain ⟨hkind, htext⟩ := Prod.mk.inj hname
  have hsign : ∀ d, ∀ t ∈ behind.head?, t.kind ≠ .punct d := fun d t ht => by simp [hbehind t ht]
  have hclause := @readClause_last keyword name hkind _ _ _ hfields
    (hafter.symm ▸ no_rawValue (hsign '=')) (hsign ',')
  rw [Lexeme.name, htext, unquoted_written hn] at hclause
  rw [Body.read_case hkeyword hclause]
  cases Body.read behind <;> rfl

theorem spells_case {n : Text} (hn : isPlainName n = true) :
    Spells ("case ".toList ++ written n) [(.ident, "case".toList), (.ident, written n)] := by
  have hkeyword : Spells "case ".toList [(.ident, "case".toList)] := .fixed (by decide)
  exact hkeyword.append (.written hn) (.inl (closed_of_all (by decide)))

theorem EnumFree.case {n : Text} {ws : List Word} (h : EnumFree ws) :
    EnumFree ((.ident, "case".toList) :: (.ident, written n) :: ws) :=
  .cons (by decide) (.cons (written_ne_enum n) h)

theorem Part.of_payload {n : Text} (hn : isPlainName n = true) {as ps : List Piece}
    {fields : List Field}
    {c : Char} (haswords : as.filterMap word? = [(.ident, "case".toList), (.ident, written n)])
    (hasreads : ∀ rest, Stops rest → Reads as rest) (hreads : ∀ rest, Reads ps (')' :: rest))
    (hc : isSpace c = true) (hbalanced : Balanced ((ps.filterMap word?).map Prod.fst))
    (hfree : EnumFree (sign '(' :: (ps.filterMap word? ++ [sign ')'])))
    (hfields : ∀ lead p, readFields (toTokens lead p ps) = .ok fields) :
    Part (as ++ (parens ps ++ [Piece.blank c])) [] [⟨n, fields⟩] fun _ => [] := by
  have hwords : (as ++ (parens ps ++ [Piece.blank c])).filterMap word? = (.ident, "case".toList) ::
      (.ident, written n) :: sign '(' :: (ps.filterMap word? ++ [sign ')']) := by
    rw [List.filterMap_append, haswords, List.filterMap_append, filterMap_parens]
    exact congrArg _ (List.append_nil _)
  apply Part.of_inert
  · intro rest
    have hblank : Reads [.blank c] rest := ⟨.blank hc, trivial⟩
    refine reads_append.2 ⟨hasreads _ (stops_cons (by decide) _), reads_append.2 ⟨?_, hblank⟩⟩
    exact reads_parens hreads _
  · rw [hwords]
    exact ⟨.name (.name (.group_words rfl rfl hbalanced .nil)), hfree.case⟩
  · rw [hwords]
    rintro _ ⟨⟩
    exact ⟨rfl, by decide⟩
  · rw [hwords, ← List.cons_append, ← List.cons_append, ← List.cons_append, List.getLast?_concat]
    rintro _ ⟨⟩
    simp
  · intro lead p rest hrest
    obtain ⟨lead₁, h₁⟩ := toTokens_append as (parens ps ++ [Piece.blank c]) lead p
    obtain ⟨lead₂, h₂⟩ := toTokens_append (parens ps) [.blank c] lead₁ (p.advance (textOf as))
    obtain ⟨o, k, h₃, ho, hk⟩ := exists_toTokens_parens ps lead₁ (p.advance (textOf as))
    have hts := map_word_toTokens as lead p
    rw [haswords] at hts
    obtain ⟨keyword, us, hts, hkeyword, hus⟩ := List.map_eq_cons_iff.1 hts
    obtain ⟨name, us, rfl, hname, hus⟩ := List.map_eq_cons_iff.1 hus
    obtain rfl := List.map_eq_nil_iff.1 hus
    have hinside :
        Balanced ((toTokens [] ((p.advance (textOf as)).advance ['(']) ps).map (·.kind)) := by
      rw [Token.map_kind_of_map_word (map_word_toTokens ps _ _)]
      exact hbalanced
    obtain ⟨hpayload, hafter⟩ := payload_of_group ho hk hinside rest
    have hnil : toTokens lead₂ ((p.advance (textOf as)).advance (textOf (parens ps))) [.blank c] =
      [] := rfl
    rw [h₁, hts, h₂, h₃, hnil]
    simp only [List.cons_append, List.nil_append, List.append_assoc, List.append_nil]
    refine read_case_of_payload hn hkeyword hname ?_ hafter fun t ht => (hrest t ht).kind_eq
    rw [hpayload]
    exact hfields _ _

namespace CaseLine

theorem exists_part_of_nil {c : CaseLine} (hfields : c.fields = []) (depth : Nat) :
    ∃ ps, textOf ps = lineAt depth c.text ∧ Part ps [] [c.case] fun _ => [] := by
  have htext : c.text = "case ".toList ++ written c.name := by
    rw [c.text_eq, hfields]
    exact List.append_nil _
  rw [htext]
  apply Part.of_spells ((spells_case c.plain).lineAt depth) (getLast?_lineAt depth _)
  · exact ⟨.name (.name .nil), EnumFree.case trivial⟩
  · rintro _ ⟨⟩
    simp
  · refine ⟨by rintro _ ⟨⟩; exact ⟨rfl, by decide⟩, fun ts rest hts hrest => ?_⟩
    obtain ⟨keyword, us, rfl, hkeyword, hus⟩ := List.map_eq_cons_iff.1 hts
    obtain ⟨name, us, rfl, hname, hus⟩ := List.map_eq_cons_iff.1 hus
    obtain rfl := List.map_eq_nil_iff.1 hus
    obtain ⟨hpayload, hafter⟩ := no_payload fun t ht => by simp [(hrest t ht).kind_eq]
    change Body.read (keyword :: name :: rest) = _
    rw [CaseExpr.case, hfields]
    refine read_case_of_payload c.plain hkeyword hname ?_ hafter fun t ht => (hrest t ht).kind_eq
    rw [hpayload]
    exact readFields_nil

theorem exists_part_of_cons {c : CaseLine} {f : FieldExpr} {fs : List FieldExpr}
    (hfields : c.fields = f :: fs) (depth : Nat) :
    ∃ ps, textOf ps = lineAt depth c.text ∧ Part ps [] [c.case] fun _ => [] := by
  obtain ⟨as, has, haswords, hasreads, -⟩ := ((spells_case c.plain).indented depth).exists_pieces
  obtain ⟨ps, hps, hpswords, hpsreads, hpsfields⟩ := FieldExpr.exists_pieces_joined f fs
    (hfields ▸ c.label_ne)
  have hinert := FieldExpr.inert_joinedWords (f :: fs)
  have hpayload : Inert (sign '(' :: (FieldExpr.joinedWords (f :: fs) ++ [sign ')'])) :=
    .group rfl rfl hinert .nil
  refine ⟨as ++ payload ps, ?_, ?_⟩
  · rw [textOf_append, has, textOf_payload, hps, lineAt, c.text_eq, hfields]
    simp only [payloadText, parenthesized, List.append_assoc]
    rfl
  rw [payload_eq, CaseExpr.case, hfields]
  refine Part.of_payload c.plain haswords hasreads
    (fun rest => hpsreads _ (stops_cons (by decide) _)) (by decide)
    (hpswords ▸ hinert.balanced) (hpswords ▸ hpayload.enumFree) fun lead p =>
    readFields_eq_ok (hpsfields lead p)

theorem exists_part (c : CaseLine) (depth : Nat) :
    ∃ ps, textOf ps = lineAt depth c.text ∧ Part ps [] [c.case] fun _ => [] := by
  cases hfields : c.fields with
  | nil => exact exists_part_of_nil hfields depth
  | cons f fs => exact exists_part_of_cons hfields depth

end CaseLine

theorem isProperty_propertyText (name : PlainName) (type : TypeExpr) :
    ∃ ws, Spells (propertyText name type) ws ∧ IsProperty ws name.1 := by
  have hzero : Spells " 0 \x7d".toList [(.literal, ['0']), sign '\x7d'] := by
    refine .blank (by decide) ?_
    exact @Spells.number '0' [] " \x7d".toList [sign '\x7d'] (by decide) (by simp)
      (stops_cons (by decide) _) (.fixed (by decide))
  have hheader := Spells.nil.append_binding (by simp [Closed]) (.written name.2) type.spells
  have hproperty : IsProperty (propertyWords [] (written name.1) type.words [(.literal, ['0'])])
      (unquoted (written name.1)) :=
        .mk (.inl rfl) type.inert type.skips (.cons rfl rfl (by simp) .nil)
  rw [unquoted_written name.2] at hproperty
  refine ⟨_, hheader.append hzero (.inr (stops_of_all (by decide))), ?_⟩
  simpa only [propertyWords, List.nil_append, List.cons_append, List.append_assoc] using hproperty

theorem exists_part_property (name : PlainName) (type : TypeExpr) (depth : Nat) :
    ∃ ps, textOf ps = lineAt depth (propertyText name type) ∧ Part ps [name.1] [] fun _ => [] := by
  obtain ⟨ws, hws, hproperty⟩ := isProperty_propertyText name type
  have hspells : Spells (lineAt depth (propertyText name type)) [ws].flatten := by
    rw [List.flatten_singleton]
    exact hws.lineAt depth
  exact Part.of_properties hspells (getLast?_lineAt depth _) (.cons hproperty .nil)

theorem spells_enumHeader (access : Option Access) (name : PlainName) :
    ∃ ws, Spells (enumHeader access name) ws ∧ IsHeader ws (written name.1) := by
  have henum : Spells "enum ".toList [(.ident, "enum".toList)] := .fixed (by decide)
  have hbrace : Spells " \x7b".toList [sign '\x7b'] := .fixed (by decide)
  have hname := henum.append (.written name.2) (.inl (closed_of_all (by decide)))
  have hheader := hname.append hbrace (.inr (stops_of_all (by decide)))
  cases access with
  | none => exact ⟨_, hheader, .mk (.inl rfl) (written_free name.1)⟩
  | some a =>
    have hfront : Spells (a.keyword ++ [' ']) [(.ident, a.keyword)] := by
      cases a <;> exact .fixed (by decide)
    have hall := hfront.append hheader (.inl (closed_concat (by decide) _))
    exact ⟨_, hall, .mk (.inr ⟨a, rfl⟩) (written_free name.1)⟩

theorem exists_header (access : Option Access) (name : PlainName) (depth : Nat) :
    ∃ ps, textOf ps = lineAt depth (enumHeader access name) ∧ (∀ rest, Reads ps rest) ∧
      IsHeader (ps.filterMap word?) (written name.1) := by
  obtain ⟨ws, hspells, hheader⟩ := spells_enumHeader access name
  obtain ⟨ps, hps, rfl, hreads⟩ :=
    (hspells.lineAt depth).exists_pieces_of_newline (getLast?_lineAt depth _)
  exact ⟨ps, hps, hreads, hheader⟩

theorem exists_inline_header (access : Option Access) (name : PlainName) :
    ∃ ps, textOf ps = enumHeader access name ++ [' '] ∧ (∀ rest, Reads ps rest) ∧
      IsHeader (ps.filterMap word?) (written name.1) := by
  obtain ⟨ws, hspells, hheader⟩ := spells_enumHeader access name
  obtain ⟨ps, hps, rfl, hreads, -⟩ := hspells.exists_pieces
  refine ⟨ps ++ [.blank ' '], ?_, fun rest => ?_, ?_⟩
  · rw [textOf_append, hps]
    rfl
  · exact reads_append.2 ⟨hreads _ (stops_cons (by decide) _), .blank (by decide), trivial⟩
  · rw [List.filterMap_append]
    exact (List.append_nil _).symm ▸ hheader

end CaseAccessors
