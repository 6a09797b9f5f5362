import CaseAccessors.Proofs.EnumTree
import CaseAccessors.Proofs.LiteralContents

/-! Elements of case clauses as they are written: a name, the fields of a payload, whose labels may
come in two names, and a raw value. Each is read back, whatever stands behind it. -/
namespace CaseAccessors

open Piece

def OneLine (s : Text) : Prop := '\n' ∉ s

instance (s : Text) : Decidable (OneLine s) := inferInstanceAs (Decidable ('\n' ∉ s))

namespace OneLine

theorem append {s t : Text} (hs : OneLine s) (ht : OneLine t) : OneLine (s ++ t) := by
  simp only [OneLine, List.mem_append, not_or]
  exact ⟨hs, ht⟩

theorem cons {c : Char} (hc : c ≠ '\n') {s : Text} (hs : OneLine s) : OneLine (c :: s) := by
  simp only [OneLine, List.mem_cons, not_or]
  exact ⟨hc.symm, hs⟩

theorem of_isPlainName {n : Text} (h : isPlainName n = true) : OneLine n := fun hmem =>
  absurd (isIdentPart_of_isPlainName h _ hmem) (by decide)

theorem of_tidy {s : Text} (h : Tidy s) : OneLine s := by
  have hne : ∀ {c : Char}, isBlank c = false → c ≠ '\n' := fun hc => by
    rintro rfl
    exact absurd hc (by decide)
  induction h with
  | char hc => exact cons (hne hc) List.not_mem_nil
  | cons hc _ ih => exact cons (hne hc) ih
  | space hc _ ih => exact cons (hne hc) (cons (by decide) ih)

theorem joinWith {ss : List Text} (h : ∀ s ∈ ss, OneLine s) :
    OneLine (Text.joinWith ", ".toList ss) := by
  induction ss with
  | nil => exact List.not_mem_nil
  | cons s ss ih =>
    have hs := h s List.mem_cons_self
    have ih := ih fun t ht => h t (List.mem_cons_of_mem s ht)
    cases ss with
    | nil => exact hs
    | cons t ss => exact (hs.append (by decide)).append ih

theorem written {n : Text} (h : isPlainName n = true) : OneLine (written n) := by
  unfold CaseAccessors.written
  split
  · exact (cons (by decide) (of_isPlainName h)).append (by decide)
  · exact of_isPlainName h

theorem line_eq {s : Text} (h : OneLine s) (p : Place) : (p.advance s).line = p.line := by
  rw [Place.advance_line, List.count_eq_zero.2 h, Nat.add_zero]

end OneLine

abbrev Label := { s : Text // isPlainName s = true ∧ s ≠ ['_'] ∧ keywords.contains s = false }

/-- A field of a payload: `T`, `l: T` or `l m: T`, where an underscore may stand for the first name.
-/
inductive PayloadField where
  | bare (type : TypeExpr)
  | labelled (label : Option Label) (type : TypeExpr)
  | renamed (label : Option Label) (name : Label) (type : TypeExpr)

namespace PayloadField

def labelText : Option Label → Text
  | some l => l.1
  | none => ['_']

def text : PayloadField → Text
  | bare t => t.text
  | labelled l t => labelText l ++ ": ".toList ++ t.text
  | renamed l m t => labelText l ++ ' ' :: m.1 ++ ": ".toList ++ t.text

def words : PayloadField → List Word
  | bare t => t.words
  | labelled l t => (.ident, labelText l) :: sign ':' :: t.words
  | renamed l m t => (.ident, labelText l) :: (.ident, m.1) :: sign ':' :: t.words

def field : PayloadField → Field
  | bare t => ⟨none, t.text⟩
  | labelled l t => ⟨l.map Subtype.val, t.text⟩
  | renamed l _ t => ⟨l.map Subtype.val, t.text⟩

theorem isPlainName_labelText (l : Option Label) : isPlainName (labelText l) = true := by
  cases l with
  | none => decide
  | some l => exact l.2.1

theorem labelText_ne_enum (l : Option Label) :
    ((.ident, labelText l) : Word) ≠ (.ident, "enum".toList) := by
  apply ne_enum_of_not_keyword
  cases l with
  | none => decide
  | some l => exact l.2.2.2

theorem label_eq (l : Option Label) :
    (if labelText l = ['_'] then none else some (labelText l)) = l.map Subtype.val := by
  cases l with
  | none => rfl
  | some l => exact if_neg l.2.2.1

theorem inert (f : PayloadField) : Inert f.words := by
  cases f with
  | bare t => exact t.inert
  | labelled l t => exact .cons rfl rfl (labelText_ne_enum l) (.mark rfl rfl t.inert)
  | renamed l m t =>
    have hname := ne_enum_of_not_keyword m.2.2.2
    exact .cons rfl rfl (labelText_ne_enum l) (.cons rfl rfl hname (.mark rfl rfl t.inert))

theorem unsplit (f : PayloadField) : Unsplit 0 f.words := by
  have hcolon : ∀ t : TypeExpr, Unsplit 0 (sign ':' :: t.words) := fun t =>
    .cons rfl (by simp) (.inl (by simp)) t.unsplit
  cases f with
  | bare t => exact t.unsplit
  | labelled l t => exact .cons rfl (by simp) (.inl (by simp)) (hcolon t)
  | renamed l m t =>
    exact .cons rfl (by simp) (.inl (by simp)) (.cons rfl (by simp) (.inl (by simp)) (hcolon t))

theorem oneLine (f : PayloadField) : OneLine f.text := by
  have hlabel : ∀ l, OneLine (labelText l) := fun l => .of_isPlainName (isPlainName_labelText l)
  cases f with
  | bare t => exact .of_tidy t.tidy
  | labelled l t => exact ((hlabel l).append (by decide)).append (.of_tidy t.tidy)
  | renamed l m t =>
    have hnames := (hlabel l).append (.cons (c := ' ') (by decide) (.of_isPlainName m.2.1))
    exact (hnames.append (by decide)).append (.of_tidy t.tidy)

end PayloadField

theorem IsField.of_splitLabel? {ts behind us : List Token} {l : Text} {u : Token}
    (hsplit : splitLabel? ts = some (l, behind)) (hbefore : beforeDefault behind = u :: us) :
    IsField ts ⟨if l = ['_'] then none else some l, (Token.sourceOf (u :: us)).collapse⟩ := by
  constructor
  · rintro rfl
    cases hsplit
  · intro last
    rw [readField, hsplit]
    simp only [hbefore]

namespace PayloadField

theorem spellsField (f : PayloadField) : SpellsField f.text f.words f.field := by
  refine ⟨f.inert, f.unsplit, ?_⟩
  cases f with
  | bare t =>
    exact FieldExpr.exists_pieces ⟨none, t⟩ (by simp)
  | labelled l t =>
    obtain ⟨ps, htext, hwords, hread, htokens⟩ := t.exists_pieces
    have hplain := isPlainName_labelText l
    refine ⟨.token .ident (labelText l) :: .token (.punct ':') [':'] :: .blank ' ' :: ps, ?_, ?_,
      ?_, ?_⟩
    · simp [text, htext, Piece.text]
    · change (.ident, labelText l) :: sign ':' :: ps.filterMap word? = _
      rw [hwords]
      rfl
    · intro rest hrest
      refine ⟨Spells.stands_name hplain (by rintro _ ⟨⟩; rfl), Spells.stands_mark (by decide) _, ?_⟩
      exact ⟨.blank (by decide), hread rest hrest⟩
    · intro lead p
      obtain ⟨-, u, us, hbefore, hcollapse⟩ := htokens [' '] _
      rw [field, ← label_eq, ← hcollapse]
      refine .of_splitLabel? ?_ hbefore
      simp [toTokens, splitLabel?, Lexeme.isPunct, Lexeme.name, unquoted_of_isPlainName hplain]
      rfl
  | renamed l m t =>
    obtain ⟨ps, htext, hwords, hread, htokens⟩ := t.exists_pieces
    have hplain := isPlainName_labelText l
    refine ⟨.token .ident (labelText l) :: .blank ' ' :: .token .ident m.1 ::
      .token (.punct ':') [':'] :: .blank ' ' :: ps, ?_, ?_, ?_, ?_⟩
    · simp [text, htext, Piece.text]
    · change (.ident, labelText l) :: (.ident, m.1) :: sign ':' :: ps.filterMap word? = _
      rw [hwords]
      rfl
    · intro rest hrest
      refine ⟨Spells.stands_name hplain (by rintro _ ⟨⟩; rfl), .blank (by decide), ?_⟩
      refine ⟨Spells.stands_name m.2.1 (by rintro _ ⟨⟩; rfl), Spells.stands_mark (by decide) _, ?_⟩
      exact ⟨.blank (by decide), hread rest hrest⟩
    · intro lead p
      obtain ⟨-, u, us, hbefore, hcollapse⟩ := htokens [' '] _
      rw [field, ← label_eq, ← hcollapse]
      refine .of_splitLabel? ?_ hbefore
      simp [toTokens, splitLabel?, Lexeme.isPunct, Lexeme.name, unquoted_of_isPlainName hplain]
      rfl

end PayloadField

def Delimits (s : Text) : Prop := ∀ c ∈ s.head?, c = ',' ∨ c = ';' ∨ c = '\n'

theorem Delimits.stops {s : Text} (h : Delimits s) : Stops s := by
  intro c hc
  obtain rfl | rfl | rfl := h c hc <;> decide

def isInteger (s : Text) : Bool := s.head?.any Char.isDigit && s.all isNumberPart

inductive RawValue where
  | integer (negative : Bool) (n : { s : Text // isInteger s = true })
  | string (s : { s : Text // ∀ c ∈ s, c ≠ '"' ∧ c ≠ '\\' ∧ c ≠ '\n' })

namespace RawValue

def text : RawValue → Text
  | integer negative n => (if negative then ['-'] else []) ++ n.1
  | string s => '"' :: (s.1 ++ ['"'])

def pieces : RawValue → List Piece
  | integer false n => [.token .literal n.1]
  | integer true n => [.token (.punct '-') ['-'], .token .literal n.1]
  | string s => [.token .literal ('"' :: (s.1 ++ ['"']))]

theorem textOf_pieces (v : RawValue) : textOf v.pieces = v.text := by
  match v with
  | integer false n => simp [pieces, text, Piece.text]
  | integer true n => simp [pieces, text, Piece.text]
  | string s => simp [pieces, text, Piece.text]

theorem isInteger_cons {s : Text} (h : isInteger s = true) :
    ∃ c n, s = c :: n ∧ c.isDigit = true ∧ ∀ a ∈ n, isNumberPart a = true := by
  rw [isInteger, Bool.and_eq_true, List.all_eq_true] at h
  cases s with
  | nil => simp at h
  | cons c n => exact ⟨c, n, rfl, by simpa using h.1, fun a ha => h.2 a (List.mem_cons_of_mem c ha)⟩

theorem isString_plain {s : Text} (hs : ∀ c ∈ s, c ≠ '"' ∧ c ≠ '\\' ∧ c ≠ '\n') :
    IsString ('"' :: (s ++ ['"'])) := by
  have hplain : ∀ c ∈ s, c ≠ '"' ∧ c ≠ '\\' ∧ (c = '\n' → false = true) := fun c hc =>
    ⟨(hs c hc).1, (hs c hc).2.1, fun hline => absurd hline (hs c hc).2.2⟩
  have hcontents : IsContents (.quotes 0 false) (s ++ []) := .plain_append hplain .nil
  rw [List.append_nil] at hcontents
  exact hcontents.isString

theorem stands_string {s rest : Text} (hs : ∀ c ∈ s, c ≠ '"' ∧ c ≠ '\\' ∧ c ≠ '\n')
    (hrest : Delimits rest) : (Piece.token .literal ('"' :: (s ++ ['"']))).Stands rest := by
  apply Piece.Stands.token (Spells.startsToken (by decide) (by decide) _)
  apply TokenForm.readToken
  refine .string (isString_plain hs) fun _ hquote => ?_
  exact absurd (hrest _ hquote) (by decide)

theorem stands_minus {c : Char} (hc : c.isDigit = true) (rest : Text) :
    (Piece.token (.punct '-') ['-']).Stands (c :: rest) := by
  apply Piece.Stands.token (Spells.startsToken (by decide) (by decide) _)
  apply TokenForm.readToken
  refine .mark (by decide) (by decide) (by decide) ?_ fun _ harrow => ?_
  · rw [openQuote?_eq_none_iff]
    simp
  · obtain rfl : c = '>' := Option.some.inj harrow
    exact absurd hc (by decide)

theorem reads_pieces (v : RawValue) {rest : Text} (hrest : Delimits rest) :
    Reads v.pieces rest := by
  match v with
  | integer false ⟨n, hn⟩ =>
    obtain ⟨c, n, rfl, hc, hparts⟩ := isInteger_cons hn
    exact ⟨Spells.stands_number hc hparts hrest.stops, trivial⟩
  | integer true ⟨n, hn⟩ =>
    obtain ⟨c, n, rfl, hc, hparts⟩ := isInteger_cons hn
    exact ⟨stands_minus hc _, Spells.stands_number hc hparts hrest.stops, trivial⟩
  | string ⟨s, hs⟩ => exact ⟨stands_string hs hrest, trivial⟩

theorem oneLine (v : RawValue) : OneLine v.text := by
  match v with
  | integer negative n =>
    have hn : OneLine n.1 := fun hmem => by
      have hparts := n.2
      rw [isInteger, Bool.and_eq_true, List.all_eq_true] at hparts
      exact absurd (hparts.2 _ hmem) (by decide)
    have hsign : OneLine (if negative then ['-'] else []) := by cases negative <;> decide
    exact hsign.append hn
  | string s =>
    have hs : OneLine s.1 := fun hmem => (s.2 _ hmem).2.2 rfl
    exact .cons (by decide) (hs.append (by decide))

theorem of_mem_toTokens {v : RawValue} {lead : Text} {p : Place} {t : Token}
    (ht : t ∈ toTokens lead p v.pieces) :
    t.place.line = p.line ∧ (t.kind = .punct '-' ∨ t.kind = .literal) := by
  have hminus : (p.advance ['-']).line = p.line := OneLine.line_eq (by decide) p
  match v with
  | integer false n =>
    obtain rfl := List.mem_singleton.1 ht
    exact ⟨rfl, .inr rfl⟩
  | integer true n =>
    rcases List.mem_cons.1 ht with rfl | ht
    · exact ⟨rfl, .inl rfl⟩
    · obtain rfl := List.mem_singleton.1 ht
      exact ⟨hminus, .inr rfl⟩
  | string s =>
    obtain rfl := List.mem_singleton.1 ht
    exact ⟨rfl, .inr rfl⟩

theorem inert (v : RawValue) : Inert (v.pieces.filterMap word?) := by
  match v with
  | integer false n => exact .cons rfl rfl (by simp) .nil
  | integer true n => exact .mark rfl rfl (.cons rfl rfl (by simp) .nil)
  | string s => exact .cons rfl rfl (by simp) .nil

end RawValue

def payloadFieldsText : List PayloadField → Text
  | [] => []
  | fs => parenthesized (fs.map PayloadField.text)

def rawValueText : Option RawValue → Text
  | none => []
  | some v => " = ".toList ++ v.text

namespace Piece

def rawValue : Option RawValue → List Piece
  | none => []
  | some v => .blank ' ' :: .token (.punct '=') ['='] :: .blank ' ' :: v.pieces

end Piece

/-- An element that began on a line ends in front of the tokens. -/
def EndsElement (line : Nat) (rest : List Token) : Prop :=
  ∀ t ∈ rest.head?, t.kind = .punct ',' ∨ t.kind = .punct ';' ∨
    (t.kind = .ident ∧ t.place.line ≠ line)

theorem EndsElement.ne_sign {line : Nat} {rest : List Token} (h : EndsElement line rest) {c : Char}
    (hc : c ≠ ',' ∧ c ≠ ';') : ∀ t ∈ rest.head?, t.kind ≠ .punct c := by
  intro t ht hkind
  rcases h t ht with hend | hend | ⟨hend, -⟩ <;> rw [hend] at hkind <;> cases hkind
  · exact hc.1 rfl
  · exact hc.2 rfl

theorem startsDeclaration_of_ne_ident {t : Token} (h : t.kind ≠ .ident) :
    t.startsDeclaration = false := by
  simp [Token.startsDeclaration, Token.bindsNames, Lexeme.isWord, Lexeme.isWordIn, h]

theorem afterRawValue_rawValue (v : Option RawValue) (lead : Text) (p : Place) {rest : List Token}
    (h : EndsElement p.line rest) :
    afterRawValue (toTokens lead p (rawValue v) ++ rest) = rest := by
  cases v with
  | none => exact no_rawValue (h.ne_sign (by decide))
  | some v =>
    have hequals : (p.advance [' ']).line = p.line := OneLine.line_eq (by decide) p
    have hvalue : (((p.advance [' ']).advance ['=']).advance [' ']).line = p.line := by
      rw [OneLine.line_eq (by decide), OneLine.line_eq (by decide), hequals]
    simp only [rawValue, toTokens, List.cons_append, afterRawValue]
    rw [if_pos (by rfl), dropWhile_append_eq_iff]
    constructor
    · intro t ht
      obtain ⟨hline, hkind⟩ := RawValue.of_mem_toTokens ht
      have hident : t.kind ≠ .ident := by rcases hkind with hkind | hkind <;> simp [hkind]
      rw [startsDeclaration_of_ne_ident hident]
      rcases hkind with hkind | hkind <;> simp [Lexeme.isPunct, hkind, hline, hvalue, hequals]
    · intro t ht
      rcases h t ht with hkind | hkind | ⟨hkind, hline⟩
      · simp [Lexeme.isPunct, hkind]
      · simp [Lexeme.isPunct, hkind]
      · simp [hequals, hline]

theorem oneLine_rawValueText (v : Option RawValue) : OneLine (rawValueText v) := by
  cases v with
  | none => exact List.not_mem_nil
  | some v => exact OneLine.append (by decide) v.oneLine

theorem textOf_rawValue (v : Option RawValue) : textOf (rawValue v) = rawValueText v := by
  cases v with
  | none => rfl
  | some v => simp [rawValue, rawValueText, Piece.text, v.textOf_pieces]

theorem reads_rawValue (v : Option RawValue) {rest : Text} (hrest : Delimits rest) :
    Reads (rawValue v) rest := by
  cases v with
  | none => trivial
  | some v =>
    refine ⟨.blank (by decide), Spells.stands_mark (by decide) _, .blank (by decide), ?_⟩
    exact v.reads_pieces hrest

theorem inert_rawValue (v : Option RawValue) : Inert ((rawValue v).filterMap word?) := by
  cases v with
  | none => exact .nil
  | some v => exact .mark rfl rfl v.inert

theorem oneLine_payloadFieldsText (fs : List PayloadField) : OneLine (payloadFieldsText fs) := by
  cases fs with
  | nil => exact List.not_mem_nil
  | cons f fs =>
    have hfields : OneLine (Text.joinWith ", ".toList ((f :: fs).map PayloadField.text)) := by
      apply OneLine.joinWith
      intro s hs
      obtain ⟨g, -, rfl⟩ := List.mem_map.1 hs
      exact g.oneLine
    exact (OneLine.cons (by decide) hfields).append (by decide)

theorem exists_pieces_payload (fs : List PayloadField) :
    ∃ ps, textOf ps = payloadFieldsText fs ∧ (∀ rest, Reads ps rest) ∧ Inert (ps.filterMap word?) ∧
      ∀ lead p rest, (∀ t ∈ rest.head?, t.kind ≠ .punct '(') →
        readFields (payloadTokens (toTokens lead p ps ++ rest)) = .ok (fs.map PayloadField.field) ∧
          afterPayload (toTokens lead p ps ++ rest) = rest := by
  cases fs with
  | nil =>
    refine ⟨[], rfl, fun _ => trivial, .nil, fun lead p rest hrest => ?_⟩
    obtain ⟨hpayload, hafter⟩ := no_payload hrest
    rw [toTokens, List.nil_append, hpayload, hafter]
    exact ⟨readFields_nil, rfl⟩
  | cons f fs =>
    obtain ⟨ps, htext, hwords, hread, hfields⟩ := SpellsField.exists_pieces_joined f fs fun g _ =>
      g.spellsField
    have hinert : Inert (ps.filterMap word?) := by
      rw [hwords]
      apply Inert.joinWords
      intro ws hws
      obtain ⟨g, -, rfl⟩ := List.mem_map.1 hws
      exact g.inert
    have hparens := reads_parens fun rest => hread _ (stops_cons (by decide) rest)
    refine ⟨parens ps, ?_, hparens, ?_, fun lead p rest _ => ?_⟩
    · rw [textOf_parens, htext]
      rfl
    · rw [filterMap_parens]
      exact .group rfl rfl hinert .nil
    · obtain ⟨o, k, htokens, ho, hk⟩ := exists_toTokens_parens ps lead p
      have hbalanced : Balanced ((toTokens [] (p.advance ['(']) ps).map (·.kind)) := by
        rw [Token.map_kind_of_map_word (map_word_toTokens ps _ _)]
        exact hinert.balanced
      obtain ⟨hpayload, hafter⟩ := payload_of_group ho hk hbalanced rest
      rw [htokens, List.cons_append, List.append_assoc, List.singleton_append, hpayload, hafter]
      exact ⟨readFields_eq_ok (hfields _ _), rfl⟩

/-- A case with an optional payload and an optional raw value. -/
structure CaseElement where
  name : PlainName
  fields : List PayloadField
  value : Option RawValue

namespace CaseElement

def text (e : CaseElement) : Text :=
  written e.name.1 ++ payloadFieldsText e.fields ++ rawValueText e.value

def declared (e : CaseElement) : Case := ⟨e.name.1, e.fields.map PayloadField.field⟩

theorem oneLine (e : CaseElement) : OneLine e.text :=
  ((OneLine.written e.name.2).append (oneLine_payloadFieldsText _)).append (oneLine_rawValueText _)

theorem stands_written {n : Text} (hn : isPlainName n = true) {rest : Text} (hrest : Stops rest) :
    (Piece.token .ident (written n)).Stands rest := by
  unfold written
  split
  · exact Spells.stands_quotedName hn rest
  · exact Spells.stands_name hn fun c hc => (hrest c hc).1

theorem stops_behind_name (fs : List PayloadField) (v : Option RawValue) {rest : Text}
    (hrest : Delimits rest) : Stops (payloadFieldsText fs ++ (rawValueText v ++ rest)) := by
  cases fs with
  | cons f fs => exact stops_cons (by decide) _
  | nil =>
    cases v with
    | none => exact hrest.stops
    | some v => exact stops_cons (by decide) _

theorem exists_pieces (e : CaseElement) :
    ∃ ps, textOf ps = e.text ∧ (∀ rest, Delimits rest → Reads ps rest) ∧
      Inert (ps.filterMap word?) ∧
      ∀ lead p, ∃ name ts, toTokens lead p ps = name :: ts ∧ name.kind = .ident ∧
        name.name = e.name.1 ∧ ∀ rest, EndsElement p.line rest →
          readFields (payloadTokens (ts ++ rest)) = .ok (e.fields.map PayloadField.field) ∧
            afterRawValue (afterPayload (ts ++ rest)) = rest := by
  obtain ⟨ps, htext, hread, hinert, htokens⟩ := exists_pieces_payload e.fields
  refine ⟨.token .ident (written e.name.1) :: (ps ++ rawValue e.value), ?_, fun rest hrest => ?_,
    ?_, fun lead p => ?_⟩
  · rw [textOf_cons, textOf_append, htext, textOf_rawValue, text, List.append_assoc]
    rfl
  · refine ⟨?_, reads_append.2 ⟨hread _, reads_rawValue e.value hrest⟩⟩
    rw [textOf_append, htext, textOf_rawValue, List.append_assoc]
    exact stands_written e.name.2 (stops_behind_name _ _ hrest)
  · rw [filterMap_word?_token, List.filterMap_append]
    exact .cons rfl rfl (written_ne_enum _) (hinert.append (inert_rawValue _))
  · obtain ⟨lead', happend⟩ :=
      toTokens_append ps (rawValue e.value) [] (p.advance (written e.name.1))
    rw [toTokens, happend]
    refine ⟨_, _, rfl, rfl, unquoted_written e.name.2, fun rest hrest => ?_⟩
    have hline : ((p.advance (written e.name.1)).advance (textOf ps)).line = p.line := by
      rw [htext, (oneLine_payloadFieldsText _).line_eq, (OneLine.written e.name.2).line_eq]
    have hbehind : ∀ t ∈ (toTokens lead' ((p.advance (written e.name.1)).advance (textOf ps))
        (rawValue e.value) ++ rest).head?, t.kind ≠ .punct '(' := by
      cases e.value with
      | none => exact hrest.ne_sign (by decide)
      | some v =>
        rintro _ ⟨⟩
        simp
    obtain ⟨hfields, hafter⟩ := htokens [] (p.advance (written e.name.1)) _ hbehind
    rw [List.append_assoc, hafter]
    exact ⟨hfields, afterRawValue_rawValue _ _ _ (hline ▸ hrest)⟩

end CaseElement

end CaseAccessors
