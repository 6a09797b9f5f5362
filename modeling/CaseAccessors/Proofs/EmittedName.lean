import CaseAccessors.Proofs.AccessorWords
import CaseAccessors.Proofs.TypeText

/-! Names that reading takes from a source and printing puts into one. Reading takes a name out of
its backticks, whatever stands between them; printing puts back only those around keywords. -/
namespace CaseAccessors

/-- A name that needs no backticks, unless it is a keyword. -/
def IsIdentifier : Text → Prop
  | [] => False
  | c :: s => isIdentStart c = true ∧ ∀ a ∈ s, isIdentPart a = true

/-- Lexing the text gives a single identifier, and the name is what that stands for. -/
def LexesToName (s n : Text) : Prop := ∃ t, tokenize s = .ok [t] ∧ t.kind = .ident ∧ t.name = n

def Quotable (s : Text) : Prop := ∀ a ∈ s, a ≠ '`' ∧ a ≠ '\n'

theorem IsIdentifier.of_isPlainName {n : Text} (h : isPlainName n = true) : IsIdentifier n := by
  obtain ⟨c, s, rfl, hc⟩ := exists_cons_of_isPlainName h
  exact ⟨hc, fun a ha => isIdentPart_of_isPlainName h a (List.mem_cons_of_mem c ha)⟩

theorem IsIdentifier.quotable {n : Text} (h : IsIdentifier n) : Quotable n := by
  have hpart : ∀ a, isIdentPart a = true → a ≠ '`' ∧ a ≠ '\n' := by
    rintro a ha
    constructor <;> rintro rfl <;> cases ha
  cases n with
  | nil => exact absurd h id
  | cons c s =>
    obtain ⟨hc, hs⟩ := h
    rintro a (_ | ⟨_, ha⟩)
    · exact hpart c (by rw [isIdentPart, hc, Bool.true_or])
    · exact hpart a (hs a ha)

theorem isIdentifier_of_mem_keywords {n : Text} (h : n ∈ keywords) : IsIdentifier n := by
  have hplain : ∀ k ∈ keywords, isPlainName k = true := by decide
  exact .of_isPlainName (hplain n h)

theorem tokenize_of_form {s : Text} {kind : Kind}
    (hstart : ∃ c t, s = c :: t ∧ Piece.StartsToken c t)
    (h : TokenForm [] kind s) : ∃ t, tokenize s = .ok [t] ∧ t.word = (kind, s) := by
  obtain ⟨c, t, rfl, hstart⟩ := hstart
  have hread := h.readToken
  have hstart' : Piece.StartsToken c (t ++ []) := by rwa [List.append_nil]
  have hstands : (Piece.token kind (c :: t)).Stands [] := .token hstart' hread
  have hlex := (hstands.lexesTo [(kind, c :: t)]).2 ⟨[], rfl, lexesTo_nil⟩
  rw [List.append_nil] at hlex
  obtain ⟨ts, hts, hwords⟩ := hlex
  obtain ⟨u, us, rfl, hu, hus⟩ := List.map_eq_cons_iff.1 hwords
  obtain rfl := List.map_eq_nil_iff.1 hus
  exact ⟨u, hts, hu⟩

theorem LexesToName.of_form {s : Text} (hstart : ∃ c t, s = c :: t ∧ Piece.StartsToken c t)
    (h : TokenForm [] .ident s) : LexesToName s (unquoted s) := by
  obtain ⟨t, ht, hword⟩ := tokenize_of_form hstart h
  obtain ⟨hkind, rfl⟩ := Prod.mk.inj hword
  exact ⟨t, ht, hkind, rfl⟩

theorem startsToken_backtick (s : Text) : ∃ c t, '`' :: s = c :: t ∧ Piece.StartsToken c t :=
  ⟨'`', s, rfl, by decide, fun h => by cases h⟩

theorem unquoted_eq_self {n : Text} (h : n.head? ≠ some '`') : unquoted n = n := by
  unfold unquoted
  split
  · exact absurd rfl h
  · rfl

theorem unquoted_quoted (n : Text) : unquoted ('`' :: (n ++ ['`'])) = n := by simp [unquoted]

theorem unquoted_open {s : Text} (h : Quotable s) : unquoted ('`' :: s) = '`' :: s := by
  unfold unquoted
  split
  · next t heq =>
    obtain ⟨-, rfl⟩ := List.cons.inj heq
    rw [if_neg]
    exact fun hlast => (h '`' (List.mem_of_getLast? hlast)).1 rfl
  · rfl

theorem lexesToName_identifier {n : Text} (h : IsIdentifier n) : LexesToName n n := by
  cases n with
  | nil => exact absurd h id
  | cons c s =>
    obtain ⟨hc, hs⟩ := h
    have hpart : isIdentPart c = true := by rw [isIdentPart, hc, Bool.true_or]
    have hslash : c ≠ '/' := by rintro rfl; cases hc
    have hback : (c :: s).head? ≠ some '`' := by rintro ⟨⟩; cases hc
    have hname := LexesToName.of_form
      ⟨c, s, rfl, Spells.startsToken (isSpace_of_isIdentPart hpart) hslash s⟩
        (.word hc hs (by simp))
    rwa [unquoted_eq_self hback] at hname

theorem lexesToName_quoted {n : Text} (h : Quotable n) : LexesToName ('`' :: (n ++ ['`'])) n := by
  have hname := LexesToName.of_form (startsToken_backtick _) (.quotedWord h)
  rwa [unquoted_quoted] at hname

theorem lexesToName_open {s : Text} (h : Quotable s) : LexesToName ('`' :: s) ('`' :: s) := by
  have hname := LexesToName.of_form (startsToken_backtick _) (.openWord h (by simp))
  rwa [unquoted_open h] at hname

theorem isIdentifier_of_lexesToName {n : Text} (hn : '`' ∉ n) (h : LexesToName n n) :
    IsIdentifier n := by
  obtain ⟨t, ht, hkind, hname⟩ := h
  obtain ⟨tail, hsource, -, hstand, -⟩ := exists_standTogether ht
  rw [sourceBehind_cons] at hsource
  have hback : '`' ∉ t.text := fun hmem => hn (by rw [← hsource]; simp [hmem])
  rw [hkind] at hstand
  rw [← hname, Lexeme.name, unquoted_eq_self fun hhead => hback (List.mem_of_mem_head? hhead)]
  generalize t.text = s at hstand hback
  cases hstand with
  | token hstart hread =>
    cases TokenForm.of_readToken hread with
    | word hc hs => exact ⟨hc, hs⟩
    | quotedWord => exact absurd List.mem_cons_self hback
    | openWord => exact absurd List.mem_cons_self hback

/-- An identifier in a source stands for a text without backticks, or begins with its only one. -/
theorem quotable_name {t : Token} {rest : Text} (h : (Piece.token t.kind t.text).Stands rest)
    (hkind : t.kind = .ident) : Quotable t.name ∨ ∃ s, t.name = '`' :: s ∧ Quotable s := by
  rw [hkind] at h
  rw [Lexeme.name]
  generalize t.text = s at h
  cases h with
  | @token c u _ _ hstart hread =>
    cases TokenForm.of_readToken hread with
    | word hc hs =>
      have hback : (c :: u).head? ≠ some '`' := by rintro ⟨⟩; cases hc
      have hident : IsIdentifier (c :: u) := ⟨hc, hs⟩
      rw [unquoted_eq_self hback]
      exact .inl hident.quotable
    | quotedWord hs =>
      rw [unquoted_quoted]
      exact .inl hs
    | openWord hs =>
      rw [unquoted_open hs]
      exact .inr ⟨_, rfl, hs⟩

theorem escaped_of_not_isIdentifier {n : Text} (h : ¬IsIdentifier n) : escaped n = n := by
  rw [escaped, if_neg]
  rw [List.contains_iff_mem]
  exact fun hmem => h (isIdentifier_of_mem_keywords hmem)

theorem lexesToName_escaped_of_isIdentifier {n : Text} (h : IsIdentifier n) :
    LexesToName (escaped n) n := by
  unfold escaped
  split
  · exact lexesToName_quoted h.quotable
  · exact lexesToName_identifier h

/-- The name of a case is read back from what is printed for it just if it is an identifier, or
begins with a backtick that nothing but the end of its line closes. -/
theorem lexesToName_escaped_iff {src : Text} {enums : List Enumeration}
    (h : readEnumerations src = .ok enums) :
    ∀ e ∈ enums, ∀ c ∈ e.decl.cases,
      LexesToName (escaped c.name) c.name ↔ IsIdentifier c.name ∨ '`' ∈ c.name := by
  intro e he c hc
  obtain ⟨tokens, htokens, hcases⟩ := exists_declaredIn_of_readEnumerations h
  obtain ⟨tail, -, hstand⟩ := exists_standTogether htokens
  obtain ⟨before, name, behind, rfl, hkind, hname, -⟩ := hcases e he c hc
  obtain ⟨-, hname', -⟩ := (standTogether_append.1 hstand).2
  rw [hname]
  obtain hquotable | ⟨s, hs, hquotable⟩ := quotable_name hname' hkind
  · have hback : '`' ∉ name.name := fun hmem => (hquotable '`' hmem).1 rfl
    constructor
    · intro hlex
      by_contra hno
      obtain ⟨hident, -⟩ := not_or.1 hno
      rw [escaped_of_not_isIdentifier hident] at hlex
      exact hident (isIdentifier_of_lexesToName hback hlex)
    · intro hcase
      exact lexesToName_escaped_of_isIdentifier (hcase.resolve_right hback)
  · rw [hs]
    have hident : ¬IsIdentifier ('`' :: s) := fun hident =>
      (hident.quotable '`' List.mem_cons_self).1 rfl
    rw [escaped_of_not_isIdentifier hident]
    exact iff_of_true (lexesToName_open hquotable) (.inr List.mem_cons_self)

/-- A keyword in backticks gets them back. -/
theorem lexesToName_escaped_keyword :
    LexesToName (escaped "default".toList) "default".toList ↔
      IsIdentifier "default".toList ∨ '`' ∈ "default".toList := by
  have hread : readEnumerations "enum E \x7b case `default` \x7d".toList =
      .ok [⟨⟨"E".toList, none, [], [⟨"default".toList, []⟩]⟩, 24, none, []⟩] :=
    eq_ok_of_toOption (by decide +kernel)
  exact lexesToName_escaped_iff hread _ (List.mem_singleton_self _) _ (List.mem_singleton_self _)

/-- What stood in backticks for its blank is printed as two names. -/
theorem escaped_of_blank :
    (readEnumerations "enum E \x7b\n    case `a b`\n\x7d\n".toList).toOption.map
    (·.map (·.decl.cases)) =
      some [[⟨"a b".toList, []⟩]] ∧
      escaped "a b".toList = "a b".toList ∧
        (tokenize "a b".toList).toOption.map (·.map Token.word) =
        some [(.ident, ['a']), (.ident, ['b'])] := by
  decide +kernel

end CaseAccessors
