import CaseAccessors.Proofs.AccessorWords
import CaseAccessors.Proofs.BodyEnd
import CaseAccessors.Proofs.InsertedText

/-! What reading a body makes of its parts, one after the other. -/
namespace CaseAccessors

namespace Body

theorem map_addMembers_nil (x : Except SourceError Body) : x.map (addMembers []) = x := by
  cases x <;> rfl

theorem namedMember_of_not_naming {t : Token} (h : t.isWordIn namingWords = false)
    (rest : List Token) :
    namedMember t rest = [] := by
  unfold namedMember
  split
  · simp [h]
  · rfl

theorem read_opener {t : Token} {c : Char} (ht : t.opener? = some c) (rest : List Token) :
    read (t :: rest) = read (afterGroup rest) := by
  rw [read]
  simp [ht]

theorem read_bindings {t : Token} (ht : t.word = (.ident, "var".toList)) (rest : List Token) :
    read (t :: rest) = (read (readBindings rest).2).map (addMembers (readBindings rest).1) := by
  obtain ⟨hkind, htext⟩ := Prod.mk.inj ht
  have ho : t.opener? = none := by rw [Token.opener?, hkind]
  have hcase : t.isWord "case" = false := by
    rw [Bool.eq_false_iff, ne_eq, Token.isWord_iff, ht]
    decide
  have hvar : t.bindsNames = true := by
    rw [Token.bindsNames, Token.isWord_iff.2 ht, Bool.true_or]
  rw [read]
  simp [ho, hcase, hvar]

theorem read_case {t : Token} (ht : t.word = (.ident, "case".toList)) {rest behind : List Token}
    {cases : List Case} (h : readClause t rest = .ok (cases, behind)) :
    read (t :: rest) = (read behind).map (addCases cases) := by
  obtain ⟨hkind, htext⟩ := Prod.mk.inj ht
  have ho : t.opener? = none := by rw [Token.opener?, hkind]
  rw [read]
  simp only [ho, Token.isWord_iff.2 ht, Option.isSome_none, Bool.false_eq_true, if_false, if_true]
  split
  · next h' => rw [h] at h'; cases h'
  · next h' => rw [h] at h'; cases h'; rfl

theorem read_name {t : Token} (hkind : t.kind = .ident) (hcase : t.text ≠ "case".toList)
    (hbinds : t.text ≠ "var".toList ∧ t.text ≠ "let".toList) (rest : List Token) :
    read (t :: rest) = (read rest).map (addMembers (namedMember t rest)) := by
  have ho : t.opener? = none := by rw [Token.opener?, hkind]
  have hno : ∀ s : String, t.text ≠ s.toList → t.isWord s = false := fun s hs => by
    rw [Bool.eq_false_iff, ne_eq, Token.isWord_iff, Token.word, Prod.mk.injEq]
    exact fun h => hs h.2
  have hvar : t.bindsNames = false := by
    rw [Token.bindsNames, hno _ hbinds.1, hno _ hbinds.2, Bool.false_or]
  rw [read]
  simp [ho, hno _ hcase, hvar]

end Body

def BeginsDeclaration (w : Word) : Prop := w.1 = .ident ∧ isDeclarationWord w.2 = true

theorem BeginsDeclaration.kind_eq {t : Token} (h : BeginsDeclaration t.word) : t.kind = .ident :=
  h.1

/-- Reading a body that begins with the words finds the members and cases in front of all others, if
a further declaration follows the words or nothing does. -/
structure Declares (ws : List Word) (members : List Text) (cases : List Case) : Prop where
  head : ∀ w ∈ ws.head?, BeginsDeclaration w
  read : ∀ ts rest, ts.map Token.word = ws → (∀ t ∈ rest.head?, BeginsDeclaration t.word) →
    Body.read (ts ++ rest) =
      (Body.read rest).map fun b => (b.addCases cases).addMembers members

namespace Declares

theorem nil : Declares [] [] [] := by
  refine ⟨by simp, fun ts rest hts _ => ?_⟩
  rw [List.map_eq_nil_iff.1 hts, List.nil_append]
  cases Body.read rest <;> rfl

theorem append {ws us : List Word} {ms ns : List Text} {cs ds : List Case} (hw : Declares ws ms cs)
    (hu : Declares us ns ds) : Declares (ws ++ us) (ms ++ ns) (cs ++ ds) := by
  constructor
  · cases ws with
    | nil => exact hu.head
    | cons w ws => exact hw.head
  · intro ts rest hts hrest
    obtain ⟨ts₁, ts₂, rfl, h₁, rfl⟩ := List.map_eq_append_iff.1 hts
    have hhead : ∀ t ∈ (ts₂ ++ rest).head?, BeginsDeclaration t.word := by
      cases ts₂ with
      | nil => exact hrest
      | cons t ts₂ =>
        rintro _ ⟨⟩
        exact hu.head _ rfl
    rw [List.append_assoc, hw.read ts₁ _ h₁ hhead, hu.read ts₂ rest rfl hrest]
    cases Body.read rest with
    | error e => rfl
    | ok b => simp [Except.map, Body.addMembers, Body.addCases]

theorem flatten {wss : List (List Word)} {names : List Text}
    (h : List.Forall₂ (fun ws name => Declares ws [name] []) wss names) :
    Declares wss.flatten names [] := by
  induction h with
  | nil => exact nil
  | cons hw _ ih => exact hw.append ih

end Declares

theorem Access.beginsDeclaration (a : Access) : BeginsDeclaration (.ident, a.keyword) :=
  ⟨rfl, by cases a <;> decide⟩

theorem Access.keyword_ne (a : Access) : a.keyword ≠ "case".toList ∧ a.keyword ≠ "var".toList ∧
    a.keyword ≠ "let".toList ∧ a.keyword ∉ namingWords := by
  cases a <;> decide

theorem Body.read_access {ts : List Token}
    (hts : ts.map Token.word = [] ∨ ∃ a : Access, ts.map Token.word = [(.ident, a.keyword)])
    (rest : List Token) : Body.read (ts ++ rest) = Body.read rest := by
  obtain hts | ⟨a, hts⟩ := hts
  · rw [List.map_eq_nil_iff.1 hts, List.nil_append]
  · obtain ⟨t, us, rfl, ht, hus⟩ := List.map_eq_cons_iff.1 hts
    obtain ⟨hkind, htext⟩ := Prod.mk.inj ht
    obtain ⟨hcase, hvar, hlet, hnaming⟩ := a.keyword_ne
    rw [← htext] at hcase hvar hlet hnaming
    have hno : t.isWordIn namingWords = false := by
      rw [Bool.eq_false_iff, ne_eq, Token.isWordIn_iff]
      exact fun h => hnaming h.2
    rw [List.map_eq_nil_iff.1 hus, List.singleton_append, Body.read_name hkind hcase ⟨hvar, hlet⟩,
      Body.namedMember_of_not_naming hno, Body.map_addMembers_nil]

theorem isWord_of_word {t : Token} {c : Char} (h : t.word = sign c) : t.kind = .punct c :=
  congrArg Prod.fst h

theorem readClause_last {keyword name : Token} (hname : name.kind = .ident)
    {rest behind : List Token}
    {fields : List Field} (hfields : readFields (payloadTokens rest) = .ok fields)
    (hafter : afterRawValue (afterPayload rest) = behind)
    (hbehind : ∀ t ∈ behind.head?, t.kind ≠ .punct ',') :
    readClause keyword (name :: rest) = .ok ([⟨name.name, fields⟩], behind) := by
  rw [readClause, if_pos hname]
  simp only [hfields]
  split
  · next comma more heq =>
    rw [hafter] at heq
    have hcomma : comma.isPunct ',' = false := by
      rw [Bool.eq_false_iff, ne_eq, Token.isPunct_iff]
      rw [heq] at hbehind
      exact hbehind comma rfl
    rw [hcomma, heq]
    rfl
  · next heq =>
    rw [hafter] at heq
    rw [heq]

theorem readClause_comma {keyword name comma : Token} (hname : name.kind = .ident)
    {rest more : List Token} {fields : List Field}
    (hfields : readFields (payloadTokens rest) = .ok fields)
    (hafter : afterRawValue (afterPayload rest) = comma :: more)
    (hcomma : comma.kind = .punct ',') :
    readClause keyword (name :: rest) = (readClause keyword more).map
      fun (cases, behind) => (⟨name.name, fields⟩ :: cases, behind) := by
  rw [readClause, if_pos hname]
  simp only [hfields]
  split
  · next heq =>
    rw [hafter] at heq
    cases heq
    rw [if_pos (Token.isPunct_iff.2 hcomma)]
  · next heq =>
    rw [hafter] at heq
    cases heq

theorem no_payload {rest : List Token} (h : ∀ t ∈ rest.head?, t.kind ≠ .punct '(') :
    payloadTokens rest = [] ∧ afterPayload rest = rest := by
  cases rest with
  | nil => exact ⟨rfl, rfl⟩
  | cons t rest =>
    have ht : t.isPunct '(' = false := by simp [Lexeme.isPunct, h t rfl]
    rw [payloadTokens, afterPayload, ht]
    exact ⟨rfl, rfl⟩

theorem no_rawValue {rest : List Token} (h : ∀ t ∈ rest.head?, t.kind ≠ .punct '=') :
    afterRawValue rest = rest := by
  cases rest with
  | nil => rfl
  | cons t rest =>
    have ht : t.isPunct '=' = false := by simp [Lexeme.isPunct, h t rfl]
    rw [afterRawValue, ht]
    rfl

theorem payload_of_group {o k : Token} {inside : List Token} (ho : o.word = sign '(')
    (hk : k.word = sign ')') (hinside : Balanced (inside.map (·.kind))) (rest : List Token) :
    payloadTokens (o :: (inside ++ k :: rest)) = inside ∧
      afterPayload (o :: (inside ++ k :: rest)) = rest := by
  have hopen : o.isPunct '(' = true := Token.isPunct_iff.2 (isWord_of_word ho)
  have hclose := Token.closer?_of_kind (c := ')') rfl (isWord_of_word hk)
  rw [payloadTokens, afterPayload, hopen, group?_eq_some hinside hclose]
  exact ⟨rfl, rfl⟩

theorem IsProperty.declares {ws : List Word} {name : Text} (h : IsProperty ws name) :
    Declares ws [name] [] := by
  obtain ⟨haccess, htype, hskips, hinside⟩ := h
  rename_i access type inside name
  constructor
  · obtain rfl | ⟨a, rfl⟩ := haccess
    · rintro _ ⟨⟩
      exact ⟨rfl, by decide⟩
    · rintro _ ⟨⟩
      exact a.beginsDeclaration
  · intro ts rest hts _
    obtain ⟨front, us, rfl, rfl, hus⟩ := List.map_eq_append_iff.1 hts
    obtain ⟨var, us, rfl, hvar, hus⟩ := List.map_eq_cons_iff.1 hus
    obtain ⟨name', us, rfl, hname, hus⟩ := List.map_eq_cons_iff.1 hus
    obtain ⟨colon, us, rfl, hcolon, hus⟩ := List.map_eq_cons_iff.1 hus
    obtain ⟨tys, us, rfl, htys, hus⟩ := List.map_eq_append_iff.1 hus
    obtain ⟨brace, us, rfl, hbrace, hus⟩ := List.map_eq_cons_iff.1 hus
    obtain ⟨ins, us, rfl, hins, hus⟩ := List.map_eq_append_iff.1 hus
    obtain ⟨closing, us, rfl, hclosing, hus⟩ := List.map_eq_cons_iff.1 hus
    obtain rfl := List.map_eq_nil_iff.1 hus
    have hmore : readMoreBindings (colon :: (tys ++ brace :: (ins ++ closing :: rest))) =
        ([], brace :: (ins ++ closing :: rest)) := by
      have hskip : Skips (sign ':' :: type) := .sign (by decide) (by decide) (by decide) hskips
      have hall := hskip (colon :: tys) (brace :: (ins ++ closing :: rest))
        (by rw [List.map_cons, hcolon, htys])
      rw [List.cons_append] at hall
      rw [hall, readMoreBindings]
      simp [Lexeme.isPunct, endsBindings, isWord_of_word hbrace]
    have hbind : readBindings (name' :: colon :: (tys ++ brace :: (ins ++ closing :: rest))) =
        ([unquoted name], brace :: (ins ++ closing :: rest)) := by
      obtain ⟨hkind, htext⟩ := Prod.mk.inj hname
      rw [readBindings, if_pos hkind, hmore]
      simp [Lexeme.name, htext]
    have hopen := Token.opener?_of_kind (c := '\x7b') rfl (isWord_of_word hbrace)
    have hclose := Token.closer?_of_kind (c := '\x7d') rfl (isWord_of_word hclosing)
    have hbalanced : Balanced (ins.map (·.kind)) :=
      Token.map_kind_of_map_word hins ▸ hinside.balanced
    rw [List.append_assoc, Body.read_access (haccess.imp id id)]
    simp only [List.cons_append, List.append_assoc, List.nil_append]
    rw [Body.read_bindings hvar, hbind, Body.read_opener hopen, afterGroup_append hbalanced hclose]
    rfl

theorem Site.exists_enumeration {s : Site} {brace closing : Token} {inside rest : List Token}
    (hbehind : s.behind = brace :: (inside ++ closing :: rest)) (hbrace : brace.word = sign '\x7b')
    (hclosing : closing.word = sign '\x7d') (hinside : Balanced (inside.map (·.kind))) {b : Body}
    (hread : Body.read inside = .ok b) (src : Text) :
    ∃ e, s.enumeration src = .ok e ∧ e.decl.name = s.name.name ∧
      e.decl.members = b.members.map .existing ∧ e.decl.cases = b.cases ∧
      e.closeOffset = closing.place.offset ∧
      ∀ m ∈ e.memberIndent, ∀ c ∈ m, Text.isIndent c = true := by
  have hclose := Token.closer?_of_kind (c := '\x7d') rfl (isWord_of_word hclosing)
  have hbody : s.body = .ok (brace, ⟨inside, closing, rest⟩) := by
    have hopen : (!brace.isPunct '\x7b') = false := by
      rw [Token.isPunct_iff.2 (isWord_of_word hbrace), Bool.not_true]
    rw [body, hbehind, List.dropWhile_cons_of_neg (by simp [hopen])]
    simp only [group?_eq_some hinside hclose rest]
  refine ⟨_, enumeration_eq_ok_iff.2 ⟨brace, _, b, hbody, hread, rfl⟩, rfl, rfl, rfl, rfl, ?_⟩
  intro m hm c hc
  obtain ⟨t, -, rfl⟩ := Option.map_eq_some_iff.1 hm
  exact Text.isIndent_of_mem_lineIndent? hc

end CaseAccessors
