import CaseAccessors.Proofs.ElementReading

/-! Case clauses as they are written, on lines of their own or behind semicolons. An enum with
nothing else in its body is read with just the cases that its clauses declare. -/
namespace CaseAccessors

open Piece

/-- A clause that began on a line ends in front of the tokens. -/
def EndsClause (line : Nat) (rest : List Token) : Prop :=
  ∀ t ∈ rest.head?, t.kind = .punct ';' ∨ (t.kind = .ident ∧ t.place.line ≠ line)

theorem EndsClause.endsElement {line : Nat} {rest : List Token} (h : EndsClause line rest) :
    EndsElement line rest := fun t ht => .inr (h t ht)

theorem EndsClause.ne_comma {line : Nat} {rest : List Token} (h : EndsClause line rest) :
    ∀ t ∈ rest.head?, t.kind ≠ .punct ',' := by
  intro t ht hkind
  rcases h t ht with hend | ⟨hend, -⟩ <;> rw [hend] at hkind <;> cases hkind

namespace CaseElement

theorem exists_pieces_joined (e : CaseElement) (es : List CaseElement) :
    ∃ ps, textOf ps = Text.joinWith ", ".toList ((e :: es).map text) ∧
      (∀ rest, Delimits rest → Reads ps rest) ∧ Inert (ps.filterMap word?) ∧
      ∀ lead p keyword rest, EndsClause p.line rest →
        readClause keyword (toTokens lead p ps ++ rest) = .ok ((e :: es).map declared, rest) := by
  induction es generalizing e with
  | nil =>
    obtain ⟨ps, htext, hread, hinert, htokens⟩ := e.exists_pieces
    refine ⟨ps, htext, hread, hinert, fun lead p keyword rest hrest => ?_⟩
    obtain ⟨name, ts, hts, hkind, hname, hbehind⟩ := htokens lead p
    obtain ⟨hfields, hafter⟩ := hbehind rest hrest.endsElement
    rw [hts, List.cons_append, readClause_last hkind hfields hafter hrest.ne_comma, hname]
    rfl
  | cons e' es ih =>
    obtain ⟨ps, htext, hread, hinert, htokens⟩ := e.exists_pieces
    obtain ⟨qs, hqtext, hqread, hqinert, hqclause⟩ := ih e'
    refine ⟨ps ++ .token (.punct ',') [','] :: .blank ' ' :: qs, ?_, ?_, ?_, ?_⟩
    · rw [textOf_append, htext, textOf_cons, textOf_cons, hqtext]
      simp [Piece.text]
    · intro rest hrest
      refine reads_append.2
        ⟨hread _ (by rintro _ ⟨⟩; exact .inl rfl), Spells.stands_mark (by decide) _, ?_⟩
      exact ⟨.blank (by decide), hqread rest hrest⟩
    · rw [List.filterMap_append, filterMap_word?_token]
      exact hinert.append (.mark rfl rfl hqinert)
    · intro lead p keyword rest hrest
      obtain ⟨lead', happend⟩ :=
        toTokens_append ps (.token (.punct ',') [','] :: .blank ' ' :: qs) lead p
      obtain ⟨name, ts, hts, hkind, hname, hbehind⟩ := htokens lead p
      have hline : (((p.advance (textOf ps)).advance [',']).advance [' ']).line = p.line := by
        rw [OneLine.line_eq (by decide), OneLine.line_eq (by decide), htext, e.oneLine.line_eq]
      have hmore :=
        hqclause [' '] (((p.advance (textOf ps)).advance [',']).advance [' ']) keyword rest
        (hline ▸ hrest)
      rw [happend, hts, toTokens, toTokens, List.nil_append, List.append_assoc, List.cons_append,
        List.cons_append]
      obtain ⟨hfields, hafter⟩ := hbehind (⟨⟨lead', .punct ',', [',']⟩, p.advance (textOf ps)⟩ ::
        (toTokens [' '] (((p.advance (textOf ps)).advance [',']).advance [' ']) qs ++ rest))
        (by rintro _ ⟨⟩; exact .inl rfl)
      rw [readClause_comma hkind hfields hafter rfl, hmore, hname]
      rfl

end CaseElement

structure CaseClause where
  indirect : Bool
  first : CaseElement
  more : List CaseElement

/-- Pieces on one line that are read as cases. -/
structure IsClause (ps : List Piece) (cases : List Case) : Prop where
  oneLine : OneLine (textOf ps)
  reads : ∀ rest, Delimits rest → Reads ps rest
  inert : Inert (ps.filterMap word?)
  head : ∀ lead p, ∃ t ts, toTokens lead p ps = t :: ts ∧ t.kind = .ident ∧ t.place = p
  read : ∀ lead p rest, EndsClause p.line rest →
    Body.read (toTokens lead p ps ++ rest) = (Body.read rest).map (Body.addCases cases)

theorem Body.read_indirect {t : Token} (ht : t.word = (.ident, "indirect".toList))
    (rest : List Token) :
    Body.read (t :: rest) = Body.read rest := by
  obtain ⟨hkind, htext⟩ := Prod.mk.inj ht
  have hnaming : t.isWordIn namingWords = false := by
    rw [Bool.eq_false_iff, ne_eq, Token.isWordIn_iff, htext]
    rintro ⟨-, hmem⟩
    exact absurd hmem (by decide)
  rw [Body.read_name hkind (by rw [htext]; decide) (by rw [htext]; decide),
    Body.namedMember_of_not_naming hnaming, Body.map_addMembers_nil]

theorem Body.read_semicolon {t : Token} (ht : t.kind = .punct ';') (rest : List Token) :
    Body.read (t :: rest) = Body.read rest := by
  have ho : t.opener? = none := by rw [Token.opener?, ht]; rfl
  have hno : ∀ s : String, t.isWord s = false := fun s => by simp [Lexeme.isWord, ht]
  have hnaming : t.isWordIn namingWords = false := by simp [Lexeme.isWordIn, ht]
  rw [Body.read]
  simp only [ho, hno, Token.bindsNames, Body.namedMember_of_not_naming hnaming, Option.isSome_none,
    Bool.or_self, Bool.false_eq_true, if_false]
  exact Body.map_addMembers_nil _

theorem IsClause.of_word {w : Text} {ps : List Piece} {cases : List Case}
    (hw : isPlainName w = true ∧ w ≠ "enum".toList) (hline : OneLine (textOf ps))
    (hreads : ∀ rest, Delimits rest → Reads ps rest) (hinert : Inert (ps.filterMap word?))
    (hread : ∀ t : Token, t.word = (.ident, w) → ∀ lead p rest, EndsClause p.line rest →
      Body.read (t :: (toTokens lead p ps ++ rest)) = (Body.read rest).map (Body.addCases cases)) :
    IsClause (.token .ident w :: .blank ' ' :: ps) cases := by
  have hword : OneLine w := .of_isPlainName hw.1
  constructor
  · exact hword.append (.cons (by decide) hline)
  · intro rest hrest
    exact ⟨Spells.stands_name hw.1 (by rintro _ ⟨⟩; rfl), .blank (by decide), hreads rest hrest⟩
  · rw [filterMap_word?_token]
    exact .cons rfl rfl (fun h => hw.2 (Prod.mk.inj h).2) hinert
  · intro lead p
    exact ⟨_, _, rfl, rfl, rfl⟩
  · intro lead p rest hrest
    apply hread _ rfl
    rwa [OneLine.line_eq (by decide), hword.line_eq]

namespace CaseClause

def text (c : CaseClause) : Text :=
  (if c.indirect then "indirect ".toList else []) ++
    ("case ".toList ++ Text.joinWith ", ".toList ((c.first :: c.more).map CaseElement.text))

def declared (c : CaseClause) : List Case := (c.first :: c.more).map CaseElement.declared

theorem exists_pieces (c : CaseClause) : ∃ ps, textOf ps = c.text ∧ IsClause ps c.declared := by
  obtain ⟨indirect, first, more⟩ := c
  obtain ⟨ps, htext, hreads, hinert, hclause⟩ := first.exists_pieces_joined more
  have hline : OneLine (textOf ps) := by
    rw [htext]
    apply OneLine.joinWith
    intro s hs
    obtain ⟨e, -, rfl⟩ := List.mem_map.1 hs
    exact e.oneLine
  have hcase : IsClause (.token .ident "case".toList :: .blank ' ' :: ps)
      ((first :: more).map CaseElement.declared) := by
    apply IsClause.of_word (by decide) hline hreads hinert
    intro t ht lead p rest hrest
    exact Body.read_case ht (hclause lead p t rest hrest)
  cases indirect with
  | false =>
    refine ⟨_, ?_, hcase⟩
    simp [text, htext, Piece.text]
  | true =>
    refine ⟨.token .ident "indirect".toList :: .blank ' ' :: _, ?_,
      IsClause.of_word (by decide) hcase.oneLine hcase.reads hcase.inert ?_⟩
    · simp [text, htext, Piece.text]
    · intro t ht lead p rest hrest
      rw [Body.read_indirect ht]
      exact hcase.read lead p rest hrest

end CaseClause

inductive Separator where
  | newline
  | semicolon

namespace Separator

def text : Separator → Text
  | newline => ['\n']
  | semicolon => "; ".toList

def pieces : Separator → List Piece
  | newline => [.blank '\n']
  | semicolon => [.token (.punct ';') [';'], .blank ' ']

theorem textOf_pieces (s : Separator) : textOf s.pieces = s.text := by
  cases s <;> rfl

theorem inert (s : Separator) : Inert (s.pieces.filterMap word?) := by
  cases s with
  | newline => exact .nil
  | semicolon => exact .mark rfl rfl .nil

theorem reads (s : Separator) (rest : Text) : Reads s.pieces rest := by
  cases s with
  | newline => exact ⟨.blank (by decide), trivial⟩
  | semicolon => exact ⟨Spells.stands_mark (by decide) _, .blank (by decide), trivial⟩

theorem delimits (s : Separator) (rest : Text) : Delimits (s.text ++ rest) := by
  cases s with
  | newline =>
    rintro _ ⟨⟩
    exact .inr (.inr rfl)
  | semicolon =>
    rintro _ ⟨⟩
    exact .inr (.inl rfl)

theorem read (s : Separator) {qs : List Piece}
    (hhead : ∀ lead p, ∀ t ∈ (toTokens lead p qs).head?, t.kind = .ident ∧
      t.place = p) (lead : Text)
    (p : Place) :
    EndsClause p.line (toTokens lead p (s.pieces ++ qs)) ∧ ∃ lead',
      Body.read (toTokens lead p (s.pieces ++ qs)) =
          Body.read (toTokens lead' (p.advance s.text) qs) := by
  cases s with
  | newline =>
    refine ⟨fun t ht => ?_, _, rfl⟩
    obtain ⟨hkind, hplace⟩ := hhead (lead ++ ['\n']) (p.advance ['\n']) t ht
    have hline : (p.advance ['\n']).line = p.line + 1 := by rw [Place.advance_line]; rfl
    exact .inr ⟨hkind, by rw [hplace, hline]; omega⟩
  | semicolon =>
    refine ⟨?_, _, Body.read_semicolon rfl _⟩
    rintro _ ⟨⟩
    exact .inl rfl

end Separator

/-- Clauses, each with a separator behind it; none need stand behind the last. -/
inductive Clauses where
  | done
  | last (c : CaseClause)
  | more (c : CaseClause) (s : Separator) (rest : Clauses)

namespace Clauses

def text : Clauses → Text
  | done => []
  | last c => c.text
  | more c s rest => c.text ++ s.text ++ rest.text

def declared : Clauses → List Case
  | done => []
  | last c => c.declared
  | more c _ rest => c.declared ++ rest.declared

end Clauses

/-- Pieces of whole clauses, which are read as cases and nothing else. -/
structure AreClauses (ps : List Piece) (cases : List Case) : Prop where
  reads : ∀ rest, Delimits rest → Reads ps rest
  inert : Inert (ps.filterMap word?)
  head : ∀ lead p, ∀ t ∈ (toTokens lead p ps).head?, t.kind = .ident ∧ t.place = p
  read : ∀ lead p, Body.read (toTokens lead p ps) = .ok ⟨[], cases⟩

namespace AreClauses

theorem nil : AreClauses [] [] := by
  refine ⟨fun _ _ => trivial, .nil, fun _ _ => by simp [toTokens], fun lead p => ?_⟩
  rw [toTokens, Body.read]
  rfl

theorem last {ps : List Piece} {cases : List Case} (h : IsClause ps cases) :
    AreClauses ps cases := by
  refine ⟨h.reads, h.inert, fun lead p t ht => ?_, fun lead p => ?_⟩
  · obtain ⟨u, us, htokens, hkind, hplace⟩ := h.head lead p
    rw [htokens] at ht
    cases ht
    exact ⟨hkind, hplace⟩
  · have hread := h.read lead p [] (by simp [EndsClause])
    rw [List.append_nil] at hread
    rw [hread, Body.read]
    simp [Except.map, Body.addCases, Body.empty]

theorem more {ps qs : List Piece} {cases cases' : List Case} (h : IsClause ps cases) (s : Separator)
    (hs : AreClauses qs cases') : AreClauses (ps ++ (s.pieces ++ qs)) (cases ++ cases') := by
  refine ⟨fun rest hrest => ?_, ?_, fun lead p t ht => ?_, fun lead p => ?_⟩
  · refine reads_append.2 ⟨h.reads _ ?_, reads_append.2 ⟨s.reads _, hs.reads rest hrest⟩⟩
    rw [textOf_append, s.textOf_pieces, List.append_assoc]
    exact s.delimits _
  · rw [List.filterMap_append, List.filterMap_append]
    exact h.inert.append (s.inert.append hs.inert)
  · obtain ⟨lead', happend⟩ := toTokens_append ps (s.pieces ++ qs) lead p
    obtain ⟨u, us, htokens, hkind, hplace⟩ := h.head lead p
    rw [happend, htokens] at ht
    cases ht
    exact ⟨hkind, hplace⟩
  · obtain ⟨lead', happend⟩ := toTokens_append ps (s.pieces ++ qs) lead p
    obtain ⟨hends, lead₂, hrest⟩ := s.read hs.head lead' (p.advance (textOf ps))
    rw [h.oneLine.line_eq] at hends
    rw [happend, h.read lead p _ hends, hrest, hs.read]
    rfl

end AreClauses

theorem Clauses.exists_pieces (cs : Clauses) : ∃ ps, textOf ps = cs.text ∧
    AreClauses ps cs.declared := by
  induction cs with
  | done => exact ⟨[], rfl, .nil⟩
  | last c =>
    obtain ⟨ps, htext, hclause⟩ := c.exists_pieces
    exact ⟨ps, htext, .last hclause⟩
  | more c s rest ih =>
    obtain ⟨ps, htext, hclause⟩ := c.exists_pieces
    obtain ⟨qs, hqtext, hclauses⟩ := ih
    refine ⟨ps ++ (s.pieces ++ qs), ?_, .more hclause s hclauses⟩
    rw [textOf_append, textOf_append, htext, s.textOf_pieces, hqtext, text, List.append_assoc]

theorem exists_enumeration_of_inert {ps : List Piece} {b : Body} (hreads : Reads ps ['\x7d'])
    (hinert : Inert (ps.filterMap word?))
    (hread : ∀ lead p, Body.read (toTokens lead p ps) = .ok b) :
    ∃ e, readEnumerations ("enum E \x7b\n".toList ++ textOf ps ++ ['\x7d']) = .ok [e] ∧
      e.decl.name = ['E'] ∧ e.decl.members = b.members.map .existing ∧ e.decl.cases = b.cases := by
  have hspells : Spells "enum E \x7b\n".toList
      [(.ident, "enum".toList), (.ident, ['E']), sign '\x7b'] := .fixed (by decide)
  obtain ⟨header, hheader, hwords, hheaderReads⟩ := hspells.exists_pieces_of_newline fun _ hc =>
    (Option.some.inj hc).symm
  have hisHeader : IsHeader (header.filterMap word?) ['E'] := by
    rw [hwords]
    exact .mk (.inl rfl) (by decide)
  have hall : Reads (header ++ (ps ++ indentedBrace 0)) [] :=
    reads_append.2 ⟨hheaderReads _, reads_append.2 ⟨hreads, reads_indentedBrace 0 []⟩⟩
  have hbalanced :
      Balanced (((header ++ (ps ++ indentedBrace 0)).filterMap word?).map Prod.fst) := by
    rw [List.filterMap_append, List.filterMap_append, filterMap_indentedBrace, List.map_append,
      List.map_append]
    exact hisHeader.balanced hinert.balanced
  obtain ⟨lead, closing, henum, -⟩ := Part.exists_enumTokens hisHeader [] .start ps 0
  have hfinding : ∀ s : Site, s.name.name = unquoted ['E'] →
    (∃ brace rest, brace.word = sign '\x7b' ∧
      s.behind =
        brace :: (toTokens lead (Place.start.advance (textOf header)) ps ++ closing :: rest)) →
        Finding.At ⟨['E'], b, closing.place.offset⟩ s := by
    rintro s hname ⟨brace, rest, hbrace, hbehind⟩ src
    have htokens :
        Balanced ((toTokens lead (Place.start.advance (textOf header)) ps).map (·.kind)) := by
      rw [Token.map_kind_of_map_word (map_word_toTokens ps _ _)]
      exact hinert.balanced
    obtain ⟨e, he, hdecl, hmembers, hcases, hoffset, hindent⟩ :=
      Site.exists_enumeration hbehind hbrace
      henum.closing_word htokens (hread _ _) src
    exact ⟨e, he, hdecl.trans hname, hmembers, hcases, hoffset, hindent⟩
  have hinside : ∀ before rest, Unpointed before → ∃ sites,
      Site.among before (toTokens lead (Place.start.advance (textOf header)) ps ++ rest) =
        sites ++ Site.among
          ((toTokens lead (Place.start.advance (textOf header)) ps).reverse ++ before) rest ∧
      List.Forall₂ Finding.At [] sites := by
    intro before rest _
    refine ⟨[], Site.among_append ?_ before rest, .nil⟩
    rw [map_word_toTokens]
    exact hinert.enumFree
  have hstart : Unpointed [] := by simp [Unpointed]
  obtain ⟨sites, hsites, hfound⟩ := henum.among hfinding hinside hstart []
  have hnil : ∀ before, Site.among before [] = [] := fun _ => rfl
  rw [List.append_nil, hnil, List.append_nil] at hsites
  obtain ⟨es, hes, hof⟩ := readEnumerations_of_among hall hbalanced hsites hfound
  rw [textOf_append, textOf_append, hheader, textOf_indentedBrace, ← List.append_assoc] at hes
  cases hof with
  | @cons _ e _ es hof hrest =>
    cases hrest
    exact ⟨e, hes, hof.name, hof.members, hof.cases⟩

/-- Case clauses are read back: an enum of nothing but clauses has no members, and its cases are the
elements of the clauses in their order, under their names and with the labels and types of their
fields. -/
theorem readEnumerations_clauses (cs : Clauses) :
    ∃ e, readEnumerations ("enum E \x7b\n".toList ++ cs.text ++ "\n\x7d".toList) = .ok [e] ∧
      e.decl.name = ['E'] ∧ e.decl.members = [] ∧ e.decl.cases = cs.declared := by
  obtain ⟨ps, htext, hclauses⟩ := cs.exists_pieces
  have hdelimits : Delimits ['\n', '\x7d'] := by
    rintro _ ⟨⟩
    exact .inr (.inr rfl)
  have hend : Reads [.blank '\n'] ['\x7d'] := ⟨.blank (by decide), trivial⟩
  have hreads : Reads (ps ++ [Piece.blank '\n']) ['\x7d'] :=
    reads_append.2 ⟨hclauses.reads _ hdelimits, hend⟩
  have hinert : Inert ((ps ++ [Piece.blank '\n']).filterMap word?) := by
    rw [List.filterMap_append]
    exact hclauses.inert.append .nil
  have hread :
      ∀ lead p, Body.read (toTokens lead p (ps ++ [Piece.blank '\n'])) = .ok ⟨[], cs.declared⟩ := by
    intro lead p
    obtain ⟨lead', happend⟩ := toTokens_append ps [Piece.blank '\n'] lead p
    rw [happend, toTokens, toTokens, List.append_nil]
    exact hclauses.read lead p
  obtain ⟨e, he, hname, hmembers, hcases⟩ := exists_enumeration_of_inert hreads hinert hread
  rw [textOf_append, htext] at he
  refine ⟨e, ?_, hname, hmembers, hcases⟩
  rw [← he]
  simp [Piece.text]

example :
    let first : CaseElement := ⟨⟨"a".toList, by decide⟩,
      [.renamed none ⟨"m".toList, by decide⟩ (.array (.named ⟨"Int".toList, by decide⟩))],
      some (.integer true ⟨"1".toList, by decide⟩)⟩
    let second : CaseElement := ⟨⟨"default".toList, by decide⟩, [], none⟩
    let cs : Clauses := .more ⟨true, first, []⟩ .semicolon (.last ⟨false, second, []⟩)
    cs.text = "indirect case a(_ m: [Int]) = -1; case `default`".toList ∧
      cs.declared = [⟨"a".toList, [⟨none, "[Int]".toList⟩]⟩, ⟨"default".toList, []⟩] := by
  decide

end CaseAccessors
