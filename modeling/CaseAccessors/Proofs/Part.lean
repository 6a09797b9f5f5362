import CaseAccessors.Proofs.BodyReading

/-! Parts of a source, such as whole lines, and what reading finds in them: the members and cases
that they declare in the body around them, and the enums inside of them. Parts follow each other,
and the braces of an enum make a part of one. -/
namespace CaseAccessors

open Piece

/-- What is read of an enum: its name, its body, and the offset of the brace that closes it. -/
structure Finding where
  name : Text
  body : Body
  closeOffset : Nat

structure Finding.Of (r : Finding) (e : Enumeration) : Prop where
  name : e.decl.name = r.name
  members : e.decl.members = r.body.members.map .existing
  cases : e.decl.cases = r.body.cases
  closeOffset : e.closeOffset = r.closeOffset
  isIndent_memberIndent : ∀ m ∈ e.memberIndent, ∀ c ∈ m, Text.isIndent c = true

namespace Finding.Of

variable {r : Finding} {e : Enumeration}

theorem accessors (h : r.Of e) : e.decl.accessors = [] := by
  rw [Decl.accessors, h.members, List.filterMap_map]
  exact List.filterMap_eq_nil_iff.2 fun _ _ => rfl

theorem hasMember (h : r.Of e) (n : Text) : e.decl.hasMember n = r.body.members.contains n := by
  have hnames : e.decl.members.map Member.name = r.body.members := by
    rw [h.members, List.map_map]
    exact List.map_id _
  rw [Bool.eq_iff_iff, Decl.hasMember_iff, hnames, List.contains_iff_mem]

end Finding.Of

def Finding.At (r : Finding) (s : Site) : Prop := ∀ src, ∃ e, s.enumeration src = .ok e ∧ r.Of e

theorem Finding.exists_of_forall₂_at {rs : List Finding} {sites : List Site}
    (h : List.Forall₂ Finding.At rs sites) (src : Text) :
    ∃ es, List.Forall₂ (fun s e => s.enumeration src = .ok e) sites es ∧
      List.Forall₂ Finding.Of rs es := by
  induction h with
  | nil => exact ⟨[], .nil, .nil⟩
  | cons hr _ ih =>
    obtain ⟨e, he, hof⟩ := hr src
    obtain ⟨es, hes, hofs⟩ := ih
    exact ⟨e :: es, .cons he hes, .cons hof hofs⟩

def Unpointed (before : List Token) : Prop := ∀ t ∈ before.head?, t.kind ≠ .punct '.'

/-- The pieces are read as they stand, whatever declaration follows them, with the given members and
cases and with enums whose closing braces lie where they do if the pieces begin at an offset. -/
structure Part (ps : List Piece) (members : List Text) (cases : List Case)
    (found : Nat → List Finding) : Prop where
  reads : ∀ rest, Reads ps rest
  balanced : Balanced ((ps.filterMap word?).map Prod.fst)
  head : ∀ w ∈ (ps.filterMap word?).head?, BeginsDeclaration w
  last : ∀ w ∈ (ps.filterMap word?).getLast?, w.1 ≠ .punct '.'
  read : ∀ lead p rest, (∀ t ∈ rest.head?, BeginsDeclaration t.word) →
    Body.read (toTokens lead p ps ++ rest) =
      (Body.read rest).map fun b => (b.addCases cases).addMembers members
  among : ∀ lead p before rest, Unpointed before → ∃ sites,
    Site.among before (toTokens lead p ps ++ rest) =
        sites ++ Site.among ((toTokens lead p ps).reverse ++ before) rest ∧
      List.Forall₂ Finding.At (found p.offset) sites

theorem unpointed_append {ts before : List Token} {ws : List Word} (hts : ts.map Token.word = ws)
    (hlast : ∀ w ∈ ws.getLast?, w.1 ≠ .punct '.') (h : Unpointed before) :
    Unpointed (ts.reverse ++ before) := by
  intro t ht
  rw [List.head?_append, List.head?_reverse] at ht
  cases hback : ts.getLast? with
  | none =>
    rw [hback, Option.none_or] at ht
    exact h t ht
  | some u =>
    rw [hback, Option.some_or] at ht
    obtain rfl := Option.some.inj ht
    apply hlast u.word
    rw [← hts, List.getLast?_map, hback]
    rfl

namespace Part

theorem of_inert {ps : List Piece} {members : List Text} {cases : List Case}
    (hreads : ∀ rest, Reads ps rest) (hinert : Inert (ps.filterMap word?))
    (hhead : ∀ w ∈ (ps.filterMap word?).head?, BeginsDeclaration w)
    (hlast : ∀ w ∈ (ps.filterMap word?).getLast?, w.1 ≠ .punct '.')
    (hread : ∀ lead p rest, (∀ t ∈ rest.head?, BeginsDeclaration t.word) →
      Body.read (toTokens lead p ps ++ rest) =
        (Body.read rest).map fun b => (b.addCases cases).addMembers members) :
    Part ps members cases fun _ => [] := by
  refine ⟨hreads, hinert.balanced, hhead, hlast, hread, fun lead p before rest _ => ⟨[], ?_, .nil⟩⟩
  apply Site.among_append
  rw [map_word_toTokens]
  exact hinert.enumFree

theorem of_spells {s : Text} {ws : List Word} {members : List Text} {cases : List Case}
    (hs : Spells s ws) (hend : ∀ c ∈ s.getLast?, c = '\n') (hinert : Inert ws)
    (hlast : ∀ w ∈ ws.getLast?, w.1 ≠ .punct '.') (hdeclares : Declares ws members cases) :
    ∃ ps, textOf ps = s ∧ Part ps members cases fun _ => [] := by
  obtain ⟨ps, htext, hwords, hreads⟩ := hs.exists_pieces_of_newline hend
  refine ⟨ps, htext,
    of_inert hreads (hwords ▸ hinert) (hwords ▸ hdeclares.head) (hwords ▸ hlast) ?_⟩
  intro lead p rest hrest
  exact hdeclares.read _ rest (by rw [map_word_toTokens, hwords]) hrest

theorem of_properties {s : Text} {wss : List (List Word)} {names : List Text}
    (hs : Spells s wss.flatten)
    (hend : ∀ c ∈ s.getLast?, c = '\n') (h : List.Forall₂ IsProperty wss names) :
    ∃ ps, textOf ps = s ∧ Part ps names [] fun _ => [] := by
  refine of_spells hs hend (IsProperty.inert_flatten h) ?_
    (.flatten (h.imp fun _ _ h => h.declares))
  clear hs
  induction h with
  | nil => simp
  | @cons ws name wss names hproperty _ ih =>
    rw [List.flatten_cons, List.getLast?_append]
    intro w hw
    rcases Option.or_eq_some_iff.1 hw with hw | ⟨-, hw⟩
    · exact ih w hw
    · rw [hproperty.getLast?] at hw
      cases hw
      simp

theorem of_wordless {ps : List Piece} (hreads : ∀ rest, Reads ps rest)
    (hps : ps.filterMap word? = []) :
    Part ps [] [] fun _ => [] := by
  refine of_inert hreads (hps ▸ .nil) (by simp [hps]) (by simp [hps]) fun lead p rest hrest => ?_
  exact Declares.nil.read _ rest (by rw [map_word_toTokens, hps]) hrest

theorem nil : Part [] [] [] fun _ => [] := of_wordless (fun _ => trivial) rfl

theorem newline : Part [.blank '\n'] [] [] fun _ => [] :=
  of_wordless (fun _ => ⟨.blank (by decide), trivial⟩) rfl

variable {ps qs : List Piece} {ms ns : List Text} {cs ds : List Case}
  {found found' : Nat → List Finding}

theorem append (hp : Part ps ms cs found) (hq : Part qs ns ds found') :
    Part (ps ++ qs) (ms ++ ns) (cs ++ ds) fun offset =>
      found offset ++ found' (offset + Text.byteSize (textOf ps)) := by
  refine ⟨?_, ?_, ?_, ?_, ?_, ?_⟩
  · exact fun rest => reads_append.2 ⟨hp.reads _, hq.reads rest⟩
  · rw [List.filterMap_append, List.map_append]
    exact hp.balanced.append hq.balanced
  · rw [List.filterMap_append, List.head?_append]
    intro w hw
    rcases Option.or_eq_some_iff.1 hw with hw | ⟨-, hw⟩
    · exact hp.head w hw
    · exact hq.head w hw
  · rw [List.filterMap_append, List.getLast?_append]
    intro w hw
    rcases Option.or_eq_some_iff.1 hw with hw | ⟨-, hw⟩
    · exact hq.last w hw
    · exact hp.last w hw
  · intro lead p rest hrest
    obtain ⟨lead', htokens⟩ := toTokens_append ps qs lead p
    have hnext : ∀ t ∈ (toTokens lead' (p.advance (textOf ps)) qs ++ rest).head?,
        BeginsDeclaration t.word := by
      rw [List.head?_append]
      intro t ht
      rcases Option.or_eq_some_iff.1 ht with ht | ⟨-, ht⟩
      · apply hq.head t.word
        rw [← map_word_toTokens qs lead' (p.advance (textOf ps)), List.head?_map,
          Option.mem_def.1 ht]
        rfl
      · exact hrest t ht
    rw [htokens, List.append_assoc, hp.read _ _ _ hnext, hq.read _ _ _ hrest]
    cases Body.read rest with
    | error e => rfl
    | ok b => simp [Except.map, Body.addMembers, Body.addCases]
  · intro lead p before rest hbefore
    obtain ⟨lead', htokens⟩ := toTokens_append ps qs lead p
    obtain ⟨sites, hsites, hfound⟩ := hp.among lead p before
      (toTokens lead' (p.advance (textOf ps)) qs ++ rest) hbefore
    have hnext := unpointed_append (map_word_toTokens ps lead p) hp.last hbefore
    obtain ⟨sites', hsites', hfound'⟩ := hq.among lead' (p.advance (textOf ps)) _ rest hnext
    rw [Place.advance_offset] at hfound'
    refine ⟨sites ++ sites', ?_, List.rel_append hfound hfound'⟩
    rw [htokens, List.append_assoc, hsites, hsites', List.reverse_append]
    simp

end Part

inductive IsHeader : List Word → Text → Prop where
  | mk {front : List Word} {name : Text} :
    (front = [] ∨ ∃ a : Access, front = [(.ident, a.keyword)]) →
      name ∉ ["enum", "case", "var", "let"].map String.toList →
      IsHeader (front ++ [(.ident, "enum".toList), (.ident, name), sign '\x7b']) name

inductive IsEnum : List Token → Text → List Token → Token → Prop where
  | mk {header inside : List Token} {closing : Token} {name : Text} :
      IsHeader (header.map Token.word) name → closing.word = sign '\x7d' →
      IsEnum (header ++ (inside ++ [closing])) name inside closing

theorem IsHeader.exists_tokens {header : List Token} {name : Text}
    (h : IsHeader (header.map Token.word) name) :
    ∃ front keyword nameToken brace, header = front ++ [keyword, nameToken, brace] ∧
      (front.map Token.word = [] ∨ ∃ a : Access, front.map Token.word = [(.ident, a.keyword)]) ∧
      keyword.word = (.ident, "enum".toList) ∧ nameToken.word = (.ident, name) ∧
      brace.word = sign '\x7b' ∧ name ∉ ["enum", "case", "var", "let"].map String.toList := by
  generalize hws : header.map Token.word = ws at h
  obtain ⟨haccess, hfree⟩ := h
  obtain ⟨front, us, rfl, rfl, hus⟩ := List.map_eq_append_iff.1 hws
  obtain ⟨keyword, us, rfl, hkeyword, hus⟩ := List.map_eq_cons_iff.1 hus
  obtain ⟨nameToken, us, rfl, hname, hus⟩ := List.map_eq_cons_iff.1 hus
  obtain ⟨brace, us, rfl, hbrace, hus⟩ := List.map_eq_cons_iff.1 hus
  obtain rfl := List.map_eq_nil_iff.1 hus
  exact ⟨front, keyword, nameToken, brace, rfl, haccess, hkeyword, hname, hbrace, hfree⟩

theorem IsHeader.head {ws : List Word} {name : Text} (h : IsHeader ws name) (us : List Word) :
    ∀ w ∈ (ws ++ us).head?, BeginsDeclaration w := by
  obtain ⟨rfl | ⟨a, rfl⟩, -⟩ := h
  · rintro _ ⟨⟩
    exact ⟨rfl, by decide⟩
  · rintro _ ⟨⟩
    exact a.beginsDeclaration

theorem IsHeader.balanced {ws : List Word} {name : Text} (h : IsHeader ws name) {ks : List Kind}
    (hks : Balanced ks) : Balanced (ws.map Prod.fst ++ (ks ++ [.punct '\x7d'])) := by
  have hgroup : Balanced (.punct '\x7b' :: (ks ++ [.punct '\x7d'])) := .group rfl rfl hks .nil
  obtain ⟨rfl | ⟨a, rfl⟩, -⟩ := h
  · exact .other rfl rfl (.other rfl rfl hgroup)
  · exact .other rfl rfl (.other rfl rfl (.other rfl rfl hgroup))

namespace IsEnum

variable {ts inside : List Token} {name : Text} {closing : Token}

theorem closing_word (h : IsEnum ts name inside closing) : closing.word = sign '\x7d' := by
  obtain ⟨-, hclosing⟩ := h
  exact hclosing

/-- In the body around it an enum is a member. -/
theorem read (h : IsEnum ts name inside closing) (hinside : Balanced (inside.map (·.kind)))
    (rest : List Token) :
    Body.read (ts ++ rest) = (Body.read rest).map (Body.addMembers [unquoted name]) := by
  obtain ⟨hheader, hclosing⟩ := h
  obtain ⟨front, keyword, nameToken, brace, rfl, haccess, hkeyword, hname, hbrace, hfree⟩ :=
    hheader.exists_tokens
  obtain ⟨hkeywordKind, hkeywordText⟩ := Prod.mk.inj hkeyword
  obtain ⟨hnameKind, hnameText⟩ := Prod.mk.inj hname
  simp only [List.map_cons, List.map_nil, List.mem_cons, List.not_mem_nil, or_false, not_or]
    at hfree
  obtain ⟨-, hcase, hvar, hlet⟩ := hfree
  have hopen := Token.opener?_of_kind (c := '\x7b') rfl (isWord_of_word hbrace)
  have hclose := Token.closer?_of_kind (c := '\x7d') rfl (isWord_of_word hclosing)
  have hmember : ∀ us, Body.namedMember keyword (nameToken :: us) = [unquoted name] := fun us => by
    have hnaming : keyword.isWordIn namingWords = true := by
      rw [Token.isWordIn_iff, hkeywordText]
      exact ⟨hkeywordKind, by decide⟩
    simp [Body.namedMember, hnaming, hnameKind, Lexeme.name, hnameText]
  have hnone : ∀ us, Body.namedMember nameToken (brace :: us) = [] := fun us => by
    simp [Body.namedMember, isWord_of_word hbrace]
  simp only [List.append_assoc, List.cons_append, List.nil_append]
  rw [Body.read_access haccess, Body.read_name hkeywordKind (by rw [hkeywordText]; decide)
    (by rw [hkeywordText]; decide), hmember, Body.read_name hnameKind (by rwa [hnameText])
    (by rw [hnameText]; exact ⟨hvar, hlet⟩), hnone, Body.map_addMembers_nil, Body.read_opener hopen,
    afterGroup_append hinside hclose]

/-- An enum is a site, and further ones are those of its inside. -/
theorem among (h : IsEnum ts name inside closing) {r : Finding}
    (hr : ∀ s : Site, s.name.name = unquoted name → (∃ brace rest, brace.word = sign '\x7b' ∧
      s.behind = brace :: (inside ++ closing :: rest)) → r.At s) {found : List Finding}
    (hinside : ∀ before rest, Unpointed before → ∃ sites,
      Site.among before (inside ++ rest) = sites ++ Site.among (inside.reverse ++ before) rest ∧
        List.Forall₂ Finding.At found sites)
    {before : List Token} (hbefore : Unpointed before) (rest : List Token) :
    ∃ sites, Site.among before (ts ++ rest) = sites ++ Site.among (ts.reverse ++ before) rest ∧
      List.Forall₂ Finding.At (r :: found) sites := by
  obtain ⟨hheader, hclosing⟩ := h
  obtain ⟨front, keyword, nameToken, brace, rfl, haccess, hkeyword, hname, hbrace, hfree⟩ :=
    hheader.exists_tokens
  obtain ⟨hnameKind, hnameText⟩ := Prod.mk.inj hname
  have hfront : Inert (front.map Token.word) := by
    obtain hnil | ⟨a, ha⟩ := haccess
    · rw [hnil]
      exact .nil
    · rw [ha]
      exact a.inert
  have hlast : ∀ w ∈ (front.map Token.word).getLast?, w.1 ≠ .punct '.' := by
    obtain hnil | ⟨a, ha⟩ := haccess
    · simp [hnil]
    · simp [ha]
  have hunpointed : (!(front.reverse ++ before).head?.any (·.isPunct '.')) = true := by
    have hpoint := unpointed_append rfl hlast hbefore
    cases hhead : (front.reverse ++ before).head? with
    | none => rfl
    | some t => simpa [Lexeme.isPunct] using hpoint t hhead
  have hne : ∀ {t : Token}, t.word ≠ (.ident, "enum".toList) → ∀ before us,
      Site.among before (t :: us) = Site.among (t :: before) us := fun ht before us =>
    Site.among_cons (fun he => absurd he ht) before
  have hnameNe : nameToken.word ≠ (.ident, "enum".toList) := by
    rw [hname]
    rintro ⟨⟩
    exact hfree (by decide)
  have hbraceNe : brace.word ≠ (.ident, "enum".toList) := by simp [hbrace]
  have hclosingNe : closing.word ≠ (.ident, "enum".toList) := by simp [hclosing]
  obtain ⟨sites, hsites, hfound⟩ :=
    hinside (brace :: nameToken :: keyword :: (front.reverse ++ before))
    (closing :: rest) (by rintro _ ⟨⟩; simp [isWord_of_word hbrace])
  have hsite :=
    hr ⟨front.reverse ++ before, keyword, nameToken, brace :: (inside ++ closing :: rest)⟩
    (by simp [Lexeme.name, hnameText]) ⟨brace, rest, hbrace, rfl⟩
  refine ⟨_, ?_, .cons hsite hfound⟩
  simp only [List.append_assoc, List.cons_append, List.nil_append]
  rw [Site.among_append hfront.enumFree, Site.among, Token.isWord_iff.2 hkeyword, hnameKind,
    hunpointed, hne hnameNe, hne hbraceNe, hsites, hne hclosingNe]
  simp

end IsEnum

namespace Piece

def indentedBrace : (depth : Nat) → List Piece
  | 0 => [.closingBrace]
  | depth + 1 => .blank ' ' :: indentedBrace depth

theorem textOf_indentedBrace (depth : Nat) :
    textOf (indentedBrace depth) = List.replicate depth ' ' ++ ['\x7d'] := by
  induction depth with
  | zero => rfl
  | succ depth ih => rw [indentedBrace, textOf_cons, ih, List.replicate_succ]; rfl

theorem byteSize_indentedBrace (depth : Nat) :
    Text.byteSize (textOf (indentedBrace depth)) = depth + 1 := by
  rw [textOf_indentedBrace, Text.byteSize_append, Text.byteSize_replicate]
  rfl

theorem filterMap_indentedBrace (depth : Nat) :
    (indentedBrace depth).filterMap word? = [sign '\x7d'] := by
  induction depth with
  | zero => rfl
  | succ depth ih => exact ih

theorem reads_indentedBrace (depth : Nat) (rest : Text) : Reads (indentedBrace depth) rest := by
  induction depth with
  | zero => exact ⟨Spells.stands_mark (by decide) _, trivial⟩
  | succ depth ih => exact ⟨.blank (by decide), ih⟩

theorem exists_toTokens_indentedBrace (depth : Nat) (lead : Text) (p : Place) :
    ∃ closing, toTokens lead p (indentedBrace depth) = [closing] ∧ closing.word = sign '\x7d' ∧
      closing.place.offset = p.offset + depth := by
  induction depth generalizing lead p with
  | zero => exact ⟨_, rfl, rfl, rfl⟩
  | succ depth ih =>
    obtain ⟨closing, htokens, hword, hplace⟩ := ih (lead ++ [' ']) (p.advance [' '])
    refine ⟨closing, htokens, hword, ?_⟩
    have hspace : Text.byteSize [' '] = 1 := rfl
    rw [hplace, Place.advance_offset, hspace]
    omega

end Piece

theorem readEnumerations_of_among {ps : List Piece} (hps : Reads ps [])
    (hbalanced : Balanced ((ps.filterMap word?).map Prod.fst)) {sites : List Site}
    (hsites : Site.among [] (toTokens [] .start ps) = sites) {found : List Finding}
    (hfound : List.Forall₂ Finding.At found sites) :
    ∃ es, readEnumerations (textOf ps) = .ok es ∧ List.Forall₂ Finding.Of found es := by
  rw [← Token.map_kind_of_map_word (map_word_toTokens ps [] .start)] at hbalanced
  obtain ⟨es, hes, hof⟩ := Finding.exists_of_forall₂_at hfound (textOf ps)
  refine ⟨es, ?_, hof⟩
  rw [readEnumerations_textOf hps hbalanced, hsites]
  exact mapM_eq_ok_iff.2 hes

namespace Part

variable {ps : List Piece} {ms : List Text} {cs : List Case} {found : Nat → List Finding}

theorem read_inside (hp : Part ps ms cs found) (lead : Text) (p : Place) :
    Body.read (toTokens lead p ps) = .ok ⟨ms, cs⟩ := by
  have hread := hp.read lead p [] (by simp)
  rw [List.append_nil] at hread
  rw [hread, Body.read]
  simp [Except.map, Body.addMembers, Body.addCases, Body.empty]

theorem balanced_tokens (hp : Part ps ms cs found) (lead : Text) (p : Place) :
    Balanced ((toTokens lead p ps).map (·.kind)) := by
  rw [Token.map_kind_of_map_word (map_word_toTokens ps lead p)]
  exact hp.balanced

theorem exists_enumTokens {header : List Piece} {name : Text}
    (h : IsHeader (header.filterMap word?) name) (lead : Text) (p : Place) (ps : List Piece)
    (depth : Nat) :
    ∃ lead' closing, IsEnum (toTokens lead p (header ++ (ps ++ indentedBrace depth))) name
      (toTokens lead' (p.advance (textOf header)) ps) closing ∧
      closing.place.offset =
        p.offset + Text.byteSize (textOf header) + Text.byteSize (textOf ps) + depth := by
  obtain ⟨lead₁, h₁⟩ := toTokens_append header (ps ++ indentedBrace depth) lead p
  obtain ⟨lead₂, h₂⟩ := toTokens_append ps (indentedBrace depth) lead₁ (p.advance (textOf header))
  obtain ⟨closing, h₃, hclosing, hplace⟩ := exists_toTokens_indentedBrace depth lead₂
    ((p.advance (textOf header)).advance (textOf ps))
  refine ⟨lead₁, closing, ?_, ?_⟩
  · rw [h₁, h₂, h₃]
    exact .mk (by rwa [map_word_toTokens]) hclosing
  · rw [hplace, Place.advance_offset, Place.advance_offset]

theorem enum {header : List Piece} {name : Text} (hreads : ∀ rest, Reads header rest)
    (h : IsHeader (header.filterMap word?) name) (hp : Part ps ms cs found) (depth : Nat) :
    Part (header ++ (ps ++ indentedBrace depth)) [unquoted name] [] fun offset =>
      ⟨unquoted name, ⟨ms, cs⟩,
          offset + Text.byteSize (textOf header) + Text.byteSize (textOf ps) + depth⟩ ::
        found (offset + Text.byteSize (textOf header)) := by
  have hwords : (header ++ (ps ++ indentedBrace depth)).filterMap word? =
      header.filterMap word? ++ (ps.filterMap word? ++ [sign '\x7d']) := by
    rw [List.filterMap_append, List.filterMap_append, filterMap_indentedBrace]
  refine ⟨?_, ?_, ?_, ?_, ?_, ?_⟩
  · intro rest
    exact reads_append.2 ⟨hreads _, reads_append.2 ⟨hp.reads _, reads_indentedBrace depth rest⟩⟩
  · rw [hwords, List.map_append, List.map_append]
    exact h.balanced hp.balanced
  · rw [hwords]
    exact h.head _
  · rw [hwords, ← List.append_assoc, List.getLast?_concat]
    rintro _ ⟨⟩
    simp
  · intro lead p rest _
    obtain ⟨lead', closing, henum, -⟩ := exists_enumTokens h lead p ps depth
    rw [henum.read (hp.balanced_tokens _ _)]
    cases Body.read rest <;> rfl
  · intro lead p before rest hbefore
    obtain ⟨lead', closing, henum, hclose⟩ := exists_enumTokens h lead p ps depth
    refine henum.among ?_ ?_ hbefore rest
    · rintro s hname ⟨brace, rest, hbrace, hbehind⟩ src
      obtain ⟨e, he, hdecl, hmembers, hcases, hoffset, hindent⟩ :=
        Site.exists_enumeration hbehind hbrace
        henum.closing_word (hp.balanced_tokens _ _) (hp.read_inside _ _) src
      exact ⟨e, he, hdecl.trans hname, hmembers, hcases, hoffset.trans hclose, hindent⟩
    · intro before rest hbefore
      have hamong := hp.among lead' (p.advance (textOf header)) before rest hbefore
      rwa [Place.advance_offset] at hamong

theorem readEnumerations (hp : Part ps ms cs found) :
    ∃ es, CaseAccessors.readEnumerations (textOf ps) = .ok es ∧
      List.Forall₂ Finding.Of (found 0) es := by
  obtain ⟨sites, hsites, hfound⟩ := hp.among [] .start [] [] (by simp [Unpointed])
  have hnil : ∀ before, Site.among before [] = [] := fun _ => rfl
  rw [List.append_nil, hnil, List.append_nil] at hsites
  exact readEnumerations_of_among (hp.reads []) hp.balanced hsites hfound

end Part

end CaseAccessors
