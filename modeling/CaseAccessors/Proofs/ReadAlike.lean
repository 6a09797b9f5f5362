import CaseAccessors.Proofs.Counterpart
import CaseAccessors.Proofs.Squeeze

/-! Two readings side by side. Nothing of a token decides how it is read but its kind, its text and
which tokens it shares a line with. So two lists of tokens that belong together pairwise are read
alike, and where reading fails, it fails at tokens that belong together. -/
namespace CaseAccessors

/-- Tokens with nothing but blanks in front of them, and with some in front of both or of neither.
-/
def SpacedTokens (R : Token → Token → Prop) : Prop :=
  ∀ t u, R t u → (∀ c ∈ t.lead, isBlank c = true) ∧ (∀ c ∈ u.lead, isBlank c = true) ∧
    (t.lead = [] ↔ u.lead = [])

/-- What leads up to tokens that belong together differs in its blanks only. -/
def LeadAlike (R : Token → Token → Prop) : Prop := ∀ t u, R t u → Text.SpacedAlike t.lead u.lead

section Types

variable {R : Token → Token → Prop} {ts us : List Token}

theorem SpacedTokens.leadAlike (h : SpacedTokens R) : LeadAlike R := by
  intro t u htu
  obtain ⟨ht, hu, hempty⟩ := h t u htu
  by_cases hlead : t.lead = []
  · rw [hlead, hempty.1 hlead]
    exact .nil
  · have hblanks := Text.SpacedAlike.blanks hlead (fun h => hlead (hempty.2 h)) ht hu .nil
    rwa [List.append_nil, List.append_nil] at hblanks

theorem spacedAlike_flatMap (hR : Counterparts R) (hlead : LeadAlike R) (h : List.Forall₂ R ts us) :
    Text.SpacedAlike (ts.flatMap fun t => t.lead ++ t.text)
      (us.flatMap fun u => u.lead ++ u.text) := by
  induction h with
  | nil => exact .nil
  | @cons t u _ _ htu _ ih =>
    have htext : Text.SpacedAlike t.text u.text := Token.text_congr (hR.word htu) ▸ .refl _
    rw [List.flatMap_cons, List.flatMap_cons]
    exact ((hlead t u htu).append htext).append ih

theorem collapse_sourceOf (hR : Counterparts R) (hlead : LeadAlike R) (h : List.Forall₂ R ts us) :
    (Token.sourceOf ts).collapse = (Token.sourceOf us).collapse := by
  cases h with
  | nil => rfl
  | @cons t u ts us htu h =>
    have htext : Text.SpacedAlike t.text u.text := Token.text_congr (hR.word htu) ▸ .refl _
    rw [Text.collapse, Text.collapse, Token.sourceOf, Token.sourceOf,
      (htext.append (spacedAlike_flatMap hR hlead h)).words]

end Types

/-- The types are the same too if the blanks between tokens stand in the same places, which is what
`spaced` stands for. -/
def Field.Rel (spaced : Prop) (f g : Field) : Prop := f.label = g.label ∧ (spaced → f.type = g.type)

structure Case.Rel (spaced : Prop) (c d : Case) : Prop where
  name : c.name = d.name
  fields : List.Forall₂ (Field.Rel spaced) c.fields d.fields

structure Body.Rel (spaced : Prop) (b b' : Body) : Prop where
  members : b.members = b'.members
  cases : List.Forall₂ (Case.Rel spaced) b.cases b'.cases

theorem Body.Rel.eq {b b' : Body} (h : b.Rel True b') : b = b' := by
  have hfields : ∀ {fs gs : List Field}, List.Forall₂ (Field.Rel True) fs gs →
      fs = gs := fun hfs => by
    rw [← List.forall₂_eq_eq_eq]
    exact hfs.imp fun f g hfg => congrArg₂ Field.mk hfg.1 (hfg.2 trivial)
  have hcases : b.cases = b'.cases := by
    rw [← List.forall₂_eq_eq_eq]
    exact h.cases.imp fun c d hcd => congrArg₂ Case.mk hcd.name (hfields hcd.fields)
  exact congrArg₂ Body.mk h.members hcases

section Reading

variable {R : Token → Token → Prop} {spaced : Prop} {ts us : List Token}

theorem rel_typeTokens (hR : Counterparts R) (h : List.Forall₂ R ts us) :
    List.Forall₂ R (typeTokens ts) (typeTokens us) ∧ fieldLabel? ts = fieldLabel? us := by
  unfold typeTokens fieldLabel?
  obtain ⟨hts, hus⟩ | ⟨p, q, hts, hus, hlabel, hbehind⟩ := rel_option_cases (rel_splitLabel? hR h)
  · rw [hts, hus]
    exact ⟨rel_beforeDefault hR h, rfl⟩
  · rw [hts, hus, Option.bind_some, Option.bind_some, hlabel]
    exact ⟨rel_beforeDefault hR hbehind, rfl⟩

theorem rel_readField (hR : Counterparts R) (hlead : spaced → LeadAlike R) {last last' : Token}
    (hlast : R last last') (h : List.Forall₂ R ts us) :
    Together R (Field.Rel spaced) (readField last ts) (readField last' us) := by
  obtain ⟨htype, hlabel⟩ := rel_typeTokens hR h
  rw [readField_eq, readField_eq]
  have hsource := fun hs => collapse_sourceOf hR (hlead hs) htype
  generalize typeTokens ts = ts' at *
  generalize typeTokens us = us' at *
  cases htype with
  | nil => exact .error _ hlast
  | cons => exact .ok ⟨hlabel, hsource⟩

theorem rel_readFields (hR : Counterparts R) (hlead : spaced → LeadAlike R)
    (h : List.Forall₂ R ts us) :
    Together R (List.Forall₂ (Field.Rel spaced)) (readFields ts) (readFields us) := by
  have hlast : ∀ {range range' : List Token}, List.Forall₂ R range range' →
      Option.Rel (fun p q : Token × List Token => R p.1 q.1 ∧ List.Forall₂ R p.2 q.2)
        (range.getLast?.map fun last => (last, range))
        (range'.getLast?.map fun last => (last, range')) := fun hrange =>
    rel_option_map (rel_getLast? hrange) fun _ _ hlast => ⟨hlast, hrange⟩
  have hranges := List.rel_filterMap (fun _ _ hrange => hlast hrange) (rel_splitFields hR h)
  exact Together.mapM (fun _ _ hrange => rel_readField hR hlead hrange.1 hrange.2) hranges

theorem rel_payloadTokens (hR : Counterparts R) (h : List.Forall₂ R ts us) :
    List.Forall₂ R (payloadTokens ts) (payloadTokens us) := by
  cases h with
  | nil => exact .nil
  | cons htu h =>
    rw [payloadTokens, payloadTokens, Token.isPunct_congr (hR.word htu)]
    split
    · obtain ⟨hts, hus⟩ | ⟨g, g', hts, hus, hg⟩ := rel_option_cases (rel_group? hR h 0)
      · rwa [hts, hus]
      · rw [hts, hus]
        exact hg.inside
    · exact .nil

theorem rel_afterPayload (hR : Counterparts R) (h : List.Forall₂ R ts us) :
    List.Forall₂ R (afterPayload ts) (afterPayload us) := by
  cases h with
  | nil => exact .nil
  | cons htu h =>
    rw [afterPayload, afterPayload, Token.isPunct_congr (hR.word htu)]
    split
    · obtain ⟨hts, hus⟩ | ⟨g, g', hts, hus, hg⟩ := rel_option_cases (rel_group? hR h 0)
      · rw [hts, hus]
        exact .nil
      · rw [hts, hus]
        exact hg.behind
    · exact .cons htu h

theorem rel_afterRawValue (hR : Counterparts R) (h : List.Forall₂ R ts us) :
    List.Forall₂ R (afterRawValue ts) (afterRawValue us) := by
  cases h with
  | nil => exact .nil
  | @cons t u ts us htu h =>
    rw [afterRawValue.eq_1, afterRawValue.eq_1, Token.isPunct_congr (hR.word htu)]
    split
    · refine rel_dropWhile (fun v w hvw => ?_) h
      have hline : (v.place.line == t.place.line) = (w.place.line == u.place.line) := by
        rw [Bool.eq_iff_iff, beq_iff_eq, beq_iff_eq]
        exact hR.line hvw htu
      rw [hline, Token.isPunct_congr (hR.word hvw), Token.isPunct_congr (hR.word hvw),
        Token.startsDeclaration_congr (hR.word hvw)]
    · exact .cons htu h

def ClauseRel (R : Token → Token → Prop) (spaced : Prop) (p q : List Case × List Token) : Prop :=
  List.Forall₂ (Case.Rel spaced) p.1 q.1 ∧ List.Forall₂ R p.2 q.2

theorem rel_readClause (hR : Counterparts R)
    (hlead : spaced → LeadAlike R) {keyword keyword' : Token}
    (hkeyword : R keyword keyword') (h : List.Forall₂ R ts us) :
    Together R (ClauseRel R spaced) (readClause keyword ts) (readClause keyword' us) := by
  induction hn : ts.length using Nat.strong_induction_on generalizing ts us with
  | _ n ih =>
    cases h with
    | nil =>
      rw [readClause, readClause]
      exact .error _ hkeyword
    | @cons t u ts us htu h =>
      rw [readClause_cons, readClause_cons, Token.kind_congr (hR.word htu),
        Token.name_congr (hR.word htu)]
      split
      · refine (rel_readFields hR hlead (rel_payloadTokens hR h)).bind fun fields fields' hfields =>
          ?_
        have hbehind := rel_afterRawValue hR (rel_afterPayload hR h)
        have hlen := Nat.le_trans (length_afterRawValue (afterPayload ts)) (length_afterPayload ts)
        generalize afterRawValue (afterPayload ts) = behind at hbehind hlen ⊢
        generalize afterRawValue (afterPayload us) = behind' at hbehind ⊢
        cases hbehind with
        | nil => exact .ok ⟨.cons ⟨rfl, hfields⟩ .nil, .nil⟩
        | @cons comma comma' more more' hcomma hmore =>
          dsimp only
          rw [Token.isPunct_congr (hR.word hcomma)]
          simp only [List.length_cons] at hn hlen
          split
          · exact (ih more.length (by omega) hmore rfl).map fun _ _ hrest =>
              ⟨.cons ⟨rfl, hfields⟩ hrest.1, hrest.2⟩
          · exact .ok ⟨.cons ⟨rfl, hfields⟩ .nil, .cons hcomma hmore⟩
      · exact .ok ⟨.nil, .cons htu h⟩

theorem rel_nextBinding? (hR : Counterparts R) {comma comma' : Token} (hcomma : R comma comma')
    (h : List.Forall₂ R ts us) : nextBinding? comma ts = nextBinding? comma' us := by
  cases h with
  | nil => rfl
  | cons hname h =>
    cases h with
    | nil => rfl
    | cons hsign _ =>
      simp only [nextBinding?, Token.isPunct_congr (hR.word hcomma),
        Token.isPunct_congr (hR.word hsign), Token.kind_congr (hR.word hname),
        Token.name_congr (hR.word hname)]

def BindingsRel (R : Token → Token → Prop) (p q : List Text × List Token) : Prop :=
  p.1 = q.1 ∧ List.Forall₂ R p.2 q.2

theorem rel_readMoreBindings (hR : Counterparts R) (h : List.Forall₂ R ts us) :
    BindingsRel R (readMoreBindings ts) (readMoreBindings us) := by
  induction hn : ts.length using Nat.strong_induction_on generalizing ts us with
  | _ n ih =>
    cases h with
    | nil =>
      rw [readMoreBindings]
      exact ⟨rfl, .nil⟩
    | @cons t u ts us htu h =>
      have hgroup := length_afterGroup ts
      have htail : ts.tail.length ≤ ts.length := by simp
      rw [List.length_cons] at hn
      rw [readMoreBindings_cons, readMoreBindings_cons, Token.isPunct_congr (hR.word htu),
        Token.isPunct_congr (hR.word htu), Token.endsBindings_congr (hR.word htu),
        rel_nextBinding? hR htu h]
      split
      · exact ih (afterGroup ts).length (by omega) (rel_afterGroup hR h) rfl
      split
      · exact ⟨rfl, .cons htu h⟩
      split
      · next name _ =>
        obtain ⟨hnames, hbehind⟩ := ih ts.tail.length (by omega) (rel_tail h) rfl
        exact ⟨congrArg (name :: ·) hnames, hbehind⟩
      · exact ih ts.length (by omega) h rfl

theorem rel_readBindings (hR : Counterparts R) (h : List.Forall₂ R ts us) :
    BindingsRel R (readBindings ts) (readBindings us) := by
  cases h with
  | nil => exact ⟨rfl, .nil⟩
  | @cons t u ts us htu h =>
    rw [readBindings.eq_1, readBindings.eq_1, Token.kind_congr (hR.word htu),
      Token.name_congr (hR.word htu)]
    split
    · obtain ⟨hnames, hbehind⟩ := rel_readMoreBindings hR h
      exact ⟨congrArg (u.name :: ·) hnames, hbehind⟩
    · exact rel_readMoreBindings hR (.cons htu h)

theorem rel_namedMember (hR : Counterparts R) {word word' : Token} (hword : R word word')
    (h : List.Forall₂ R ts us) : Body.namedMember word ts = Body.namedMember word' us := by
  cases h with
  | nil => rfl
  | cons htu _ =>
    simp only [Body.namedMember, Token.isWordIn_congr (hR.word hword),
      Token.kind_congr (hR.word htu), Token.name_congr (hR.word htu)]

theorem rel_readBody (hR : Counterparts R)
    (hlead : spaced → LeadAlike R) (h : List.Forall₂ R ts us) :
    Together R (Body.Rel spaced) (Body.read ts) (Body.read us) := by
  induction hn : ts.length using Nat.strong_induction_on generalizing ts us with
  | _ n ih =>
    cases h with
    | nil =>
      rw [Body.read]
      exact .ok ⟨rfl, .nil⟩
    | @cons t u ts us htu h =>
      have hgroup := length_afterGroup ts
      rw [List.length_cons] at hn
      rw [Body.read_cons, Body.read_cons, Token.opener?_congr (hR.word htu),
        Token.isWord_congr (hR.word htu), Token.bindsNames_congr (hR.word htu),
          rel_namedMember hR htu h]
      have hadd : ∀ names : List Text, ∀ b b' : Body, b.Rel spaced b' →
          (b.addMembers names).Rel spaced (b'.addMembers names) :=
        fun names _ _ hb => ⟨congrArg (names ++ ·) hb.members, hb.cases⟩
      split
      · exact ih (afterGroup ts).length (by omega) (rel_afterGroup hR h) rfl
      split
      · have hclause := rel_readClause hR hlead htu h
        generalize hread : readClause t ts = clause at hclause ⊢
        generalize readClause u us = clause' at hclause ⊢
        cases hclause with
        | error fault ht => exact .error fault ht
        | @ok p q hpq =>
          have hlen : p.2.length ≤ ts.length := length_readClause hread
          exact (ih _ (by omega) hpq.2 rfl).map fun _ _ hb =>
            ⟨hb.members, List.rel_append hpq.1 hb.cases⟩
      split
      · obtain ⟨hnames, hbehind⟩ := rel_readBindings hR h
        have hlen := length_readBindings ts
        rw [hnames]
        exact (ih _ (by omega) hbehind rfl).map (hadd _)
      · exact (ih ts.length (by omega) h rfl).map (hadd _)

end Reading

/-- What stands behind a name is related more closely: the first token of a source has none in
front. -/
structure Site.Rel (R R' : Token → Token → Prop) (s s' : Site) : Prop where
  before : List.Forall₂ R s.before s'.before
  keyword : R s.keyword s'.keyword
  name : R s.name s'.name
  behind : List.Forall₂ R' s.behind s'.behind

/-- Enums that are declared alike and end at tokens that belong together. -/
structure Enumeration.Rel (R : Token → Token → Prop) (spaced : Prop) (e f : Enumeration) :
    Prop where
  name : e.decl.name = f.decl.name
  access : e.decl.access = f.decl.access
  members : e.decl.members = f.decl.members
  cases : List.Forall₂ (Case.Rel spaced) e.decl.cases f.decl.cases
  closing : ∃ t u, R t u ∧ e.closeOffset = t.place.offset ∧ f.closeOffset = u.place.offset

section Enums

variable {R R' : Token → Token → Prop} {spaced : Prop} {ts us : List Token}

theorem Counterparts.mono (hR : Counterparts R) (hle : ∀ t u, R' t u → R t u) :
    Counterparts R' where
  word h := hR.word (hle _ _ h)
  line h h' := hR.line (hle _ _ h) (hle _ _ h')

theorem rel_among (hR : Counterparts R) (hle : ∀ t u, R' t u → R t u) {before before' : List Token}
    (hbefore : List.Forall₂ R before before') {t u : Token} (htu : R t u)
    (h : List.Forall₂ R' ts us) :
    List.Forall₂ (Site.Rel R R') (Site.among before (t :: ts)) (Site.among before' (u :: us)) := by
  induction h generalizing before before' t u with
  | nil => exact .nil
  | @cons name name' behind behind' hname h ih =>
    have hpoint : before.head?.any (·.isPunct '.') = before'.head?.any (·.isPunct '.') := by
      cases hbefore with
      | nil => rfl
      | cons hb _ => exact Token.isPunct_congr (hR.word hb) '.'
    have hrest := ih (.cons htu hbefore) (hle _ _ hname)
    rw [Site.among, Site.among, hpoint, Token.isWord_congr (hR.word htu),
      Token.kind_congr (hR.word (hle _ _ hname))]
    split
    · exact .cons ⟨hbefore, htu, hle _ _ hname, h⟩ hrest
    · exact hrest

theorem Site.Rel.access {s s' : Site} (hR : Counterparts R) (h : s.Rel R R' s') :
    s.access = s'.access := by
  have hmodifier : ∀ t u, R t u → t.isWordIn modifierWords = u.isWordIn modifierWords :=
    fun _ _ htu => Token.isWordIn_congr (hR.word htu) _
  have hmodifiers := rel_takeWhile hmodifier h.before
  unfold Site.access
  generalize (s.before.takeWhile (·.isWordIn modifierWords)) = ts at hmodifiers ⊢
  generalize (s'.before.takeWhile (·.isWordIn modifierWords)) = us at hmodifiers ⊢
  induction hmodifiers with
  | nil => rfl
  | cons htu _ ih =>
    rw [List.findSome?_cons, List.findSome?_cons, Token.text_congr (hR.word htu), ih]

theorem rel_siteBody (hR : Counterparts R) (hle : ∀ t u, R' t u → R t u) {s s' : Site}
    (hkeyword : R s.keyword s'.keyword) (hbehind : List.Forall₂ R' s.behind s'.behind) :
    Together R (fun p q => R' p.1 q.1 ∧ p.2.Rel R' q.2) s.body s'.body := by
  have hR' := hR.mono hle
  have hopens : ∀ t u, R' t u → (!t.isPunct '\x7b') = !u.isPunct '\x7b' := fun _ _ htu => by
    rw [Token.isPunct_congr (hR'.word htu)]
  have hbrace := rel_dropWhile hopens hbehind
  unfold Site.body
  generalize (s.behind.dropWhile fun t => !t.isPunct '\x7b') = ts at hbrace ⊢
  generalize (s'.behind.dropWhile fun t => !t.isPunct '\x7b') = us at hbrace ⊢
  cases hbrace with
  | nil => exact .error _ hkeyword
  | cons htu hrest =>
    dsimp only
    obtain ⟨hts, hus⟩ | ⟨g, g', hts, hus, hg⟩ := rel_option_cases (rel_group? hR' hrest 0)
    · rw [hts, hus]
      exact .error _ (hle _ _ htu)
    · rw [hts, hus]
      exact .ok ⟨htu, hg⟩

theorem Site.Rel.enumeration {s s' : Site} (hR : Counterparts R) (hle : ∀ t u, R' t u → R t u)
    (hlead : spaced → LeadAlike R') (h : s.Rel R R' s') (src src' : Text) :
    Together R (Enumeration.Rel R spaced) (s.enumeration src) (s'.enumeration src') := by
  have hread : ∀ g g' : Group, g.Rel R' g' →
      Together R (Body.Rel spaced) (Body.read g.inside) (Body.read g'.inside) := fun _ _ hg =>
    (rel_readBody (hR.mono hle) hlead hg.inside).mono hle
  refine (rel_siteBody hR hle h.keyword h.behind).bind fun p q hpq =>
    (hread _ _ hpq.2).bind fun b b' hb => .ok ?_
  exact {
    name := Token.name_congr (hR.word h.name)
    access := h.access hR
    members := congrArg (List.map Member.existing) hb.members
    cases := hb.cases
    closing := ⟨p.2.closing, q.2.closing, hle _ _ hpq.2.closing, rfl, rfl⟩ }

/-- Sources whose tokens belong together pairwise declare the same enums. -/
theorem rel_readEnumerations {src src' : Text} (hts : tokenize src = .ok ts)
    (hus : tokenize src' = .ok us)
    (hR : Counterparts R) (hle : ∀ t u, R' t u → R t u) (hlead : spaced → LeadAlike R')
    (h : List.Forall₂ R ts us) (htail : List.Forall₂ R' ts.tail us.tail) :
    Together R (List.Forall₂ (Enumeration.Rel R spaced)) (readEnumerations src)
      (readEnumerations src') := by
  have hsites : List.Forall₂ (Site.Rel R R') (Site.among [] ts) (Site.among [] us) := by
    cases h with
    | nil => exact .nil
    | cons htu _ => exact rel_among hR hle .nil htu htail
  unfold readEnumerations
  rw [hts, hus]
  exact (rel_checkDelimiters hR .nil h).bind fun _ _ _ =>
    Together.mapM (fun _ _ hs => hs.enumeration hR hle hlead src src') hsites

end Enums

end CaseAccessors
