import CaseAccessors.Proofs.BodyReading

/-! One step of each reader of a declaration, and where the tokens that it reads stand. -/
namespace CaseAccessors

theorem items_opener {t : Token} (h : t.opener?.isSome = true) (rest : List Token) :
    items (t :: rest) = match group? 0 rest with
      | some g => .group t g.inside g.closing :: items g.behind
      | none => .token t :: items rest := by
  rw [items, if_pos h]
  split <;> simp_all

def typeTokens (ts : List Token) : List Token :=
  beforeDefault ((splitLabel? ts).elim ts Prod.snd)

def fieldLabel? (ts : List Token) : Option Text :=
  (splitLabel? ts).bind fun p => if p.1 = ['_'] then none else some p.1

theorem readField_eq (last : Token) (ts : List Token) :
    readField last ts = match typeTokens ts with
      | [] => .error (.ofPlace (.unexpectedEnd .casePayload) last.place)
      | type => .ok ⟨fieldLabel? ts, (Token.sourceOf type).collapse⟩ := by
  unfold readField typeTokens fieldLabel?
  cases splitLabel? ts <;> rfl

theorem readClause_cons (keyword t : Token) (rest : List Token) :
    readClause keyword (t :: rest) =
      if t.kind = .ident then
        (readFields (payloadTokens rest)).bind fun fields =>
          match afterRawValue (afterPayload rest) with
          | comma :: more =>
            if comma.isPunct ',' then
              (readClause keyword more).map fun (cases, behind) =>
                (⟨t.name, fields⟩ :: cases, behind)
            else .ok ([⟨t.name, fields⟩], comma :: more)
          | [] => .ok ([⟨t.name, fields⟩], [])
      else .ok ([], t :: rest) := by
  rw [readClause]
  split
  · cases readFields (payloadTokens rest) with
    | error e => rfl
    | ok fields =>
      dsimp only [Except.bind]
      split <;> simp_all
  · rfl

theorem readMoreBindings_cons (t : Token) (rest : List Token) :
    readMoreBindings (t :: rest) =
      if t.isPunct '(' || t.isPunct '[' then readMoreBindings (afterGroup rest)
      else if endsBindings t then ([], t :: rest)
      else
        match nextBinding? t rest with
        | some name => (name :: (readMoreBindings rest.tail).1, (readMoreBindings rest.tail).2)
        | none => readMoreBindings rest :=
  readMoreBindings.eq_2 t rest

theorem Body.read_cons (t : Token) (rest : List Token) :
    Body.read (t :: rest) =
      if t.opener?.isSome then Body.read (afterGroup rest)
      else if t.isWord "case" then
        (readClause t rest).bind fun (cases, behind) => (Body.read behind).map (addCases cases)
      else if t.bindsNames then
        (Body.read (readBindings rest).2).map (addMembers (readBindings rest).1)
      else (Body.read rest).map (addMembers (namedMember t rest)) := by
  rw [read]
  split
  · rfl
  split
  · split <;> simp_all [Except.bind]
  · rfl

theorem afterGroup_suffix (ts : List Token) : afterGroup ts <:+ ts := by
  unfold afterGroup
  split
  · next g hg =>
    exact ⟨g.inside ++ [g.closing], by rw [append_of_group? hg]; simp⟩
  · exact List.suffix_refl ts

theorem afterPayload_suffix (ts : List Token) : afterPayload ts <:+ ts := by
  unfold afterPayload
  split
  · next t rest =>
    split
    · split
      · next g hg =>
        exact ⟨t :: (g.inside ++ [g.closing]), by rw [append_of_group? hg]; simp⟩
      · exact List.nil_suffix
    · exact List.suffix_refl _
  · exact List.suffix_refl _

theorem afterRawValue_suffix (ts : List Token) : afterRawValue ts <:+ ts := by
  unfold afterRawValue
  split
  · split
    · exact (List.dropWhile_suffix _).trans (List.suffix_cons _ _)
    · exact List.suffix_refl _
  · exact List.suffix_refl _

theorem readMoreBindings_suffix (ts : List Token) : (readMoreBindings ts).2 <:+ ts := by
  fun_induction readMoreBindings ts with
  | case1 => exact List.suffix_refl _
  | case2 t rest _ ih => exact ih.trans ((afterGroup_suffix rest).trans (List.suffix_cons t rest))
  | case3 => exact List.suffix_refl _
  | case4 t rest _ _ name _ names behind hr ih =>
    rw [hr] at ih
    exact ih.trans ((List.tail_suffix rest).trans (List.suffix_cons t rest))
  | case5 t rest _ _ _ ih => exact ih.trans (List.suffix_cons t rest)

theorem readBindings_suffix (ts : List Token) : (readBindings ts).2 <:+ ts := by
  unfold readBindings
  split
  · next t rest =>
    split
    · exact (readMoreBindings_suffix rest).trans (List.suffix_cons t rest)
    · exact readMoreBindings_suffix _
  · exact List.suffix_refl _

theorem isInfix_payloadTokens (ts : List Token) : payloadTokens ts <:+: ts := by
  unfold payloadTokens
  split
  · next t rest =>
    split
    · split
      · next g hg => exact ⟨[t], g.closing :: g.behind, by rw [append_of_group? hg]; simp⟩
      · exact (List.suffix_cons t rest).isInfix
    · exact List.nil_infix
  · exact List.nil_infix

def RangesOf (is : List Item) (ranges : List (List Item)) : Prop :=
  (∀ range ∈ ranges.head?, range <+: is) ∧ ∀ range ∈ ranges, range <:+: is

theorem RangesOf.consItem {is : List Item} {ranges : List (List Item)} (h : RangesOf is ranges)
    (i : Item) :
    RangesOf (i :: is) (consItem i ranges) := by
  obtain ⟨hhead, hall⟩ := h
  have hone : ∀ {first : List Item}, first <+: is → i :: first <+: i :: is :=
    (List.prefix_cons_inj i).2
  cases ranges with
  | nil =>
    have hfirst := hone (List.nil_prefix (l := is))
    refine ⟨?_, ?_⟩
    · rintro _ ⟨⟩
      exact hfirst
    · rintro _ (_ | ⟨_, ⟨⟩⟩)
      exact hfirst.isInfix
  | cons first ranges =>
    have hfirst := hone (hhead first rfl)
    refine ⟨?_, ?_⟩
    · rintro _ ⟨⟩
      exact hfirst
    · rintro range (_ | ⟨_, hrange⟩)
      · exact hfirst.isInfix
      · exact (hall range (List.mem_cons_of_mem first hrange)).trans (List.suffix_cons i is).isInfix

theorem rangesOf_splitItems (angles : Nat) (is : List Item) :
    RangesOf is (splitItems angles is) := by
  induction is generalizing angles with
  | nil => simp [RangesOf, splitItems]
  | cons i is ih =>
    rw [splitItems]
    split
    · refine ⟨by simp, ?_⟩
      rintro range (_ | ⟨_, hrange⟩)
      · exact List.nil_infix
      · exact ((ih 0).2 range hrange).trans (List.suffix_cons i is).isInfix
    split
    · exact (ih _).consItem i
    split
    · exact (ih _).consItem i
    · exact (ih _).consItem i

theorem isInfix_of_mem_splitFields {ts range : List Token} (h : range ∈ splitFields ts) :
    range <:+: ts := by
  obtain ⟨items', hmem, rfl⟩ := List.mem_map.1 h
  obtain ⟨before, behind, hitems⟩ := (rangesOf_splitItems 0 (items ts)).2 items' hmem
  refine ⟨before.flatMap Item.tokens, behind.flatMap Item.tokens, ?_⟩
  rw [← List.flatMap_append, ← List.flatMap_append, hitems, flatMap_items]

theorem isPrefix_beforeDefault (ts : List Token) : beforeDefault ts <+: ts := by
  obtain ⟨behind, hitems⟩ := List.takeWhile_prefix (l := items ts) fun i => !i.isPunct '='
  refine ⟨behind.flatMap Item.tokens, ?_⟩
  rw [beforeDefault, ← List.flatMap_append, hitems, flatMap_items]

theorem suffix_of_splitLabel? {ts rest : List Token} {label : Text}
    (h : splitLabel? ts = some (label, rest)) :
    rest <:+ ts := by
  unfold splitLabel? at h
  split at h
  · next l c more =>
    split at h
    · split at h
      · cases h
        exact ⟨[l, c], rfl⟩
      split at h
      · split at h
        · next colon more =>
          split at h
          · cases h
            exact ⟨[l, c, colon], rfl⟩
          · cases h
        · cases h
      · cases h
    · cases h
  · cases h

theorem isInfix_typeTokens (ts : List Token) : typeTokens ts <:+: ts := by
  refine (isPrefix_beforeDefault _).isInfix.trans ?_
  cases h : splitLabel? ts with
  | none => exact List.infix_refl ts
  | some p => exact (suffix_of_splitLabel? h).isInfix

theorem readFields_eq_ok_iff {ts : List Token} {fs : List Field} :
    readFields ts = .ok fs ↔ List.Forall₂
      (fun range f => typeTokens range ≠ [] ∧
        f = ⟨fieldLabel? range, (Token.sourceOf (typeTokens range)).collapse⟩)
      ((splitFields ts).filter (!·.isEmpty)) fs := by
  have hfield : ∀ last range f, readField last range = .ok f ↔ typeTokens range ≠ [] ∧
      f = ⟨fieldLabel? range, (Token.sourceOf (typeTokens range)).collapse⟩ := by
    intro last range f
    rw [readField_eq]
    cases typeTokens range with
    | nil => simp
    | cons t ts => simp [eq_comm]
  rw [readFields, mapM_eq_ok_iff]
  simp only [hfield]
  generalize splitFields ts = ranges
  induction ranges generalizing fs with
  | nil => simp
  | cons range ranges ih =>
    cases hlast : range.getLast? with
    | none =>
      obtain rfl := List.getLast?_eq_none_iff.1 hlast
      exact ih
    | some last =>
      have hne : range ≠ [] := by
        rintro rfl
        cases hlast
      rw [List.filterMap_cons_some (by rw [hlast, Option.map_some]),
        List.filter_cons_of_pos (by simpa using hne)]
      simp only [List.forall₂_cons_left_iff, ih]

/-- The case has the name that a token is, and the fields of the payload behind that token. -/
def Case.ReadIn (ts : List Token) (c : Case) : Prop :=
  ∃ before name behind, ts = before ++ name :: behind ∧ c.name = name.name ∧
    readFields (payloadTokens behind) = .ok c.fields

def Case.DeclaredIn (ts : List Token) (c : Case) : Prop :=
  ∃ before name behind, ts = before ++ name :: behind ∧ name.kind = .ident ∧ c.name = name.name ∧
    readFields (payloadTokens behind) = .ok c.fields

namespace Case.DeclaredIn

theorem readIn {ts : List Token} {c : Case} (h : c.DeclaredIn ts) : c.ReadIn ts := by
  obtain ⟨before, name, behind, hts, -, hname, hfields⟩ := h
  exact ⟨before, name, behind, hts, hname, hfields⟩

theorem of_suffix {ts us : List Token} {c : Case} (h : c.DeclaredIn us) (hs : us <:+ ts) :
    c.DeclaredIn ts := by
  obtain ⟨before, name, behind, rfl, hkind, hname, hfields⟩ := h
  obtain ⟨front, rfl⟩ := hs
  exact ⟨front ++ before, name, behind, by simp, hkind, hname, hfields⟩

end Case.DeclaredIn

theorem declaredIn_of_readClause {keyword : Token} {ts behind : List Token} {cases : List Case}
    (h : readClause keyword ts = .ok (cases, behind)) :
    behind <:+ ts ∧ ∀ c ∈ cases, c.DeclaredIn ts := by
  fun_induction readClause keyword ts generalizing cases behind with
  | case1 | case2 => cases h
  | case3 t rest hkind fields hfields comma more hr _ ih =>
    obtain ⟨⟨cases', behind'⟩, hmore, heq⟩ := exists_of_map_eq_ok h
    cases heq
    obtain ⟨hbehind, hcases⟩ := ih hmore
    have hsuffix : more <:+ t :: rest := by
      have := (afterRawValue_suffix _).trans (afterPayload_suffix rest)
      rw [hr] at this
      exact (List.suffix_cons comma more).trans (this.trans (List.suffix_cons t rest))
    refine ⟨hbehind.trans hsuffix, ?_⟩
    rintro c (_ | ⟨_, hc⟩)
    · exact ⟨[], t, rest, rfl, hkind, rfl, hfields⟩
    · exact (hcases c hc).of_suffix hsuffix
  | case4 t rest hkind fields hfields comma more hr _ =>
    cases h
    have hsuffix := (afterRawValue_suffix _).trans (afterPayload_suffix rest)
    rw [hr] at hsuffix
    refine ⟨hsuffix.trans (List.suffix_cons t rest), ?_⟩
    rintro c (_ | ⟨_, ⟨⟩⟩)
    exact ⟨[], t, rest, rfl, hkind, rfl, hfields⟩
  | case5 t rest hkind fields hfields hr =>
    cases h
    refine ⟨List.nil_suffix, ?_⟩
    rintro c (_ | ⟨_, ⟨⟩⟩)
    exact ⟨[], t, rest, rfl, hkind, rfl, hfields⟩
  | case6 =>
    cases h
    exact ⟨List.suffix_refl _, by simp⟩

theorem declaredIn_of_readBody {ts : List Token} {b : Body} (h : Body.read ts = .ok b) :
    ∀ c ∈ b.cases, c.DeclaredIn ts := by
  fun_induction Body.read ts generalizing b with
  | case1 =>
    cases h
    simp [Body.empty]
  | case2 t rest _ ih =>
    exact fun c hc =>
      (ih h c hc).of_suffix ((afterGroup_suffix rest).trans (List.suffix_cons t rest))
  | case3 => cases h
  | case4 t rest _ _ cases behind hread ih =>
    obtain ⟨b, hb, rfl⟩ := exists_of_map_eq_ok h
    obtain ⟨hbehind, hcases⟩ := declaredIn_of_readClause hread
    intro c hc
    obtain hc | hc := List.mem_append.1 hc
    · exact (hcases c hc).of_suffix (List.suffix_cons t rest)
    · exact (ih hb c hc).of_suffix (hbehind.trans (List.suffix_cons t rest))
  | case5 t rest _ _ _ names behind hread ih =>
    obtain ⟨b, hb, rfl⟩ := exists_of_map_eq_ok h
    have hsuffix := readBindings_suffix rest
    rw [hread] at hsuffix
    exact fun c hc => (ih hb c hc).of_suffix (hsuffix.trans (List.suffix_cons t rest))
  | case6 t rest _ _ _ ih =>
    obtain ⟨b, hb, rfl⟩ := exists_of_map_eq_ok h
    exact fun c hc => (ih hb c hc).of_suffix (List.suffix_cons t rest)

theorem Case.DeclaredIn.append {ts more : List Token} {c : Case} (h : c.DeclaredIn ts)
    (hts : Balanced (ts.map (·.kind))) (hmore : ∀ t ∈ more.head?, t.isPunct '(' = false) :
    c.DeclaredIn (ts ++ more) := by
  obtain ⟨before, name, behind, rfl, hkind, hname, hfields⟩ := h
  refine ⟨before, name, behind ++ more, by simp, hkind, hname, ?_⟩
  suffices hpayload : payloadTokens (behind ++ more) = payloadTokens behind by rwa [hpayload]
  cases behind with
  | nil =>
    cases more with
    | nil => rfl
    | cons t more =>
      rw [List.nil_append, payloadTokens, hmore t rfl]
      rfl
  | cons t rest =>
    rw [List.cons_append, payloadTokens, payloadTokens]
    split
    · next ht =>
      have hopen := Token.opener?_of_kind (c := '(') rfl (Token.isPunct_iff.1 ht)
      rw [List.append_cons] at hts
      obtain ⟨g, hg, -⟩ := exists_group?_eq_some hts hopen
      rw [hg, group?_append_right hg]
    · rfl

/-- Every case of an enum that is read stands in the source. -/
theorem exists_declaredIn_of_readEnumerations {src : Text} {enums : List Enumeration}
    (h : readEnumerations src = .ok enums) :
    ∃ tokens, tokenize src = .ok tokens ∧ ∀ e ∈ enums, ∀ c ∈ e.decl.cases, c.DeclaredIn tokens := by
  obtain ⟨ps, rfl, hps, hbalanced, hsites⟩ := exists_of_readEnumerations h
  refine ⟨_, Piece.tokenize_textOf hps, fun e he c hc => ?_⟩
  obtain ⟨s, hs, hread⟩ := hsites e he
  obtain ⟨brace, g, b, hbody, hbody', rfl⟩ := Site.enumeration_eq_ok_iff.1 hread
  obtain ⟨pre, htokens⟩ := Site.exists_of_mem_among hs
  have hsplit : Piece.toTokens [] .start ps = (pre ++ [s.keyword, s.name]) ++ s.behind := by
    rw [htokens, List.append_assoc]
    rfl
  rw [hsplit] at hbalanced ⊢
  obtain ⟨hbehind, -, hinside, hclosing⟩ := Site.behind_of_body hbalanced hbody
  rw [hbehind, ← List.append_assoc]
  have hmore : ∀ t ∈ (g.closing :: g.behind).head?, t.isPunct '(' = false := by
    rintro _ ⟨⟩
    rw [Lexeme.isPunct, hclosing]
    rfl
  have hin := (declaredIn_of_readBody hbody' c hc).append hinside hmore
  exact hin.of_suffix ((List.suffix_cons brace _).trans (List.suffix_append _ _))

theorem exists_tokens_of_readEnumerations {src : Text} {enums : List Enumeration}
    (h : readEnumerations src = .ok enums) :
    ∃ tokens, tokenize src = .ok tokens ∧ ∀ e ∈ enums, ∀ c ∈ e.decl.cases, c.ReadIn tokens := by
  obtain ⟨tokens, htokens, hcases⟩ := exists_declaredIn_of_readEnumerations h
  exact ⟨tokens, htokens, fun e he c hc => (hcases e he c hc).readIn⟩

end CaseAccessors
