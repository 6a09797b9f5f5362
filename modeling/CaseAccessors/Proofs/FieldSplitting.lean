import CaseAccessors.Proofs.DefaultValues
import CaseAccessors.Proofs.DelimiterMatching
import CaseAccessors.Proofs.OwnBody
import CaseAccessors.Proofs.ReaderSteps

/-! Splitting a payload at its commas. No token gets lost: the ranges and the commas between them
are the payload again, every range is balanced, and a comma separates two of them where no group and
no angle bracket is open. -/
namespace CaseAccessors

/-- The tokens are the ranges in their order, with one comma between neighbours. -/
inductive CutAtCommas : List Token → List (List Token) → Prop where
  | last (range : List Token) : CutAtCommas range [range]
  | cons (range : List Token) {comma : Token} {rest : List Token} {ranges : List (List Token)} :
      comma.isPunct ',' = true → CutAtCommas rest ranges →
        CutAtCommas (range ++ comma :: rest) (range :: ranges)

/-- Where what separates neighbouring ranges stands, one token each time. -/
def separators : List (List Token) → List Nat
  | range :: next :: ranges =>
    range.length :: (separators (next :: ranges)).map (range.length + 1 + ·)
  | _ => []

def OutsideGroups (tokens : List Token) (i : Nat) : Prop := ∀ a b, Partners tokens a b →
    ¬(a < i ∧ i < b)

theorem outsideGroups_iff {before behind : List Token} {t : Token}
    (h : WellNested (delimiters (before ++ t :: behind))) (ht : t.delimiter? = none) :
    OutsideGroups (before ++ t :: behind) before.length ↔ WellNested (delimiters before) := by
  obtain ⟨-, hcloser⟩ := Token.delimiter?_eq_none_iff.1 ht
  constructor
  · intro houtside
    rw [← balanced_iff_wellNested, List.map_append] at h
    obtain hbefore | ⟨l, o, a, b, k, r, c, hl, hr, ho, hk, hinside⟩ := h.or_spans hcloser
    · exact balanced_iff_wellNested.1 hbefore
    obtain ⟨pre, us, rfl, -, hus⟩ := List.map_eq_append_iff.1 hl
    obtain ⟨o, a, rfl, rfl, rfl⟩ := List.map_eq_cons_iff.1 hus
    obtain ⟨b, vs, rfl, rfl, hvs⟩ := List.map_eq_append_iff.1 hr
    obtain ⟨k, r, rfl, rfl, -⟩ := List.map_eq_cons_iff.1 hvs
    have hnested : WellNested (delimiters (a ++ t :: b)) :=
      balanced_iff_wellNested.1 (by simpa using hinside)
    have hpartners :
        Partners (pre ++ o :: ((a ++ t :: b) ++ k :: r)) pre.length
          (pre.length + 1 + (a ++ t :: b).length) :=
      .intro ho hk (isPair_closerOf (Token.of_opener? ho).2) hnested
    refine absurd ⟨?_, ?_⟩
      (houtside pre.length (pre.length + 1 + (a ++ t :: b).length) (by simpa using hpartners))
    · simp
    · simp only [List.length_append, List.length_cons]
      omega
  · rintro hbefore i j hpartners ⟨hi, hj⟩
    obtain ⟨o, a, ho, hopener⟩ := hpartners.opener
    rw [List.getElem?_append_left hi] at ho
    obtain ⟨k, hk⟩ := Partners.exists_of_opener hbefore ho hopener
    have hlt := hk.lt_length
    have hwithin := hk.within [] (t :: behind)
    simp only [List.nil_append, List.length_nil, Nat.zero_add] at hwithin
    have := hpartners.eq_of_left hwithin
    omega

namespace Item

inductive IsWhole : Item → Prop where
  | token {t : Token} : t.opener? = none → t.closer? = none → IsWhole (.token t)
  | group {o k : Token} {c : Char} {inside : List Token} : o.opener? = some c →
    k.closer? = some (closerOf c) →
      Balanced (inside.map (·.kind)) → IsWhole (.group o inside k)

def anglesBehind (i : Item) (angles : Nat) : Nat :=
  if i.isPunct '<' then angles + 1 else if i.isPunct '>' then angles - 1 else angles

theorem isWhole_of_mem_items {ks : List Kind} (h : Balanced ks) {ts : List Token}
    (hts : ts.map (·.kind) = ks) :
    ∀ i ∈ items ts, i.IsWhole := by
  induction h generalizing ts with
  | nil =>
    rw [List.map_eq_nil_iff.1 hts, items]
    simp
  | other ho hc _ ih =>
    obtain ⟨t, us, rfl, rfl, hus⟩ := List.map_eq_cons_iff.1 hts
    rw [items_cons ho]
    exact List.forall_mem_cons.2 ⟨.token ho hc, ih hus⟩
  | group ho hk hinside _ _ ih =>
    obtain ⟨o, us, rfl, rfl, hus⟩ := List.map_eq_cons_iff.1 hts
    obtain ⟨ins, vs, rfl, rfl, hvs⟩ := List.map_eq_append_iff.1 hus
    obtain ⟨k, xs, rfl, rfl, hxs⟩ := List.map_eq_cons_iff.1 hvs
    rw [items_group ho hk hinside]
    exact List.forall_mem_cons.2 ⟨.group ho hk hinside, ih hxs⟩

theorem balanced_of_isWhole {is : List Item} (h : ∀ i ∈ is, i.IsWhole) :
    Balanced ((is.flatMap Item.tokens).map (·.kind)) := by
  induction is with
  | nil => exact .nil
  | cons i is ih =>
    obtain ⟨hi, his⟩ := List.forall_mem_cons.1 h
    cases hi with
    | token ho hc => exact .other ho hc (ih his)
    | group ho hk hinside => simpa [Item.tokens] using Balanced.group ho hk hinside (ih his)

theorem IsWhole.openAngles {i : Item} (h : i.IsWhole) (angles : Nat) (ks : List Kind) :
    openAngles 0 angles (i.tokens.map (·.kind) ++ ks) =
      CaseAccessors.openAngles 0 (i.anglesBehind angles) ks := by
  cases h with
  | @token t ho hc =>
    have ho' : t.kind.opener? = none := ho
    have hc' : t.kind.closer? = none := hc
    rw [tokens, List.map_singleton, List.singleton_append, CaseAccessors.openAngles]
    simp only [ho', hc', Option.isSome_none, Bool.false_eq_true, if_false, true_and, anglesBehind,
      isPunct, Lexeme.isPunct, beq_iff_eq]
    split
    · rfl
    split <;> rfl
  | group ho hk hinside =>
    have := openAngles_group ho hk hinside angles ks
    simpa [tokens, anglesBehind, isPunct] using this

end Item

theorem splitItems_cons (angles : Nat) (i : Item) (is : List Item) :
    splitItems angles (i :: is) = if i.isPunct ',' = true ∧
      angles = 0 then [] :: splitItems angles is
      else consItem i (splitItems (i.anglesBehind angles) is) := by
  rw [splitItems]
  by_cases hcomma : i.isPunct ',' = true ∧ angles = 0
  · rw [if_pos hcomma, if_pos (by simpa using hcomma), hcomma.2]
  · rw [if_neg hcomma, if_neg (by simpa using hcomma), Item.anglesBehind]
    split
    · rfl
    split <;> rfl

theorem splitItems_ne_nil (angles : Nat) (is : List Item) : splitItems angles is ≠ [] := by
  cases is with
  | nil => simp [splitItems]
  | cons i is =>
    rw [splitItems_cons]
    split
    · simp
    · cases splitItems (i.anglesBehind angles) is <;> simp [consItem]

def tokenRanges (ranges : List (List Item)) : List (List Token) :=
  ranges.map (·.flatMap Item.tokens)

theorem exists_consItem {ranges : List (List Item)} (h : ranges ≠ []) (i : Item) :
    ∃ range more, tokenRanges ranges = range :: more ∧
      tokenRanges (consItem i ranges) = (i.tokens ++ range) :: more := by
  cases ranges with
  | nil => exact absurd rfl h
  | cons range ranges => exact ⟨_, _, rfl, rfl⟩

theorem CutAtCommas.prepend {ts range : List Token} {ranges : List (List Token)}
    (h : CutAtCommas ts (range :: ranges)) (us : List Token) :
    CutAtCommas (us ++ ts) ((us ++ range) :: ranges) := by
  cases h with
  | last => exact .last _
  | cons _ hcomma hrest =>
    rw [← List.append_assoc]
    exact .cons _ hcomma hrest

theorem cutAtCommas_splitItems (angles : Nat) (is : List Item) :
    CutAtCommas (is.flatMap Item.tokens) (tokenRanges (splitItems angles is)) := by
  induction is generalizing angles with
  | nil => exact .last []
  | cons i is ih =>
    rw [splitItems_cons, List.flatMap_cons]
    split
    · next h =>
      cases i with
      | token comma => exact .cons [] h.1 (ih angles)
      | group => cases h.1
    · obtain ⟨range, more, hranges, hcons⟩ :=
        exists_consItem (splitItems_ne_nil (i.anglesBehind angles) is) i
      rw [hcons]
      exact (hranges ▸ ih (i.anglesBehind angles)).prepend i.tokens

theorem separators_prepend (us range : List Token) (ranges : List (List Token)) :
    separators ((us ++ range) :: ranges) = (separators (range :: ranges)).map (us.length + ·) := by
  cases ranges with
  | nil => rfl
  | cons next ranges =>
    rw [separators, separators, List.map_cons, List.map_map, List.length_append]
    refine congrArg _ (List.map_congr_left fun n _ => ?_)
    simp only [Function.comp_apply]
    omega

/-- Items are separated by the commas in front of which no angle bracket is open. -/
theorem mem_separators_splitItems {is : List Item} (h : ∀ i ∈ is, i.IsWhole) (angles n : Nat) :
    n ∈ separators (tokenRanges (splitItems angles is)) ↔ ∃ before comma behind,
      is = before ++ .token comma :: behind ∧ comma.isPunct ',' = true ∧
        (before.flatMap Item.tokens).length = n ∧
        openAngles 0 angles ((before.flatMap Item.tokens).map (·.kind)) = 0 := by
  induction is generalizing angles n with
  | nil => simp [splitItems, tokenRanges, separators]
  | cons i is ih =>
    obtain ⟨hi, his⟩ := List.forall_mem_cons.1 h
    obtain ⟨range, more, hranges, hcons⟩ :=
      exists_consItem (splitItems_ne_nil (i.anglesBehind angles) is) i
    -- a separator is the first item, or one behind it
    have hbehind : (∃ before comma behind, i :: is = before ++ .token comma :: behind ∧
      comma.isPunct ',' = true ∧
          (before.flatMap Item.tokens).length = n ∧
          openAngles 0 angles ((before.flatMap Item.tokens).map (·.kind)) = 0) ↔
        (i.isPunct ',' = true ∧ angles = 0 ∧ n = 0) ∨
        ∃ m ∈ separators (tokenRanges (splitItems (i.anglesBehind angles) is)),
            i.tokens.length + m = n := by
      simp only [ih his]
      constructor
      · rintro ⟨before, comma, behind, heq, hcomma, hlen, hangles⟩
        obtain ⟨rfl, heq⟩ | ⟨before, rfl, rfl⟩ := List.cons_eq_append_iff.1 heq
        · obtain ⟨rfl, -⟩ := List.cons.inj heq
          exact .inl ⟨hcomma, hangles, hlen.symm⟩
        · rw [List.flatMap_cons, List.length_append] at hlen
          rw [List.flatMap_cons, List.map_append, hi.openAngles] at hangles
          exact .inr ⟨_, ⟨before, comma, behind, rfl, hcomma, rfl, hangles⟩, hlen⟩
      · rintro (⟨hcomma, rfl, rfl⟩ | ⟨m, ⟨before, comma, behind, rfl, hcomma, rfl, hangles⟩, hlen⟩)
        · cases i with
          | token comma => exact ⟨[], comma, is, rfl, hcomma, rfl, rfl⟩
          | group => cases hcomma
        · refine ⟨i :: before, comma, behind, rfl, hcomma, ?_, ?_⟩
          · rw [List.flatMap_cons, List.length_append, hlen]
          · rw [List.flatMap_cons, List.map_append, hi.openAngles, hangles]
    rw [hbehind, splitItems_cons]
    split
    · next hcomma =>
      obtain ⟨hcomma, rfl⟩ := hcomma
      cases i with
      | group => cases hcomma
      | token comma =>
        have hsame : Item.anglesBehind (.token comma) 0 = 0 := by
          rw [Item.isPunct, Token.isPunct_iff] at hcomma
          simp [Item.anglesBehind, Item.isPunct, Lexeme.isPunct, hcomma]
        rw [hsame] at hranges ⊢
        rw [show tokenRanges ([] :: splitItems 0 is) =
          [] :: tokenRanges (splitItems 0 is) from rfl, hranges, separators]
        simp [Item.tokens, hcomma, Nat.add_comm]
    · next hcomma =>
      rw [hcons, separators_prepend, ← hranges, List.mem_map, or_iff_right]
      exact fun h => hcomma ⟨h.1, h.2.1⟩

theorem isWhole_of_wellNested {ts : List Token} (h : WellNested (delimiters ts)) :
    ∀ i ∈ items ts, i.IsWhole :=
  Item.isWhole_of_mem_items (balanced_iff_wellNested.2 h) rfl

theorem wellNested_of_isWhole {is : List Item} (h : ∀ i ∈ is, i.IsWhole) :
    WellNested (delimiters (is.flatMap Item.tokens)) :=
  balanced_iff_wellNested.1 (Item.balanced_of_isWhole h)

theorem cutAtCommas_splitFields (ts : List Token) : CutAtCommas ts (splitFields ts) := by
  have hcut := cutAtCommas_splitItems 0 (items ts)
  rwa [flatMap_items] at hcut

theorem wellNested_of_mem_splitFields {ts range : List Token} (h : WellNested (delimiters ts))
    (hrange : range ∈ splitFields ts) : WellNested (delimiters range) := by
  obtain ⟨is, his, rfl⟩ := List.mem_map.1 hrange
  exact wellNested_of_isWhole fun i hi =>
    isWhole_of_wellNested h i (((rangesOf_splitItems 0 (items ts)).2 is his).mem hi)

theorem items_comma {before behind : List Token} {comma : Token}
    (h : WellNested (delimiters before)) (hcomma : comma.opener? = none) :
    items (before ++ comma :: behind) = items before ++ .token comma :: items behind := by
  rw [items_append (balanced_iff_wellNested.2 h) rfl, items_cons hcomma]

theorem Token.delimiter?_of_isPunct {t : Token} {c : Char} (h : t.isPunct c = true)
    (hc : isOpener c = false) (hc' : isCloser c = false) : t.delimiter? = none := by
  rw [Token.isPunct_iff] at h
  simp [delimiter?, opener?, closer?, h, hc, hc']

theorem mem_separators_splitFields {before behind : List Token} {comma : Token}
    (h : WellNested (delimiters (before ++ comma :: behind))) (hcomma : comma.isPunct ',' = true) :
    before.length ∈ separators (splitFields (before ++ comma :: behind)) ↔
      OutsideGroups (before ++ comma :: behind) before.length ∧
          openAngles 0 0 (before.map (·.kind)) = 0 := by
  have hnone := Token.delimiter?_of_isPunct hcomma rfl rfl
  have hopener := (Token.delimiter?_eq_none_iff.1 hnone).1
  have hwhole := isWhole_of_wellNested h
  rw [outsideGroups_iff h hnone, splitFields, ← tokenRanges, mem_separators_splitItems hwhole]
  constructor
  · rintro ⟨is, t, js, hitems, -, hlen, hangles⟩
    have hfront : (is ++ .token t :: js).flatMap Item.tokens = before ++ comma :: behind := by
      rw [← hitems, flatMap_items]
    rw [List.flatMap_append] at hfront
    obtain ⟨rfl, -⟩ := List.append_inj hfront hlen
    refine ⟨wellNested_of_isWhole fun i hi => hwhole i ?_, hangles⟩
    rw [hitems]
    exact List.mem_append_left _ hi
  · rintro ⟨hbefore, hangles⟩
    refine ⟨items before, comma, items behind, items_comma hbefore hopener, hcomma, ?_, ?_⟩
    · rw [flatMap_items]
    · rwa [flatMap_items]

/-- The field is read off the range: its type stands there, balanced and in front of any default
value. -/
structure Field.ReadOff (range : List Token) (f : Field) : Prop where
  stands : typeTokens range <:+: range
  nonempty : typeTokens range ≠ []
  wellNested : WellNested (delimiters (typeTokens range))
  undefaulted : ∀ i sign, (typeTokens range)[i]? = some sign → sign.isPunct '=' = true →
    ¬OutsideGroups (typeTokens range) i
  field : f = ⟨fieldLabel? range, (Token.sourceOf (typeTokens range)).collapse⟩

theorem wellNested_splitLabel? {ts : List Token} (h : WellNested (delimiters ts)) :
    WellNested (delimiters ((splitLabel? ts).elim ts Prod.snd)) := by
  have htail : ∀ {t : Token} {us : List Token}, t.delimiter? = none →
    WellNested (delimiters (t :: us)) →
      WellNested (delimiters us) := fun ht hus => by
    rwa [delimiters, List.filterMap_cons_none ht] at hus
  have hident : ∀ {t : Token}, t.kind = .ident → t.delimiter? = none := fun ht => by
    simp [Token.delimiter?, Token.opener?, Token.closer?, ht]
  have hcolon : ∀ {t : Token}, t.isPunct ':' = true → t.delimiter? = none := fun ht =>
    Token.delimiter?_of_isPunct ht rfl rfl
  unfold splitLabel?
  split
  · split
    · next hl =>
      split
      · next hc => exact htail (hcolon hc) (htail (hident hl) h)
      split
      · next hc =>
        split
        · split
          · next hd => exact htail (hcolon hd) (htail (hident hc) (htail (hident hl) h))
          · exact h
        · exact h
      · exact h
    · exact h
  · exact h

theorem wellNested_beforeDefault {ts : List Token} (h : WellNested (delimiters ts)) :
    WellNested (delimiters (beforeDefault ts)) :=
  wellNested_of_isWhole fun i hi => isWhole_of_wellNested h i ((List.takeWhile_prefix _).mem hi)

theorem takeWhile_append_cons_prefix {α : Type}
    {p : α → Bool} {as bs : List α} {x : α} (hx : p x = false) :
    (as ++ x :: bs).takeWhile p <+: as := by
  induction as with
  | nil => simp [hx]
  | cons a as ih =>
    rw [List.cons_append, List.takeWhile_cons]
    split
    · exact (List.prefix_cons_inj a).2 ih
    · exact List.nil_prefix

theorem not_outsideGroups_beforeDefault {ts : List Token} (h : WellNested (delimiters ts)) {i : Nat}
    {sign : Token} (hi : (beforeDefault ts)[i]? = some sign) (hsign : sign.isPunct '=' = true) :
    ¬OutsideGroups (beforeDefault ts) i := by
  intro houtside
  have hnone := Token.delimiter?_of_isPunct hsign rfl rfl
  obtain ⟨before, behind, hsplit, rfl⟩ := exists_append_of_getElem? hi
  have hnested := wellNested_beforeDefault h
  rw [hsplit] at houtside hnested
  rw [outsideGroups_iff hnested hnone] at houtside
  obtain ⟨rest, hrest⟩ := isPrefix_beforeDefault ts
  have hitems : items ts = items before ++ .token sign :: items (behind ++ rest) := by
    rw [← hrest, hsplit, List.append_assoc, List.cons_append]
    exact items_comma houtside (Token.delimiter?_eq_none_iff.1 hnone).1
  have hprefix : beforeDefault ts <+: before := by
    have hcut : (items ts).takeWhile (fun i => !i.isPunct '=') <+: items before := by
      rw [hitems]
      exact takeWhile_append_cons_prefix (by simp [Item.isPunct, hsign])
    obtain ⟨more, hmore⟩ := hcut
    refine ⟨more.flatMap Item.tokens, ?_⟩
    rw [beforeDefault, ← List.flatMap_append, hmore, flatMap_items]
  have hlen := hprefix.length_le
  rw [hsplit, List.length_append, List.length_cons] at hlen
  omega

theorem wellNested_payloadTokens {front behind : List Token}
    (h : WellNested (delimiters (front ++ behind))) :
    WellNested (delimiters (payloadTokens behind)) := by
  unfold payloadTokens
  split
  · next t rest =>
    split
    · next ht =>
      have hopener := Token.opener?_of_kind (c := '(') rfl (Token.isPunct_iff.1 ht)
      obtain ⟨g, hg, -, hinside⟩ := exists_group?_eq_some (balanced_iff_wellNested.2 h) hopener
      rw [hg]
      exact balanced_iff_wellNested.1 hinside
    · exact .nil
  · exact .nil

theorem Field.readOff {range : List Token} (h : WellNested (delimiters range))
    (hne : typeTokens range ≠ []) :
    Field.ReadOff range ⟨fieldLabel? range, (Token.sourceOf (typeTokens range)).collapse⟩ where
  stands := isInfix_typeTokens range
  nonempty := hne
  wellNested := wellNested_beforeDefault (wellNested_splitLabel? h)
  undefaulted := fun _ _ => not_outsideGroups_beforeDefault (wellNested_splitLabel? h)
  field := rfl

/-- A payload is cut at its commas without a loss. Each range is balanced, and the commas that
separate them are those that no group holds and in front of which as many angle brackets close as
open. So the fields of a case are read off the ranges of its payload that hold tokens, one off each.
-/
theorem splitFields_exact :
    (∀ tokens, WellNested (delimiters tokens) →
      CutAtCommas tokens (splitFields tokens) ∧
        (∀ range ∈ splitFields tokens, WellNested (delimiters range)) ∧
      ∀ i comma, tokens[i]? = some comma → comma.isPunct ',' = true →
        (i ∈ separators (splitFields tokens) ↔
          OutsideGroups tokens i ∧ openAngles 0 0 ((tokens.take i).map (·.kind)) = 0)) ∧
    ∀ src enums, readEnumerations src = .ok enums → ∃ tokens, tokenize src = .ok tokens ∧
      ∀ e ∈ enums, ∀ c ∈ e.decl.cases, ∃ before name behind, tokens = before ++ name :: behind ∧
        name.kind = .ident ∧ c.name = name.name ∧ payloadTokens behind <:+: behind ∧
        WellNested (delimiters (payloadTokens behind)) ∧
        List.Forall₂ Field.ReadOff ((splitFields (payloadTokens behind)).filter (!·.isEmpty))
            c.fields := by
  refine ⟨fun tokens h => ⟨cutAtCommas_splitFields tokens, fun _ => wellNested_of_mem_splitFields h,
    ?_⟩, ?_⟩
  · intro i comma hi hcomma
    obtain ⟨before, behind, rfl, rfl⟩ := exists_append_of_getElem? hi
    rw [mem_separators_splitFields h hcomma, List.take_left']
    rfl
  · intro src enums h
    obtain ⟨tokens, htokens, hcases⟩ := exists_declaredIn_of_readEnumerations h
    obtain ⟨_, htokens', hchecked⟩ := exists_of_bind_eq_ok h
    obtain rfl := Except.ok.inj (htokens.symm.trans htokens')
    obtain ⟨⟨⟩, hcheck, -⟩ := exists_of_bind_eq_ok hchecked
    have hnested := checkDelimiters_eq_ok_iff.1 hcheck
    refine ⟨tokens, htokens, fun e he c hc => ?_⟩
    obtain ⟨before, name, behind, rfl, hkind, hname, hfields⟩ := hcases e he c hc
    rw [List.append_cons] at hnested
    have hpayload := wellNested_payloadTokens hnested
    refine ⟨before, name, behind, rfl, hkind, hname, isInfix_payloadTokens behind, hpayload, ?_⟩
    obtain ⟨hlen, hread⟩ := List.forall₂_iff_zip.1 (readFields_eq_ok_iff.1 hfields)
    refine List.forall₂_iff_zip.2 ⟨hlen, fun {range f} hmem => ?_⟩
    obtain ⟨hne, rfl⟩ := hread hmem
    have hrange := (List.mem_filter.1 (List.of_mem_zip hmem).1).1
    exact Field.readOff (wellNested_of_mem_splitFields hpayload hrange) hne

/-- Commas in angle brackets, in a group and in front of nothing. -/
theorem splitFields_exact_generics :
    ∃ tokens, tokenize "enum E \x7b case a(x: A<B, C> = d, (D, E),) \x7d".toList = .ok tokens ∧
      ∃ before name behind, tokens = before ++ name :: behind ∧ name.kind = .ident ∧
        "a".toList = name.name ∧
        payloadTokens behind <:+: behind ∧ WellNested (delimiters (payloadTokens behind)) ∧
        List.Forall₂ Field.ReadOff ((splitFields (payloadTokens behind)).filter (!·.isEmpty))
          [⟨some "x".toList, "A<B, C>".toList⟩, ⟨none, "(D, E)".toList⟩] := by
  have hread : readEnumerations "enum E \x7b case a(x: A<B, C> = d, (D, E),) \x7d".toList =
      .ok [⟨⟨"E".toList, none, [], [⟨"a".toList, [⟨some "x".toList, "A<B, C>".toList⟩,
        ⟨none, "(D, E)".toList⟩]⟩]⟩, 41, none, []⟩] :=
    eq_ok_of_toOption (by decide +kernel)
  obtain ⟨tokens, htokens, hcases⟩ := splitFields_exact.2 _ _ hread
  exact ⟨tokens, htokens, hcases _ (List.mem_singleton_self _) _ (List.mem_singleton_self _)⟩

end CaseAccessors
