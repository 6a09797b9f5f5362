import CaseAccessors.Proofs.FieldReading
import CaseAccessors.Proofs.Tiling

/-! Whether the body that is read of an enum is its own. It begins at the next brace behind the
name, wherever that stands: this need not be in the group that the keyword stands in. -/
namespace CaseAccessors

def nesting : List Kind → Int
  | [] => 0
  | k :: ks => (if k.opener?.isSome then 1 else if k.closer?.isSome then -1 else 0) + nesting ks

@[simp] theorem nesting_nil : nesting [] = 0 := rfl

@[simp] theorem nesting_append (ks ls : List Kind) :
    nesting (ks ++ ls) = nesting ks + nesting ls := by
  induction ks with
  | nil => simp
  | cons k ks ih => rw [List.cons_append, nesting, nesting, ih, Int.add_assoc]

theorem nesting_cons_opener {k : Kind} {c : Char} (h : k.opener? = some c) (ks : List Kind) :
    nesting (k :: ks) = 1 + nesting ks := by simp [nesting, h]

theorem nesting_cons_closer {k : Kind} {c : Char} (h : k.closer? = some c) (ks : List Kind) :
    nesting (k :: ks) = -1 + nesting ks := by simp [nesting, h, Kind.opener?_of_closer? h]

theorem nesting_cons_other {k : Kind} (ho : k.opener? = none) (hc : k.closer? = none)
    (ks : List Kind) :
    nesting (k :: ks) = nesting ks := by simp [nesting, ho, hc]

namespace Balanced

theorem nesting_eq_zero {ks : List Kind} (h : Balanced ks) : nesting ks = 0 := by
  induction h with
  | nil => rfl
  | other ho hc _ ih => rw [nesting_cons_other ho hc, ih]
  | group ho hc _ _ ihi ihk =>
    rw [nesting_cons_opener ho, nesting_append, nesting_cons_closer hc, ihi, ihk]
    rfl

theorem cons_iff {k : Kind} {ks : List Kind} (ho : k.opener? = none) (hc : k.closer? = none) :
    Balanced (k :: ks) ↔ Balanced ks := by
  refine ⟨fun h => ?_, .other ho hc⟩
  generalize hls : k :: ks = ls at h
  cases h with
  | nil => cases hls
  | other _ _ h => exact (List.cons.inj hls).2 ▸ h
  | group ho' =>
    rw [(List.cons.inj hls).1, ho'] at ho
    cases ho

theorem nesting_nonneg {ks ls : List Kind} (h : Balanced (ks ++ ls)) : 0 ≤ nesting ks := by
  generalize hms : ks ++ ls = ms at h
  induction h generalizing ks ls with
  | nil => simp [(List.append_eq_nil_iff.1 hms).1]
  | other ho hc _ ih =>
    obtain ⟨rfl, -⟩ | ⟨ks, rfl, hks⟩ := List.append_eq_cons_iff.1 hms
    · exact Int.le_refl 0
    · rw [nesting_cons_other ho hc]
      exact ih hks.symm
  | group ho hc hinside _ ihi ihk =>
    obtain ⟨rfl, -⟩ | ⟨ks, rfl, hks⟩ := List.append_eq_cons_iff.1 hms
    · exact Int.le_refl 0
    rw [nesting_cons_opener ho]
    obtain ⟨mid, rfl, hmid⟩ | ⟨mid, rfl, -⟩ := List.append_eq_append_iff.1 hks
    · -- they end behind what the group holds
      rw [nesting_append, hinside.nesting_eq_zero]
      obtain ⟨rfl, -⟩ | ⟨mid, rfl, hmid⟩ := List.cons_eq_append_iff.1 hmid
      · simp
      · rw [nesting_cons_closer hc]
        have := ihk (List.cons.inj hmid).2.symm
        omega
    · have := ihi rfl
      omega

end Balanced

/-- A group opens in the first part and closes in the last one, so it holds what stands between. -/
def Spans (pre mid post : List Kind) : Prop :=
  ∃ l o a b k r c, pre = l ++ o :: a ∧ post = b ++ k :: r ∧ o.opener? = some c ∧
    k.closer? = some (closerOf c) ∧ Balanced (a ++ (mid ++ b))

namespace Spans

variable {pre mid post : List Kind}

theorem append_left (h : Spans pre mid post) (ks : List Kind) : Spans (ks ++ pre) mid post := by
  obtain ⟨l, o, a, b, k, r, c, rfl, hpost, hok⟩ := h
  exact ⟨ks ++ l, o, a, b, k, r, c, by simp, hpost, hok⟩

theorem append_right (h : Spans pre mid post) (ks : List Kind) : Spans pre mid (post ++ ks) := by
  obtain ⟨l, o, a, b, k, r, c, hpre, rfl, hok⟩ := h
  exact ⟨l, o, a, b, k, r ++ ks, c, hpre, by simp, hok⟩

theorem not_balanced_left (h : Spans pre mid post) : ¬ Balanced pre := by
  obtain ⟨l, o, a, b, k, r, c, rfl, -, ho, -, hinside⟩ := h
  intro hpre
  have hall := hpre.nesting_eq_zero
  rw [nesting_append, nesting_cons_opener ho] at hall
  have hl := hpre.nesting_nonneg
  have ha := hinside.nesting_nonneg
  omega

theorem not_balanced_right (h : Spans pre mid post) (hmid : nesting mid = 0) : ¬ Balanced post := by
  obtain ⟨l, o, a, b, k, r, c, -, rfl, -, hk, hinside⟩ := h
  intro hpost
  have hall := hinside.nesting_eq_zero
  rw [nesting_append, nesting_append, hmid] at hall
  rw [List.append_cons] at hpost
  have hbk := hpost.nesting_nonneg
  rw [nesting_append, nesting_cons_closer hk] at hbk
  have ha := hinside.nesting_nonneg
  simp at hbk
  omega

end Spans

namespace Balanced

theorem or_spans {ks post : List Kind} {y : Kind} (h : Balanced (ks ++ y :: post))
    (hy : y.closer? = none) :
    Balanced ks ∨ Spans ks [y] post := by
  generalize hms : ks ++ y :: post = ms at h
  induction h generalizing ks post with
  | nil => simp at hms
  | @other x xs ho hc _ ih =>
    obtain ⟨rfl, -⟩ | ⟨ks, rfl, hks⟩ := List.append_eq_cons_iff.1 hms
    · exact .inl .nil
    · exact (ih hks.symm).imp (.other ho hc) (.append_left · [x])
  | @group o k c inside xs ho hc hinside hxs ihi ihk =>
    obtain ⟨rfl, -⟩ | ⟨ks, rfl, hks⟩ := List.append_eq_cons_iff.1 hms
    · exact .inl .nil
    obtain ⟨m, rfl, rfl⟩ | ⟨-, rfl, -⟩ | ⟨m, rfl, rfl⟩ := cases_of_append_cons hks.symm
    · exact .inr ⟨[], o, ks, m, k, xs, c, rfl, rfl, ho, hc, hinside⟩
    · rw [hc] at hy
      cases hy
    · refine (ihk rfl).imp (.group ho hc hinside) fun hspans => ?_
      simpa using hspans.append_left (o :: (inside ++ [k]))

/-- Between two kinds all is balanced, or some group holds one of them only. -/
theorem between_or_spans {pre mid post : List Kind} {x y : Kind}
    (h : Balanced (pre ++ x :: (mid ++ y :: post))) (hxo : x.opener? = none)
    (hxc : x.closer? = none)
    (hy : y.closer? = none) : Balanced mid ∨ Spans pre [x] mid ∨ Spans mid [y] post := by
  generalize hms : pre ++ x :: (mid ++ y :: post) = ms at h
  induction h generalizing pre post with
  | nil => simp at hms
  | @other z zs ho hc hzs ih =>
    obtain ⟨rfl, hks⟩ | ⟨pre, rfl, hks⟩ := List.append_eq_cons_iff.1 hms
    · obtain ⟨rfl, rfl⟩ := List.cons.inj hks
      exact (hzs.or_spans hy).imp_right .inr
    · exact (ih hks.symm).imp_right (Or.imp_left (.append_left · [z]))
  | @group o k c inside zs ho hc hinside hzs ihi ihk =>
    obtain ⟨rfl, hks⟩ | ⟨pre, rfl, hks⟩ := List.append_eq_cons_iff.1 hms
    · obtain ⟨rfl, -⟩ := List.cons.inj hks
      rw [ho] at hxo
      cases hxo
    obtain ⟨b, rfl, hb⟩ | ⟨-, rfl, -⟩ | ⟨l, rfl, rfl⟩ := cases_of_append_cons hks.symm
    · obtain ⟨m, rfl, rfl⟩ | ⟨-, rfl, -⟩ | ⟨r, rfl, rfl⟩ := cases_of_append_cons hb
      · -- the group holds both
        exact (ihi rfl).imp_right (Or.imp (.append_left · [o]) (.append_right · (k :: zs)))
      · rw [hc] at hy
        cases hy
      · -- the group holds the first one only
        exact .inr (.inl ⟨[], o, pre, b, k, r, c, rfl, rfl, ho, hc, by simpa using hinside⟩)
    · rw [hc] at hxc
      cases hxc
    · -- both stand behind the group
      refine (ihk rfl).imp_right (Or.imp_left fun hspans => ?_)
      simpa using hspans.append_left (o :: (inside ++ [k]))

theorem between_iff {pre mid post : List Kind} {x y : Kind}
    (h : Balanced (pre ++ x :: (mid ++ y :: post)))
    (hxo : x.opener? = none) (hxc : x.closer? = none) (hy : y.closer? = none) :
    Balanced mid ↔ ¬ Spans pre [x] mid ∧ ¬ Spans mid [y] post := by
  constructor
  · intro hmid
    refine ⟨fun hspans => ?_, fun hspans => hspans.not_balanced_left hmid⟩
    exact hspans.not_balanced_right (nesting_cons_other hxo hxc []) hmid
  · rintro ⟨hx, hy'⟩
    exact (h.between_or_spans hxo hxc hy).resolve_right (not_or.2 ⟨hx, hy'⟩)

end Balanced

def own (ts : List Token) : List Token := (group? 0 ts).elim ts Group.inside

theorem own_append {ts : List Token} (h : Balanced (ts.map (·.kind))) (rest : List Token) :
    own (ts ++ rest) = ts ++ own rest := by
  rw [own, own, group?_append h rfl]
  cases group? 0 rest <;> rfl

theorem own_group {o k : Token} {c : Char} {inside : List Token} (ho : o.opener? = some c)
    (hk : k.closer? = some (closerOf c)) (hinside : Balanced (inside.map (·.kind)))
    (rest : List Token) :
    own (o :: (inside ++ k :: rest)) = o :: (inside ++ k :: own rest) := by
  have hgroup : Balanced ((o :: (inside ++ [k])).map (·.kind)) := by
    simpa using Balanced.group ho hk hinside .nil
  simpa using own_append hgroup rest

theorem own_isPrefix (ts : List Token) : own ts <+: ts := by
  cases h : group? 0 ts with
  | none => rw [own, h]; exact List.prefix_refl ts
  | some g => rw [own, h]; exact ⟨_, (append_of_group? h).symm⟩

theorem exists_checkDelimiters {pending : List (Token × Char)} {ts us : List Token}
    (h : checkDelimiters pending (ts ++ us) = .ok ()) :
    ∃ pending, checkDelimiters pending us = .ok () := by
  induction ts generalizing pending with
  | nil => exact ⟨pending, h⟩
  | cons t ts ih =>
    rw [List.cons_append, checkDelimiters] at h
    split at h
    · exact ih h
    · exact ih h
    split at h
    · split at h
      · exact ih h
      · cases h
    · cases h

theorem balanced_own {ts us : List Token} (h : Balanced ((ts ++ us).map (·.kind))) :
    Balanced ((own us).map (·.kind)) := by
  have hcheck := checkDelimiters_append h rfl [] []
  rw [List.append_nil] at hcheck
  obtain ⟨pending, hpending⟩ := exists_checkDelimiters hcheck
  have hcloses := closes_of_checkDelimiters hpending
  cases pending with
  | nil =>
    have hown := own_append hcloses []
    rw [List.append_nil] at hown
    rwa [hown, own, group?, Option.elim, List.append_nil]
  | cons p outer =>
    obtain ⟨ks, k, ls, hks, hinside, hk, -⟩ := hcloses
    obtain ⟨inside, vs, rfl, rfl, hvs⟩ := List.map_eq_append_iff.1 hks
    obtain ⟨closing, behind, rfl, rfl, -⟩ := List.map_eq_cons_iff.1 hvs
    rwa [own, group?_eq_some hinside hk]

theorem balanced_of_items {ks : List Kind} (h : Balanced ks) {ts : List Token}
    (hts : ts.map (·.kind) = ks) {is js : List Item} (hitems : items ts = is ++ js) :
    Balanced ((is.flatMap Item.tokens).map (·.kind)) := by
  induction h generalizing ts is with
  | nil =>
    obtain rfl := List.map_eq_nil_iff.1 hts
    rw [items] at hitems
    obtain ⟨rfl, -⟩ := List.append_eq_nil_iff.1 hitems.symm
    exact .nil
  | other ho hc _ ih =>
    obtain ⟨t, us, rfl, rfl, hus⟩ := List.map_eq_cons_iff.1 hts
    rw [items_cons ho] at hitems
    obtain ⟨rfl, -⟩ | ⟨is, rfl, his⟩ := List.append_eq_cons_iff.1 hitems.symm
    · exact .nil
    · exact .other ho hc (ih hus his)
  | group ho hk hinside _ _ ih =>
    obtain ⟨o, us, rfl, rfl, hus⟩ := List.map_eq_cons_iff.1 hts
    obtain ⟨ins, vs, rfl, rfl, hvs⟩ := List.map_eq_append_iff.1 hus
    obtain ⟨k, xs, rfl, rfl, hxs⟩ := List.map_eq_cons_iff.1 hvs
    rw [items_group ho hk hinside] at hitems
    obtain ⟨rfl, -⟩ | ⟨is, rfl, his⟩ := List.append_eq_cons_iff.1 hitems.symm
    · exact .nil
    · have := Balanced.group ho hk hinside (ih hxs his)
      simpa [Item.tokens] using this

def Item.brace? : Item → Option Token
  | .group opening _ _ => if opening.isPunct '{' then some opening else none
  | .token _ => none

namespace Site

/-- The tokens between the keyword and the next brace behind the name. -/
def header (s : Site) : List Token := s.name :: s.clause

/-- The brace of the enum's own body: of the first group in braces behind the name, in the group
that the keyword stands in. -/
def ownBrace? (s : Site) : Option Token := (items (own s.behind)).findSome? Item.brace?

theorem eq_of_mem_among {before tokens : List Token} {s : Site} (h : s ∈ among before tokens) :
    before.reverse ++ tokens = s.before.reverse ++ s.keyword :: s.name :: s.behind ∧
      s.keyword.kind = .ident ∧ s.name.kind = .ident := by
  fun_induction among before tokens with
  | case1 before keyword name behind rest hsite ih =>
    rcases List.mem_cons.1 h with rfl | h
    · simp only [Bool.and_eq_true, beq_iff_eq, Lexeme.isWord] at hsite
      exact ⟨rfl, hsite.1.1.1, hsite.1.2⟩
    · simpa using ih h
  | case2 before keyword name behind rest hsite ih => simpa using ih h
  | case3 => cases h

theorem isPunct_of_mem_clause {s : Site} : ∀ t ∈ s.clause, t.isPunct '{' = false := fun t ht => by
  simpa using List.mem_takeWhile_imp ht

end Site

theorem brace?_of_mem_items {ts : List Token} (h : ∀ t ∈ ts, t.isPunct '{' = false) :
    ∀ i ∈ items ts, i.brace? = none := by
  intro i hi
  cases i with
  | token t => rfl
  | group o ins k =>
    have ho : o ∈ (items ts).flatMap Item.tokens :=
      List.mem_flatMap.2 ⟨_, hi, by simp [Item.tokens]⟩
    rw [flatMap_items] at ho
    simp [Item.brace?, h o ho]

theorem Item.exists_of_brace? {i : Item} {brace : Token} (h : i.brace? = some brace) :
    ∃ ts, i.tokens = brace :: ts ∧ brace.isPunct '{' = true := by
  cases i with
  | token t => cases h
  | group o ins k =>
    rw [brace?] at h
    split at h
    · next ho =>
      cases h
      exact ⟨ins ++ [k], rfl, ho⟩
    · cases h

namespace Site

/-- The group in braces that an enum is read from. -/
structure ReadFrom (s : Site) (e : Enumeration) (brace : Token) (inside : List Token)
    (closing : Token) (rest : List Token) : Prop where
  behind_eq : s.behind = s.clause ++ brace :: (inside ++ closing :: rest)
  opens : brace.kind = .punct '{'
  balanced : Balanced (inside.map (·.kind))
  closes : closing.kind = .punct '}'
  name : e.decl.name = s.name.name
  contents : Body.read inside = .ok ⟨e.decl.members.map Member.name, e.decl.cases⟩
  closeOffset : e.closeOffset = closing.place.offset

theorem exists_readFrom {s : Site} {front : List Token}
    (h : Balanced ((front ++ s.behind).map (·.kind)))
    {src : Text} {e : Enumeration} (he : s.enumeration src = .ok e) :
    ∃ brace inside closing rest, s.ReadFrom e brace inside closing rest := by
  obtain ⟨brace, g, b, hbody, hread, rfl⟩ := enumeration_eq_ok_iff.1 he
  obtain ⟨hbehind, hbrace, hinside, hclosing⟩ := behind_of_body h hbody
  refine ⟨brace, g.inside, g.closing, g.behind, hbehind, hbrace, hinside, hclosing, rfl, ?_, rfl⟩
  rw [hread, List.map_map]
  exact congrArg (fun names => Except.ok (Body.mk names b.cases)) (List.map_id _).symm

namespace ReadFrom

variable {s : Site} {e : Enumeration} {brace closing : Token} {inside rest : List Token}

theorem ownBrace?_of_balanced (h : s.ReadFrom e brace inside closing rest)
    (hclause : Balanced (s.clause.map (·.kind))) : s.ownBrace? = some brace := by
  have hopener := Token.opener?_of_kind rfl h.opens
  have hcloser := Token.closer?_of_kind rfl h.closes
  rw [ownBrace?, h.behind_eq, own_append hclause, own_group hopener hcloser h.balanced,
    items_append hclause rfl, items_group hopener hcloser h.balanced, List.findSome?_append,
    List.findSome?_eq_none_iff.2 (brace?_of_mem_items isPunct_of_mem_clause)]
  simp [Item.brace?, Token.isPunct_iff.2 h.opens]

theorem balanced_of_ownBrace? (h : s.ReadFrom e brace inside closing rest) {front : List Token}
    (hbalanced : Balanced ((front ++ s.behind).map (·.kind))) (hnodup : s.behind.Nodup)
    (hown : s.ownBrace? = some brace) : Balanced (s.clause.map (·.kind)) := by
  obtain ⟨is, i, js, hitems, hi, -⟩ := List.findSome?_eq_some_iff.1 hown
  obtain ⟨ts, htokens, hbrace⟩ := Item.exists_of_brace? hi
  obtain ⟨more, hmore⟩ := own_isPrefix s.behind
  have hsplit : is.flatMap Item.tokens ++ brace :: (ts ++ (js.flatMap Item.tokens ++ more)) =
      s.clause ++ brace :: (inside ++ closing :: rest) := by
    rw [← h.behind_eq, ← hmore, ← flatMap_items (own s.behind), hitems]
    simp [htokens]
  obtain ⟨m, hclause, -⟩ | ⟨hclause, -⟩ | ⟨m, -, hrest⟩ := cases_of_append_cons hsplit
  · -- no brace stands in front of the next one
    have := isPunct_of_mem_clause (s := s) brace (by simp [hclause])
    rw [hbrace] at this
    cases this
  · rw [← hclause]
    exact balanced_of_items (balanced_own hbalanced) rfl hitems
  · -- no token stands twice
    rw [h.behind_eq, hrest] at hnodup
    simp [List.nodup_append] at hnodup

end ReadFrom

end Site

theorem nodup_of_tokenize {src : Text} {ts : List Token} (h : tokenize src = .ok ts) :
    ts.Nodup := by
  obtain ⟨-, hpairwise, hplaces⟩ := tokenize_tiles h
  refine (List.pairwise_iff_forall_sublist.2 fun {t u} htu => ?_)
  rintro rfl
  have hle := List.pairwise_iff_forall_sublist.1 hpairwise htu
  have hlt := (hplaces t (htu.subset List.mem_cons_self)).1
  omega

/-- An enum is read at each place where one is declared, from the group that the next brace behind
its name begins. What stands between the keyword and this brace is balanced if no group holds only
one of them, and just then the brace is that of the enum's own body. -/
theorem readEnumerations_header {src : Text} {enums : List Enumeration}
    (h : readEnumerations src = .ok enums) :
    ∃ tokens, tokenize src = .ok tokens ∧ List.Forall₂ (fun s e => ∃ brace inside closing rest,
      tokens = s.before.reverse ++ s.keyword :: (s.header ++ brace :: (inside ++ closing :: rest)) ∧
      s.ReadFrom e brace inside closing rest ∧
      (Balanced (s.header.map (·.kind)) ↔
        ¬ Spans (s.before.reverse.map (·.kind)) [s.keyword.kind] (s.header.map (·.kind)) ∧
        ¬ Spans (s.header.map (·.kind)) [brace.kind] ((inside ++ closing :: rest).map (·.kind))) ∧
      (Balanced (s.header.map (·.kind)) ↔ s.ownBrace? = some brace)) (Site.among [] tokens)
        enums := by
  obtain ⟨ps, rfl, hps, hbalanced, hread⟩ := exists_pieces_of_readEnumerations h
  have htokens := Piece.tokenize_textOf hps
  refine ⟨_, htokens, ((List.forall₂_and_left _ _).2 ⟨fun s hs => hs, hread⟩).imp ?_⟩
  rintro s e ⟨hs, he⟩
  obtain ⟨hsplit, hkeyword, hname⟩ := Site.eq_of_mem_among hs
  rw [List.reverse_nil, List.nil_append] at hsplit
  have hnodup := nodup_of_tokenize htokens
  rw [hsplit] at hbalanced hnodup
  have hfront : s.before.reverse ++ s.keyword :: s.name :: s.behind =
      (s.before.reverse ++ [s.keyword, s.name]) ++ s.behind := by simp
  rw [hfront] at hnodup
  have hbehind := hbalanced
  rw [hfront] at hbehind
  obtain ⟨brace, inside, closing, rest, hfrom⟩ := Site.exists_readFrom hbehind he
  have htile : s.name :: s.behind = s.header ++ brace :: (inside ++ closing :: rest) := by
    rw [hfrom.behind_eq]
    rfl
  rw [htile] at hsplit hbalanced
  refine ⟨brace, inside, closing, rest, hsplit, hfrom, ?_, ?_⟩
  · rw [List.map_append, List.map_cons, List.map_append, List.map_cons, hkeyword, hfrom.opens]
      at hbalanced
    rw [hkeyword, hfrom.opens]
    exact hbalanced.between_iff rfl rfl rfl
  · rw [Site.header, List.map_cons, hname, Balanced.cons_iff rfl rfl]
    exact ⟨hfrom.ownBrace?_of_balanced,
      hfrom.balanced_of_ownBrace? hbehind (List.nodup_append.1 hnodup).2.1⟩

theorem readEnumerations_header_nested :
    ∃ enums, readEnumerations "struct A \x7b enum B: C<[D]> \x7b case e \x7d \x7d".toList =
      .ok enums ∧
      enums.map (·.decl.name) = [['B']] ∧
      ∃ tokens, tokenize "struct A \x7b enum B: C<[D]> \x7b case e \x7d \x7d".toList = .ok tokens ∧
        List.Forall₂
          (fun s e => ∃ brace inside closing rest, s.ReadFrom e brace inside closing rest ∧
          (Balanced (s.header.map (·.kind)) ↔ s.ownBrace? = some brace)) (Site.among [] tokens)
              enums := by
  have hread :
      (readEnumerations "struct A \x7b enum B: C<[D]> \x7b case e \x7d \x7d".toList).toOption.map
        (·.map (·.decl.name)) = some [['B']] := by decide +kernel
  obtain ⟨enums, henums, hnames⟩ := Option.map_eq_some_iff.1 hread
  have hok := eq_ok_of_toOption henums
  obtain ⟨tokens, htokens, hall⟩ := readEnumerations_header hok
  refine ⟨enums, hok, hnames, tokens, htokens, hall.imp ?_⟩
  rintro s e ⟨brace, inside, closing, rest, -, hfrom, -, hown⟩
  exact ⟨brace, inside, closing, rest, hfrom, hown⟩

/-- A function with a parameter that has the label `enum`. -/
def labelledParameter : Text :=
  "func handle(enum value: Int?) \x7b\n    if case let x? = value \x7b\n        print(x)\n    \x7d\n\x7d\n".toList

/-- The label is taken for the keyword, so the body of the function is read, and an accessor goes
into it. -/
theorem header_of_parameter :
    (readEnumerations labelledParameter).toOption.map
      (·.map fun e => (e.decl.name, e.closeOffset, e.decl.missing.map (·.name))) =
      some [("value".toList, 84, ["let".toList])] ∧
    ∃ tokens s, tokenize labelledParameter = .ok tokens ∧ Site.among [] tokens = [s] ∧
      ¬ Balanced (s.header.map (·.kind)) := by
  refine ⟨by decide +kernel, ?_⟩
  have hread : (tokenize labelledParameter).toOption.map
      (fun ts => (Site.among [] ts).map fun s => (checkDelimiters [] s.header).toOption) =
        some [none] := by decide +kernel
  obtain ⟨tokens, htokens, hsites⟩ := Option.map_eq_some_iff.1 hread
  obtain ⟨s, rest, hs, hcheck, hrest⟩ := List.map_eq_cons_iff.1 hsites
  obtain rfl := List.map_eq_nil_iff.1 hrest
  refine ⟨tokens, s, eq_ok_of_toOption htokens, hs, fun hbalanced => ?_⟩
  have hok := checkDelimiters_append hbalanced rfl [] []
  rw [List.append_nil] at hok
  rw [hok] at hcheck
  cases hcheck

end CaseAccessors
