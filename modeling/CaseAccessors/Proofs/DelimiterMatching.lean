import CaseAccessors.Proofs.Balance

/-! Matching delimiters. The check is a machine with a stack of what is open: it accepts the token
lists whose delimiters are a well-nested word, and tells of any other list where it ceases to begin
one, or what it leaves open. In a list that is accepted the group that each opening delimiter begins
ends at its partner. -/
namespace CaseAccessors

def IsPair (a b : Char) : Prop := (a, b) ∈ [('(', ')'), ('[', ']'), ('\x7b', '\x7d')]

/-- Words in which every delimiter has its partner. -/
inductive WellNested : List Char → Prop where
  | nil : WellNested []
  | group {a b : Char} {inside rest : List Char} : IsPair a b → WellNested inside →
    WellNested rest →
      WellNested (a :: (inside ++ b :: rest))

def Token.delimiter? (t : Token) : Option Char := t.opener?.or t.closer?

def delimiters (ts : List Token) : List Char := ts.filterMap Token.delimiter?

theorem isPair_closerOf {a : Char} (h : isOpener a = true) : IsPair a (closerOf a) := by
  simp only [isOpener, Bool.or_eq_true, beq_iff_eq] at h
  obtain (rfl | rfl) | rfl := h <;> simp [IsPair, closerOf]

theorem IsPair.eq_closerOf {a b : Char} (h : IsPair a b) : b = closerOf a := by
  simp only [IsPair, List.mem_cons, Prod.mk.injEq, List.not_mem_nil, or_false] at h
  obtain ⟨rfl, rfl⟩ | ⟨rfl, rfl⟩ | ⟨rfl, rfl⟩ := h <;> rfl

theorem IsPair.isOpener {a b : Char} (h : IsPair a b) : isOpener a = true ∧ isCloser b = true := by
  simp only [IsPair, List.mem_cons, Prod.mk.injEq, List.not_mem_nil, or_false] at h
  obtain ⟨rfl, rfl⟩ | ⟨rfl, rfl⟩ | ⟨rfl, rfl⟩ := h <;> decide

namespace Token

theorem of_opener? {t : Token} {a : Char} (h : t.opener? = some a) : t.kind = .punct a ∧
    isOpener a = true := by
  rw [opener?] at h
  split at h
  · next hkind =>
    split at h <;> cases h
    next ha => exact ⟨hkind, ha⟩
  · cases h

theorem delimiter?_of_opener? {t : Token} {a : Char} (h : t.opener? = some a) :
    t.delimiter? = some a := by
  rw [delimiter?, h, Option.some_or]

theorem delimiter?_of_closer? {t : Token} {b : Char} (h : t.closer? = some b) :
    t.delimiter? = some b := by
  have ho : t.opener? = none := Kind.opener?_of_closer? h
  rw [delimiter?, ho, Option.none_or, h]

theorem delimiter?_eq_none_iff {t : Token} : t.delimiter? = none ↔ t.opener? = none ∧
    t.closer? = none := by
  rw [delimiter?, Option.or_eq_none_iff]

theorem sides_of_isPair {o k : Token} {a b : Char} (ho : o.delimiter? = some a)
    (hk : k.delimiter? = some b) (h : IsPair a b) : o.opener? = some a ∧ k.closer? = some b := by
  have hkind : ∀ {t : Token} {c : Char}, t.delimiter? = some c → t.kind = .punct c := fun h =>
    (Option.or_eq_some_iff.1 h).elim (fun h => (of_opener? h).1) fun h => kind_of_closer? h.2
  exact ⟨opener?_of_kind h.isOpener.1 (hkind ho), closer?_of_kind h.isOpener.2 (hkind hk)⟩

end Token

@[simp] theorem delimiters_append (ts us : List Token) :
    delimiters (ts ++ us) = delimiters ts ++ delimiters us :=
  List.filterMap_append

theorem WellNested.of_balanced {ks : List Kind} (h : Balanced ks) {ts : List Token}
    (hts : ts.map (·.kind) = ks) :
    WellNested (delimiters ts) := by
  induction h generalizing ts with
  | nil =>
    rw [List.map_eq_nil_iff.1 hts]
    exact .nil
  | other ho hc _ ih =>
    obtain ⟨t, ts, rfl, rfl, htail⟩ := List.map_eq_cons_iff.1 hts
    rw [delimiters, List.filterMap_cons_none (Token.delimiter?_eq_none_iff.2 ⟨ho, hc⟩)]
    exact ih htail
  | @group o k c _ _ ho hc _ _ ihi ihk =>
    obtain ⟨t, us, rfl, rfl, hus⟩ := List.map_eq_cons_iff.1 hts
    obtain ⟨inside, vs, rfl, hinside, hvs⟩ := List.map_eq_append_iff.1 hus
    obtain ⟨u, ts, rfl, rfl, htail⟩ := List.map_eq_cons_iff.1 hvs
    have hpair : IsPair c (closerOf c) := isPair_closerOf (Token.of_opener? ho).2
    rw [delimiters, List.filterMap_cons_some (Token.delimiter?_of_opener? ho),
      List.filterMap_append, List.filterMap_cons_some (Token.delimiter?_of_closer? hc)]
    exact .group hpair (ihi hinside) (ihk htail)

theorem Balanced.of_other {ts : List Token} (h : ∀ t ∈ ts, t.delimiter? = none) :
    Balanced (ts.map (·.kind)) := by
  induction ts with
  | nil => exact .nil
  | cons t ts ih =>
    obtain ⟨ht, hts⟩ := List.forall_mem_cons.1 h
    obtain ⟨ho, hc⟩ := Token.delimiter?_eq_none_iff.1 ht
    exact .other ho hc (ih hts)

theorem Balanced.of_wellNested {w : List Char} (h : WellNested w) {ts : List Token}
    (hts : delimiters ts = w) :
    Balanced (ts.map (·.kind)) := by
  induction h generalizing ts with
  | nil => exact .of_other fun t ht => List.filterMap_eq_nil_iff.1 hts t ht
  | group hpair _ _ ihi ihr =>
    obtain ⟨front, o, us, rfl, hfront, ho, hus⟩ := List.filterMap_eq_cons_iff.1 hts
    obtain ⟨inside, vs, rfl, hinside, hvs⟩ := List.filterMap_eq_append_iff.1 hus
    obtain ⟨middle, k, rest, rfl, hmiddle, hk, hrest⟩ := List.filterMap_eq_cons_iff.1 hvs
    obtain ⟨ho, hk⟩ := Token.sides_of_isPair ho hk hpair
    rw [hpair.eq_closerOf] at hk
    have hinside := (ihi hinside).append (.of_other hmiddle)
    have := (Balanced.of_other hfront).append (.group ho hk hinside (ihr hrest))
    simpa using this

theorem balanced_iff_wellNested {ts : List Token} :
    Balanced (ts.map (·.kind)) ↔ WellNested (delimiters ts) :=
  ⟨fun h => .of_balanced h rfl, fun h => .of_wellNested h rfl⟩

/-- The tokens read so far leave these delimiters open, innermost first. -/
inductive LeavesOpen : List Token → List (Token × Char) → Prop where
  | none {ts : List Token} : Balanced (ts.map (·.kind)) → LeavesOpen ts []
  | opened {ts inside : List Token} {o : Token} {c : Char} {outer : List (Token × Char)} :
    LeavesOpen ts outer →
      o.opener? = some c → Balanced (inside.map (·.kind)) →
        LeavesOpen (ts ++ o :: inside) ((o, c) :: outer)

namespace LeavesOpen

variable {ts us : List Token} {pending outer : List (Token × Char)}

theorem append (h : LeavesOpen ts pending) (hus : Balanced (us.map (·.kind))) :
    LeavesOpen (ts ++ us) pending := by
  cases h with
  | none hts => exact .none (by simpa using hts.append hus)
  | opened h ho hinside =>
    rw [List.append_assoc, List.cons_append]
    exact .opened h ho (by simpa using hinside.append hus)

/-- One more token: an opening delimiter is the innermost one then, a closing one that fits takes it
away, and any other token changes nothing. -/
theorem opener (h : LeavesOpen ts pending) {t : Token} {c : Char} (ht : t.opener? = some c) :
    LeavesOpen (ts ++ [t]) ((t, c) :: pending) :=
  .opened h ht .nil

theorem other (h : LeavesOpen ts pending) {t : Token} (ho : t.opener? = .none)
    (hc : t.closer? = .none) :
    LeavesOpen (ts ++ [t]) pending :=
  h.append (.other ho hc .nil)

theorem closer {o : Token} {c : Char} (h : LeavesOpen ts ((o, c) :: outer)) {t : Token}
    (ht : t.closer? = some (closerOf c)) : LeavesOpen (ts ++ [t]) outer := by
  cases h with
  | @opened ts inside _ _ _ h ho hinside =>
    have hgroup : Balanced ((o :: (inside ++ [t])).map (·.kind)) := by
      simpa using Balanced.group ho ht hinside .nil
    simpa using h.append hgroup

theorem checkDelimiters_append (h : LeavesOpen ts pending) (rest : List Token) :
    checkDelimiters [] (ts ++ rest) = checkDelimiters pending rest := by
  induction h generalizing rest with
  | none hts => exact CaseAccessors.checkDelimiters_append hts rfl [] rest
  | opened _ ho hinside ih =>
    rw [List.append_assoc, ih, List.cons_append, checkDelimiters, ho]
    exact CaseAccessors.checkDelimiters_append hinside rfl _ rest

end LeavesOpen

def Token.ofDelimiter (c : Char) : Token := ⟨⟨[], .punct c, [c]⟩, .start⟩

def closings (pending : List (Token × Char)) : List Token :=
  pending.map fun (_, c) => .ofDelimiter (closerOf c)

theorem LeavesOpen.balanced_closings {ts : List Token} {pending : List (Token × Char)}
    (h : LeavesOpen ts pending) : Balanced ((ts ++ closings pending).map (·.kind)) := by
  induction pending generalizing ts with
  | nil =>
    cases h with
    | none h => rwa [closings, List.map_nil, List.append_nil]
  | cons p outer ih =>
    obtain ⟨o, c⟩ := p
    have hc : isOpener c = true := by
      cases h with
      | opened _ ho _ => exact (Token.of_opener? ho).2
    have hcloser : (Token.ofDelimiter (closerOf c)).closer? = some (closerOf c) :=
      Token.closer?_of_kind (isPair_closerOf hc).isOpener.2 rfl
    simpa [closings] using ih (h.closer hcloser)

theorem WellNested.delimiter?_ofDelimiter {w : List Char} (h : WellNested w) :
    ∀ c ∈ w, (Token.ofDelimiter c).delimiter? = some c := by
  induction h with
  | nil => exact fun _ hc => nomatch hc
  | @group a b _ _ hpair _ _ ihi ihr =>
    have ha : (Token.ofDelimiter a).delimiter? = some a :=
      Token.delimiter?_of_opener? (Token.opener?_of_kind hpair.isOpener.1 rfl)
    have hb : (Token.ofDelimiter b).delimiter? = some b :=
      Token.delimiter?_of_closer? (Token.closer?_of_kind hpair.isOpener.2 rfl)
    exact List.forall_mem_cons.2
      ⟨ha, List.forall_mem_append.2 ⟨ihi, List.forall_mem_cons.2 ⟨hb, ihr⟩⟩⟩

theorem delimiters_map_ofDelimiter {w : List Char}
    (h : ∀ c ∈ w, (Token.ofDelimiter c).delimiter? = some c) :
    delimiters (w.map Token.ofDelimiter) = w := by
  induction w with
  | nil => rfl
  | cons c w ih =>
    obtain ⟨hc, hw⟩ := List.forall_mem_cons.1 h
    rw [List.map_cons, delimiters, List.filterMap_cons_some hc]
    exact congrArg (c :: ·) (ih hw)

theorem checkDelimiters_eq_ok_iff {ts : List Token} :
    checkDelimiters [] ts = .ok () ↔ WellNested (delimiters ts) := by
  refine ⟨fun h => balanced_iff_wellNested.1 (balanced_of_checkDelimiters h), fun h => ?_⟩
  have := checkDelimiters_append (balanced_iff_wellNested.2 h) rfl [] []
  rwa [List.append_nil] at this

/-- Token `j` closes what token `i` opens: they are a pair, and what stands between them is well
nested. -/
inductive Partners : List Token → Nat → Nat → Prop where
  | intro {pre inside post : List Token} {o k : Token} {a b : Char} : o.opener? = some a →
    k.closer? = some b →
      IsPair a b → WellNested (delimiters inside) →
      Partners (pre ++ o :: (inside ++ k :: post)) pre.length (pre.length + 1 + inside.length)

def partner? (tokens : List Token) (i : Nat) : Option Nat :=
  match tokens.drop i with
  | [] => none
  | t :: rest =>
    if t.opener?.isSome then (group? 0 rest).map fun g => i + 1 + g.inside.length else none

/-- For every token that opens a group its partner, as the readers find it, once the delimiters pass
the check. -/
def matchDelimiters (tokens : List Token) : Except SourceError (List (Option Nat)) :=
  (checkDelimiters [] tokens).map fun _ => (List.range tokens.length).map (partner? tokens)

theorem exists_append_of_getElem? {α : Type} {xs : List α} {i : Nat} {x : α} (h : xs[i]? = some x) :
    ∃ front back, xs = front ++ x :: back ∧ front.length = i := by
  obtain ⟨hi, rfl⟩ := List.getElem?_eq_some_iff.1 h
  refine ⟨xs.take i, xs.drop (i + 1), ?_, List.length_take_of_le (Nat.le_of_lt hi)⟩
  rw [List.getElem_cons_drop, List.take_append_drop]

namespace Partners

variable {tokens : List Token} {i j i' j' : Nat}

theorem lt (h : Partners tokens i j) : i < j := by
  cases h
  omega

theorem opener (h : Partners tokens i j) : ∃ o a, tokens[i]? = some o ∧ o.opener? = some a := by
  cases h with
  | @intro _ _ _ o _ a _ ho _ _ _ => exact ⟨o, a, by simp, ho⟩

theorem closer (h : Partners tokens i j) : ∃ k b, tokens[j]? = some k ∧ k.closer? = some b := by
  cases h with
  | @intro pre inside _ o k _ b _ hk _ _ =>
    refine ⟨k, b, ?_, hk⟩
    rw [show pre.length + 1 + inside.length = pre.length + (inside.length + 1) by omega,
      List.getElem?_append_right (Nat.le_add_right ..), Nat.add_sub_cancel_left,
        List.getElem?_cons_succ,
      List.getElem?_append_right (Nat.le_refl _), Nat.sub_self, List.getElem?_cons_zero]

theorem lt_length (h : Partners tokens i j) : j < tokens.length := by
  cases h
  simp only [List.length_append, List.length_cons]
  omega

theorem within (h : Partners tokens i j) (pre post : List Token) :
    Partners (pre ++ (tokens ++ post)) (pre.length + i) (pre.length + j) := by
  cases h with
  | @intro front inside back o k _ _ ho hk hpair hinside =>
    have hlift :
        Partners ((pre ++ front) ++ o :: (inside ++ k :: (back ++ post))) (pre ++ front).length
          ((pre ++ front).length + 1 + inside.length) := .intro ho hk hpair hinside
    simpa [Nat.add_assoc] using hlift

theorem partner?_eq (h : Partners tokens i j) : partner? tokens i = some j := by
  cases h with
  | intro ho hk _ hinside =>
    rw [partner?, List.drop_left]
    simp only [ho, Option.isSome_some, if_true]
    rw [group?_eq_some (balanced_iff_wellNested.2 hinside) hk]
    rfl

theorem exists_of_opener {o : Token} {a : Char} (h : WellNested (delimiters tokens))
    (hi : tokens[i]? = some o) (ho : o.opener? = some a) : ∃ j, Partners tokens i j := by
  obtain ⟨pre, rest, rfl, rfl⟩ := exists_append_of_getElem? hi
  obtain ⟨g, hg, hclosing, hinside⟩ := exists_group?_eq_some (balanced_iff_wellNested.2 h) ho
  rw [append_of_group? hg]
  exact ⟨_, .intro ho hclosing (isPair_closerOf (Token.of_opener? ho).2)
    (balanced_iff_wellNested.1 hinside)⟩

theorem iff_partner? (h : WellNested (delimiters tokens)) : Partners tokens i j ↔
    partner? tokens i = some j := by
  refine ⟨partner?_eq, fun hj => ?_⟩
  have hopener : ∃ o a, tokens[i]? = some o ∧ o.opener? = some a := by
    rw [partner?] at hj
    split at hj
    · cases hj
    · next o rest hdrop =>
      split at hj
      · next ho =>
        obtain ⟨a, ha⟩ := Option.isSome_iff_exists.1 ho
        exact ⟨o, a, by rw [← List.head?_drop, hdrop]; rfl, ha⟩
      · cases hj
  obtain ⟨o, a, hi, ho⟩ := hopener
  obtain ⟨k, hk⟩ := exists_of_opener h hi ho
  rw [hk.partner?_eq] at hj
  cases hj
  exact hk

theorem lt_of_lt (h : Partners tokens i j) (h' : Partners tokens i' j') (hi : i < i') (hj :
    i' < j) : j' < j := by
  cases h with
  | @intro pre inside post o k a b _ _ _ hinside =>
    obtain ⟨o', a', hi', ho'⟩ := h'.opener
    obtain ⟨d, rfl⟩ := Nat.exists_eq_add_of_lt hi
    have hd : inside[d]? = some o' := by
      rw [List.getElem?_append_right (by omega)] at hi'
      rw [show pre.length + d + 1 - pre.length = d + 1 by omega, List.getElem?_cons_succ,
        List.getElem?_append_left (by omega)] at hi'
      exact hi'
    -- what the inner token opens is closed among the tokens inside, and it has no other partner
    obtain ⟨e, he⟩ := exists_of_opener hinside hd ho'
    have hlt := he.lt_length
    have hlift :
        Partners (pre ++ o :: (inside ++ k :: post)) (pre.length + d + 1) (pre.length + 1 + e) := by
      simpa [Nat.add_right_comm] using he.within (pre ++ [o]) (k :: post)
    have hj' : pre.length + 1 + e = j' :=
      Option.some.inj (hlift.partner?_eq.symm.trans h'.partner?_eq)
    omega

theorem eq_of_left (h : Partners tokens i j) (h' : Partners tokens i j') : j = j' :=
  Option.some.inj (h.partner?_eq.symm.trans h'.partner?_eq)

theorem eq_of_right (h : Partners tokens i j) (h' : Partners tokens i' j) : i = i' := by
  have hi := h.lt
  have hi' := h'.lt
  obtain hlt | heq | hgt := Nat.lt_trichotomy i i'
  · exact absurd (h.lt_of_lt h' hlt hi') (Nat.lt_irrefl j)
  · exact heq
  · exact absurd (h'.lt_of_lt h hgt hi) (Nat.lt_irrefl j)

theorem ne (h : Partners tokens i j) (h' : Partners tokens i' j') : j ≠ i' := by
  rintro rfl
  obtain ⟨k, b, hk, hcloser⟩ := h.closer
  obtain ⟨o, a, ho, hopener⟩ := h'.opener
  rw [hk] at ho
  cases ho
  have : k.opener? = none := Kind.opener?_of_closer? hcloser
  rw [this] at hopener
  cases hopener

theorem apart_or_within (h : Partners tokens i j) (h' : Partners tokens i' j') :
    j < i' ∨ j' < i ∨ (i ≤ i' ∧ j' ≤ j) ∨ (i' ≤ i ∧ j ≤ j') := by
  have hne := h.ne h'
  have hne' := h'.ne h
  obtain hlt | rfl | hgt := Nat.lt_trichotomy i i'
  · by_cases hj : i' < j
    · exact .inr (.inr (.inl ⟨Nat.le_of_lt hlt, Nat.le_of_lt (h.lt_of_lt h' hlt hj)⟩))
    · exact .inl (by omega)
  · have := h.eq_of_left h'
    exact .inr (.inr (.inl (by omega)))
  · by_cases hj : i < j'
    · exact .inr (.inr (.inr ⟨Nat.le_of_lt hgt, Nat.le_of_lt (h'.lt_of_lt h hgt hj)⟩))
    · exact .inr (.inl (by omega))

end Partners

theorem Balanced.exists_opening {front post : List Kind} {k : Kind} {b : Char}
    (h : Balanced (front ++ k :: post))
    (hk : k.closer? = some b) : ∃ pre o inside a, front = pre ++ o :: inside ∧ Balanced inside ∧
      o.opener? = some a ∧ b = closerOf a := by
  generalize hks : front ++ k :: post = ks at h
  induction h generalizing front post with
  | nil => simp at hks
  | @other other ks _ hc _ ih =>
    cases front with
    | nil =>
      obtain ⟨rfl, -⟩ := List.cons.inj hks
      rw [hc] at hk
      cases hk
    | cons _ front =>
      obtain ⟨-, hks⟩ := List.cons.inj hks
      obtain ⟨pre, o, inside, a, rfl, hrest⟩ := ih hks
      exact ⟨_ :: pre, o, inside, a, rfl, hrest⟩
  | @group o k' c inside ks ho hc hi _ ihi ihk =>
    cases front with
    | nil =>
      obtain ⟨rfl, -⟩ := List.cons.inj hks
      rw [Kind.closer?_of_opener? ho] at hk
      cases hk
    | cons first front =>
      obtain ⟨rfl, htail⟩ := List.cons.inj hks
      obtain ⟨m, rfl, rfl⟩ | ⟨rfl, rfl, rfl⟩ | ⟨m, rfl, rfl⟩ := cases_of_append_cons htail
      · obtain ⟨pre, o', inside', a, rfl, hrest⟩ := ihi rfl
        exact ⟨_ :: pre, o', inside', a, rfl, hrest⟩
      · rw [hc] at hk
        cases hk
        exact ⟨[], _, front, c, rfl, hi, ho, rfl⟩
      · obtain ⟨pre, o', inside', a, rfl, hrest⟩ := ihk rfl
        exact ⟨first :: (inside ++ k' :: pre), o', inside', a, by simp, hrest⟩

theorem Partners.exists_of_closer {tokens rest : List Token} {j : Nat} {k : Token} {b : Char}
    (h : WellNested (delimiters (tokens ++ rest))) (hj : tokens[j]? = some k)
    (hk : k.closer? = some b) :
    ∃ i, Partners tokens i j := by
  obtain ⟨front, post, rfl, rfl⟩ := exists_append_of_getElem? hj
  have hb := balanced_iff_wellNested.2 h
  rw [List.append_assoc, List.map_append, List.cons_append, List.map_cons] at hb
  obtain ⟨ks, o', ls, a, hfront, hinside, ho, rfl⟩ := hb.exists_opening hk
  obtain ⟨pre, us, rfl, rfl, hus⟩ := List.map_eq_append_iff.1 hfront
  obtain ⟨o, inside, rfl, rfl, rfl⟩ := List.map_eq_cons_iff.1 hus
  have hpartners :
      Partners (pre ++ o :: (inside ++ k :: post)) pre.length (pre.length + 1 + inside.length) :=
    .intro ho hk (isPair_closerOf (Token.of_opener? ho).2) (balanced_iff_wellNested.1 hinside)
  exact ⟨pre.length, by simpa [Nat.add_right_comm, Nat.add_assoc] using hpartners⟩

/-- The delimiter that closes the innermost one that some tokens leave open, and U+0000 where none
is open. -/
inductive Due : List Token → Char → Prop where
  | none {ts : List Token} : WellNested (delimiters ts) → Due ts '\x00'
  | closer {ts inside : List Token} {o : Token} {a b : Char} : o.opener? = some a → IsPair a b →
      WellNested (delimiters inside) → Due (ts ++ o :: inside) b

/-- Tokens that are not well nested, and what is told of them: the first closing delimiter that no
well-nested word goes on with, or, where every closing delimiter has its partner, the innermost one
left open. -/
inductive Misnested : List Token → SourceError → Prop where
  | unbalanced {pre post : List Token} {t : Token} {found : Char} {expected : Option Char} :
      t.closer? = some found → (∃ w, WellNested (delimiters pre ++ w)) →
      (∀ w, ¬ WellNested (delimiters (pre ++ [t]) ++ w)) → Due pre (expected.getD '\x00') →
      Misnested (pre ++ t :: post) (.ofPlace (.unbalanced found expected) t.place)
  | unclosed {pre inside : List Token} {o : Token} {a : Char} : o.opener? = some a →
      WellNested (delimiters inside) →
      (∀ (j : Nat) (k : Token) (b : Char), (pre ++ o :: inside)[j]? = some k → k.closer? = some b →
        ∃ i, Partners (pre ++ o :: inside) i j) →
      Misnested (pre ++ o :: inside) (.ofPlace (.unclosed a) o.place)

namespace LeavesOpen

variable {ts : List Token} {pending : List (Token × Char)}

theorem wellNested_append (h : LeavesOpen ts pending) :
    WellNested (delimiters (ts ++ closings pending)) :=
  balanced_iff_wellNested.1 h.balanced_closings

theorem due (h : LeavesOpen ts pending) :
    Due ts ((pending.head?.map fun p => closerOf p.2).getD '\x00') := by
  cases h with
  | none h => exact .none (balanced_iff_wellNested.1 h)
  | opened _ ho hinside =>
    exact .closer ho (isPair_closerOf (Token.of_opener? ho).2) (balanced_iff_wellNested.1 hinside)

/-- No well-nested word goes on from where the check stops. -/
theorem not_wellNested (h : LeavesOpen ts pending) {t : Token} {e : SourceError}
    (he : ∀ rest, checkDelimiters pending (t :: rest) = .error e) (w : List Char) :
    ¬ WellNested (delimiters (ts ++ [t]) ++ w) := by
  intro hw
  -- the word goes on as some tokens do, and the check does not come to them
  have hword : delimiters (w.map Token.ofDelimiter) = w :=
    delimiters_map_ofDelimiter fun c hc => hw.delimiter?_ofDelimiter c (List.mem_append_right _ hc)
  rw [← hword, ← delimiters_append, ← checkDelimiters_eq_ok_iff, List.append_assoc,
    List.singleton_append, h.checkDelimiters_append, he] at hw
  cases hw

theorem misnested_of_closer (h : LeavesOpen ts pending) {t : Token} {found : Char}
    (ht : t.closer? = some found)
    {expected : Option Char} (hexpected : expected = pending.head?.map fun p => closerOf p.2)
    (hstop : ∀ rest, checkDelimiters pending (t :: rest) =
      .error (.ofPlace (.unbalanced found expected) t.place))
    (rest : List Token) :
    Misnested (ts ++ t :: rest) (.ofPlace (.unbalanced found expected) t.place) := by
  have hbegins : ∃ w, WellNested (delimiters ts ++ w) :=
    ⟨_, delimiters_append ts _ ▸ h.wellNested_append⟩
  exact .unbalanced ht hbegins (h.not_wellNested hstop) (hexpected ▸ h.due)

/-- What the check tells behind some tokens holds of the whole list. The induction is on the tokens
that are left, with what is open among those before them. -/
theorem misnested {e : SourceError} {rest : List Token} (h : LeavesOpen ts pending)
    (he : checkDelimiters pending rest = .error e) : Misnested (ts ++ rest) e := by
  fun_induction checkDelimiters pending rest generalizing ts with
  | case1 => cases he
  | case2 o c outer =>
    cases he
    rw [List.append_nil]
    have hclosed := h.wellNested_append
    cases h with
    | opened _ ho hinside =>
      have hinside := balanced_iff_wellNested.1 hinside
      exact .unclosed ho hinside fun _ _ _ hj hk => Partners.exists_of_closer hclosed hj hk
  | case3 pending t rest c ho ih => simpa using ih (h.opener ho) he
  | case4 pending t rest hc ho ih => simpa using ih (h.other ho hc) he
  | case5 t rest ho opened c outer hc ih => simpa using ih (h.closer hc) he
  | case6 t rest found hfound ho o c outer hne =>
    cases he
    refine h.misnested_of_closer hfound rfl (fun rest => ?_) rest
    rw [checkDelimiters, ho, hfound]
    exact if_neg hne
  | case7 t rest found hfound ho =>
    cases he
    refine h.misnested_of_closer hfound rfl (fun rest => ?_) rest
    rw [checkDelimiters, ho, hfound]
    rfl

end LeavesOpen

/-- The table has an entry for each token, and in it the partner of each one that opens a group.
Each one that closes a group is the partner of just one, and groups are apart or one is within the
other. -/
structure IsMatching (tokens : List Token) (table : List (Option Nat)) : Prop where
  length_eq : table.length = tokens.length
  partners (i j : Nat) : table[i]? = some (some j) ↔ Partners tokens i j
  openers (i : Nat) : (∃ j : Nat, table[i]? = some (some j)) ↔
    ∃ o : Token, tokens[i]? = some o ∧ o.opener?.isSome
  closers (j : Nat) : (∃ k : Token, tokens[j]? = some k ∧ k.closer?.isSome) →
    ∃ i : Nat, table[i]? = some (some j) ∧ ∀ i' : Nat, table[i']? = some (some j) → i' = i
  laminar (i j i' j' : Nat) : table[i]? = some (some j) → table[i']? = some (some j') →
    j < i' ∨ j' < i ∨ (i ≤ i' ∧ j' ≤ j) ∨ (i' ≤ i ∧ j ≤ j')

theorem isMatching_map_partner? {tokens : List Token} (h : WellNested (delimiters tokens)) :
    IsMatching tokens ((List.range tokens.length).map (partner? tokens)) := by
  have hpartners : ∀ i j, ((List.range tokens.length).map (partner? tokens))[i]? = some (some j) ↔
      Partners tokens i j := by
    intro i j
    rw [Partners.iff_partner? h, List.getElem?_map, Option.map_eq_some_iff]
    refine ⟨fun ⟨i', hi, hj⟩ => ?_, fun hj => ⟨i, ?_, hj⟩⟩
    · obtain ⟨_, rfl⟩ := List.getElem?_eq_some_iff.1 hi
      rwa [List.getElem_range] at hj
    · have := ((Partners.iff_partner? h).2 hj).lt
      have := ((Partners.iff_partner? h).2 hj).lt_length
      exact List.getElem?_range (by omega)
  refine ⟨by simp, hpartners, fun i => ?_, fun j hk => ?_, fun i j i' j' hi hi' => ?_⟩
  · simp only [hpartners]
    refine ⟨fun ⟨j, hj⟩ => ?_, fun ⟨o, hi, ho⟩ => ?_⟩
    · obtain ⟨o, a, hi, ho⟩ := hj.opener
      exact ⟨o, hi, Option.isSome_of_eq_some ho⟩
    · obtain ⟨a, ho⟩ := Option.isSome_iff_exists.1 ho
      exact Partners.exists_of_opener h hi ho
  · obtain ⟨k, hj, hk⟩ := hk
    obtain ⟨b, hk⟩ := Option.isSome_iff_exists.1 hk
    have hword : WellNested (delimiters (tokens ++ [])) := by rwa [List.append_nil]
    obtain ⟨i, hi⟩ := Partners.exists_of_closer hword hj hk
    exact ⟨i, (hpartners i j).2 hi, fun i' hi' => ((hpartners i' j).1 hi').eq_of_right hi⟩
  · exact ((hpartners i j).1 hi).apart_or_within ((hpartners i' j').1 hi')

/-- The delimiters of a list match if they are a well-nested word, and only then. The table that
comes of it holds the partner of every token that opens a group; what is told of any other list is
the first place where it ceases to begin a well-nested word, or what it leaves open. -/
theorem matchDelimiters_exact (tokens : List Token) :
    ((∃ table, matchDelimiters tokens = .ok table) ↔ WellNested (delimiters tokens)) ∧
      (∀ table, matchDelimiters tokens = .ok table → IsMatching tokens table) ∧
      ∀ e, matchDelimiters tokens = .error e → Misnested tokens e := by
  rw [matchDelimiters, ← checkDelimiters_eq_ok_iff]
  cases hcheck : checkDelimiters [] tokens with
  | ok u =>
    have hword := checkDelimiters_eq_ok_iff.1 hcheck
    refine ⟨⟨fun _ => rfl, fun _ => ⟨_, rfl⟩⟩, fun table htable => ?_, fun e he => nomatch he⟩
    cases htable
    exact isMatching_map_partner? hword
  | error e =>
    refine ⟨⟨fun ⟨_, h⟩ => (nomatch h), fun h => (nomatch h)⟩, fun _ h => (nomatch h),
      fun e' he => ?_⟩
    cases he
    have hstart : LeavesOpen [] [] := .none .nil
    exact hstart.misnested hcheck

end CaseAccessors
