import CaseAccessors.Proofs.CheckedMatching
import CaseAccessors.Proofs.FieldSplitting
import CaseAccessors.Proofs.TypeText

/-! Reading payloads by index. A walk is at an index, with an end that it has to keep to; a group is
skipped by what the table has at its index, and a type is cut out of the source from its first token
to its last one. No index is past the end and no walk leaves its range, and what is read is what
reading lists of tokens gives. -/
namespace CaseAccessors

namespace Checked

def span {α : Type} (xs : List α) (start stop : Nat) : Except Halt (List α) :=
  if start ≤ stop ∧ stop ≤ xs.length then .ok ((xs.take stop).drop start) else .error .outside

/-- An index behind the one that a walk comes from, and not behind its end. -/
def within (i stop next : Nat) : Except Halt Nat :=
  if i < next ∧ next ≤ stop then .ok next else .error .astray

def colonAt? : List Token → Option Nat
  | l :: c :: rest =>
    if l.kind = .ident then
      if c.isPunct ':' then some 1
      else if c.kind = .ident ∧ rest.head?.any (·.isPunct ':') then some 2
      else none
    else none
  | _ => none

/-- The label of a field, and how many tokens stand in front of the type. -/
def label (range : List Token) : Except Halt (Option Text × Nat) :=
  match colonAt? range with
  | none => .ok (none, 0)
  | some colon => do
    let name := (← elementAt range 0).name
    return (if name = ['_'] then none else some name, colon + 1)

/-- A source, its tokens, and for each one that opens a group the index where the group is closed.
-/
structure Reader where
  src : Text
  tokens : List Token
  matching : List (Option Nat)

namespace Reader

def rounds (r : Reader) : Nat := r.tokens.length + 1

def skipGroup (r : Reader) (stop i : Nat) : Except Halt Nat := do
  let close ← elementAt r.matching i
  within i stop (close.elim (i + 1) (· + 1))

/-- The ranges between commas, the first one from `start` on, with `angles` open at the index `i`.
-/
def fieldRanges (r : Reader) (stop : Nat) : Nat → (angles start i : Nat) →
    Except Halt (List (Nat × Nat))
  | 0, _, _, _ => .error .astray
  | n + 1, angles, start, i =>
    if i < stop then do
      let t ← elementAt r.tokens i
      if t.opener?.isSome then fieldRanges r stop n angles start (← r.skipGroup stop i)
      else if t.isPunct ',' ∧ angles = 0 then
        return (start, i) :: (← fieldRanges r stop n angles (i + 1) (i + 1))
      else
        let angles :=
          if t.isPunct '<' then angles + 1 else if t.isPunct '>' then angles - 1 else angles
        fieldRanges r stop n angles start (i + 1)
    else return [(start, stop)]

def typeEnd (r : Reader) (stop : Nat) : Nat → Nat → Except Halt Nat
  | 0, _ => .error .astray
  | n + 1, i =>
    if i < stop then do
      let t ← elementAt r.tokens i
      if t.opener?.isSome then typeEnd r stop n (← r.skipGroup stop i)
      else if t.isPunct '=' then return i
      else typeEnd r stop n (i + 1)
    else return stop

def sourceBetween (r : Reader) (start stop : Nat) : Except Halt Text := do
  let first ← elementAt r.tokens start
  let last ← elementAt r.tokens (← lower stop)
  Cursor.cut r.src first.place.offset last.endOffset

def field (r : Reader) (start stop : Nat) : Except Halt Field := do
  let range ← span r.tokens start stop
  let (label, before) ← label range
  let stop ← r.typeEnd stop r.rounds (start + before)
  if start + before < stop then return ⟨label, (← r.sourceBetween (start + before) stop).collapse⟩
  else
    let last ← match range.getLast? with
      | some t => pure t
      | none => elementAt r.tokens start
    .error (.source (.ofPlace (.unexpectedEnd .casePayload) last.place))

def fields (r : Reader) (start stop : Nat) : Except Halt (List Field) := do
  let ranges ← r.fieldRanges stop r.rounds 0 start start
  (ranges.filter fun p => p.1 != p.2).mapM fun p => r.field p.1 p.2

end Reader

end Checked

open Checked

def StandsAt {α : Type} (xs : List α) (i stop : Nat) (ys : List α) : Prop :=
  ∃ front back, xs = front ++ (ys ++ back) ∧ front.length = i ∧ i + ys.length = stop

namespace StandsAt

variable {α : Type} {xs ys us : List α} {y : α} {i stop : Nat}

theorem length_eq (h : StandsAt xs i stop ys) : i + ys.length = stop := by
  obtain ⟨_, _, _, _, hstop⟩ := h
  exact hstop

theorem le_length (h : StandsAt xs i stop ys) : stop ≤ xs.length := by
  obtain ⟨front, back, rfl, rfl, rfl⟩ := h
  simp

theorem getElem? (h : StandsAt xs i stop (y :: ys)) : xs[i]? = some y := by
  obtain ⟨front, back, rfl, rfl, -⟩ := h
  simp

theorem of_suffix (h : StandsAt xs i stop ys) (hs : us <:+ ys) :
    StandsAt xs (stop - us.length) stop us := by
  obtain ⟨front, back, rfl, rfl, rfl⟩ := h
  obtain ⟨ws, rfl⟩ := hs
  refine ⟨front ++ ws, back, by simp, ?_, ?_⟩ <;> simp only [List.length_append] <;> omega

theorem of_prefix (h : StandsAt xs i stop ys) (hs : us <+: ys) :
    StandsAt xs i (i + us.length) us := by
  obtain ⟨front, back, rfl, rfl, rfl⟩ := h
  obtain ⟨ws, rfl⟩ := hs
  exact ⟨front, ws ++ back, by simp, rfl, rfl⟩

theorem tail (h : StandsAt xs i stop (y :: ys)) : StandsAt xs (i + 1) stop ys := by
  have hrest := h.of_suffix (List.suffix_cons y ys)
  have hlen := h.length_eq
  rw [List.length_cons] at hlen
  rwa [show stop - ys.length = i + 1 by omega] at hrest

theorem span_eq (h : StandsAt xs i stop ys) : span xs i stop = .ok ys := by
  have hle := h.le_length
  obtain ⟨front, back, rfl, rfl, rfl⟩ := h
  rw [span, if_pos ⟨Nat.le_add_right _ _, hle⟩, ← List.append_assoc, ← List.length_append,
    List.take_left, List.drop_left]

end StandsAt

theorem sourceBehind_append (ts us : List Token) :
    sourceBehind (ts ++ us) = sourceBehind ts ++ sourceBehind us :=
  List.flatMap_append

theorem place_of_placed {p : Place} {ls : List Lexeme} {front back : List Token} {t : Token}
    (h : Lexeme.placed p ls = front ++ t :: back) :
    t.place = p.advance (sourceBehind front ++ t.lead) := by
  induction ls generalizing p front with
  | nil => simp [Lexeme.placed] at h
  | cons l ls ih =>
    cases front with
    | nil =>
      obtain ⟨rfl, -⟩ := List.cons.inj h
      rfl
    | cons u front =>
      obtain ⟨rfl, htail⟩ := List.cons.inj h
      rw [ih htail, sourceBehind_cons, ← Place.advance_append, ← Place.advance_append]
      simp

namespace Checked.Reader

/-- The tokens are those of the source, and the table has their partners. -/
structure Ready (r : Reader) : Prop where
  tokens : CaseAccessors.tokenize r.src = .ok r.tokens
  matching : r.matching = (List.range r.tokens.length).map (partner? r.tokens)

/-- A walk is at an index, and up to its end these tokens are ahead of it; they are the end of
something balanced. -/
structure Ahead (r : Reader) (i stop : Nat) (ts : List Token) : Prop where
  stands : StandsAt r.tokens i stop ts
  enclosed : ∃ pre : List Token, Balanced ((pre ++ ts).map (·.kind))

variable {r : Reader} {i start stop n : Nat} {ts us : List Token} {t : Token}

namespace Ahead

theorem of_wellNested (h : StandsAt r.tokens i stop ts) (hts : WellNested (delimiters ts)) :
    r.Ahead i stop ts :=
  ⟨h, [], balanced_iff_wellNested.2 hts⟩

theorem of_suffix (h : r.Ahead i stop ts) (hs : us <:+ ts) :
    r.Ahead (stop - us.length) stop us := by
  obtain ⟨pre, hpre⟩ := h.enclosed
  obtain ⟨ws, rfl⟩ := hs
  exact ⟨h.stands.of_suffix (List.suffix_append ws us), pre ++ ws, by rwa [List.append_assoc]⟩

theorem tail (h : r.Ahead i stop (t :: ts)) : r.Ahead (i + 1) stop ts := by
  have hrest := h.of_suffix (List.suffix_cons t ts)
  exact ⟨h.stands.tail, hrest.enclosed⟩

theorem eq_stop (h : r.Ahead i stop []) : i = stop := h.stands.length_eq

theorem lt_stop (h : r.Ahead i stop (t :: ts)) : i < stop := by
  have := h.stands.length_eq
  rw [List.length_cons] at this
  omega

theorem elementAt_eq (h : r.Ahead i stop (t :: ts)) : elementAt r.tokens i = .ok t :=
  CaseAccessors.elementAt_eq h.stands.getElem?

theorem length_lt_rounds (h : r.Ahead i stop ts) : ts.length < r.rounds := by
  have := h.stands.length_eq
  have := h.stands.le_length
  rw [rounds]
  omega

end Ahead

/-- The group that the delimiter `c` opens at an index, with `ts` behind that one: the table has
where it is closed, it is skipped, and the walk can go on inside of it or behind it. -/
structure Opens (r : Reader) (i stop : Nat) (c : Char) (ts : List Token) (g : Group) : Prop where
  group : group? 0 ts = some g
  stop_eq : i + 1 + g.inside.length + 1 + g.behind.length = stop
  matching : elementAt r.matching i = .ok (some (i + 1 + g.inside.length))
  skip : r.skipGroup stop i = .ok (stop - g.behind.length)
  closing : r.tokens[i + 1 + g.inside.length]? = some g.closing
  closer : g.closing.closer? = some (closerOf c)
  nested : WellNested (delimiters g.inside)
  inside : r.Ahead (i + 1) (i + 1 + g.inside.length) g.inside
  behind : r.Ahead (stop - g.behind.length) stop g.behind

theorem Ahead.exists_opens (hr : r.Ready) (h : r.Ahead i stop (t :: ts)) {c : Char}
    (ht : t.opener? = some c) :
    ∃ g, r.Opens i stop c ts g := by
  obtain ⟨pre, hpre⟩ := h.enclosed
  obtain ⟨g, hg, hcloser, hinside⟩ := exists_group?_eq_some hpre ht
  have hnested := balanced_iff_wellNested.1 hinside
  have hts := append_of_group? hg
  have hlen := h.stands.length_eq
  have hle := h.stands.le_length
  have hstop : i + 1 + g.inside.length + 1 + g.behind.length = stop := by
    rw [← hlen, hts]
    simp only [List.length_cons, List.length_append]
    omega
  have hclosing : g.closing :: g.behind <:+ t :: ts := ⟨t :: g.inside, by rw [hts]; rfl⟩
  have hbehind := (List.suffix_cons g.closing g.behind).trans hclosing
  have hpartner : elementAt r.matching i = .ok (some (i + 1 + g.inside.length)) := by
    refine CaseAccessors.elementAt_eq ?_
    rw [hr.matching, List.getElem?_map, List.getElem?_range (by omega), Option.map_some,
      Option.some_inj]
    obtain ⟨front, back, htokens, rfl, -⟩ := h.stands
    rw [partner?, htokens, List.drop_left]
    simp only [List.cons_append, ht, Option.isSome_some, if_true, group?_append_right hg]
    rfl
  refine ⟨g, hg, hstop, hpartner, ?_, ?_, hcloser, hnested, ?_, h.of_suffix hbehind⟩
  · have hnext : i < i + 1 + g.inside.length + 1 ∧ i + 1 + g.inside.length + 1 ≤ stop := by omega
    rw [skipGroup, hpartner, show stop - g.behind.length = i + 1 + g.inside.length + 1 by omega]
    exact if_pos hnext
  · have hstands := h.stands.of_suffix hclosing
    rw [List.length_cons, show stop - (g.behind.length + 1) = i + 1 + g.inside.length by omega]
      at hstands
    exact hstands.getElem?
  · exact .of_wellNested (h.tail.stands.of_prefix ⟨g.closing :: g.behind, hts.symm⟩) hnested

theorem Opens.length_behind {c : Char} {g : Group} (h : r.Opens i stop c ts g) :
    g.behind.length < ts.length := by
  rw [append_of_group? h.group]
  simp only [List.length_append, List.length_cons]
  omega

/-- Where ranges stand whose neighbours have one token between them. The first one goes on from `i`,
and begins at `start`. -/
def bounds (start i : Nat) : List (List Token) → List (Nat × Nat)
  | [] => []
  | range :: ranges =>
    (start, i + range.length) :: bounds (i + range.length + 1) (i + range.length + 1) ranges

theorem bounds_append (start i : Nat) (us range : List Token) (ranges : List (List Token)) :
    bounds start i ((us ++ range) :: ranges) = bounds start (i + us.length) (range :: ranges) := by
  rw [bounds, bounds, List.length_append, ← Nat.add_assoc]

theorem fieldRanges_eq (hr : r.Ready) {angles : Nat} (h : r.Ahead i stop ts) (hn : ts.length < n) :
    r.fieldRanges stop n angles start i =
      .ok (bounds start i (tokenRanges (splitItems angles (items ts)))) := by
  fun_induction items ts generalizing angles start i n with
  | case1 =>
    obtain ⟨n, rfl⟩ := Nat.exists_eq_add_of_le' (show 1 ≤ n from hn)
    obtain rfl := h.eq_stop
    rw [fieldRanges, if_neg (Nat.lt_irrefl i)]
    rfl
  | case2 t rest ht g hg ih =>
    obtain ⟨c, hc⟩ := Option.isSome_iff_exists.1 ht
    obtain ⟨g', hopens⟩ := h.exists_opens hr hc
    obtain rfl := Option.some.inj (hg.symm.trans hopens.group)
    have hstop := hopens.stop_eq
    have hlen := h.stands.length_eq
    obtain ⟨range, more, hranges, hcons⟩ :=
      exists_consItem (splitItems_ne_nil angles (items g.behind))
      (.group t g.inside g.closing)
    obtain ⟨n, rfl⟩ := Nat.exists_eq_add_of_le' (show 1 ≤ n by omega)
    rw [fieldRanges, if_pos h.lt_stop, h.elementAt_eq, splitItems_cons,
      if_neg (by simp [Item.isPunct])]
    simp only [bind, Except.bind, ht, if_true, hopens.skip, Item.anglesBehind, Item.isPunct,
      Bool.false_eq_true, if_false]
    rw [ih hopens.behind (by omega), hcons, hranges, bounds_append]
    simp only [Item.tokens, List.length_cons, List.length_append, List.length_nil]
    rw [show stop - g.behind.length = i + (g.inside.length + 1 + (0 + 1)) by omega]
  | case3 t rest ht hnone ih =>
    obtain ⟨c, hc⟩ := Option.isSome_iff_exists.1 ht
    obtain ⟨g, hopens⟩ := h.exists_opens hr hc
    cases hnone.symm.trans hopens.group
  | case4 t rest ht ih =>
    rw [List.length_cons] at hn
    obtain ⟨n, rfl⟩ := Nat.exists_eq_add_of_le' (show 1 ≤ n by omega)
    have hrest : ∀ angles start, r.fieldRanges stop n angles start (i + 1) =
        .ok (bounds start (i + 1) (tokenRanges (splitItems angles (items rest)))) :=
      fun angles start => ih h.tail (by omega)
    rw [fieldRanges, if_pos h.lt_stop, h.elementAt_eq, splitItems_cons]
    simp only [bind, Except.bind, if_neg ht, hrest]
    by_cases hcomma : t.isPunct ',' = true ∧ angles = 0
    · rw [if_pos hcomma, if_pos (show (Item.token t).isPunct ',' = true ∧ angles = 0 from hcomma)]
      rfl
    · obtain ⟨range, more, hranges, hcons⟩ :=
        exists_consItem (splitItems_ne_nil ((Item.token t).anglesBehind angles) (items rest))
          (.token t)
      rw [if_neg hcomma,
        if_neg (show ¬((Item.token t).isPunct ',' = true ∧ angles = 0) from hcomma), hcons,
        bounds_append, ← hranges]
      rfl

theorem typeEnd_eq (hr : r.Ready) (h : r.Ahead i stop ts) (hn : ts.length < n) :
    r.typeEnd stop n i = .ok (i + (beforeDefault ts).length) := by
  fun_induction items ts generalizing i n with
  | case1 =>
    obtain ⟨n, rfl⟩ := Nat.exists_eq_add_of_le' (show 1 ≤ n from hn)
    obtain rfl := h.eq_stop
    rw [typeEnd, if_neg (Nat.lt_irrefl i), beforeDefault, items]
    rfl
  | case2 t rest ht g hg ih =>
    obtain ⟨c, hc⟩ := Option.isSome_iff_exists.1 ht
    obtain ⟨g', hopens⟩ := h.exists_opens hr hc
    obtain rfl := Option.some.inj (hg.symm.trans hopens.group)
    have hstop := hopens.stop_eq
    have hlen := h.stands.length_eq
    obtain ⟨n, rfl⟩ := Nat.exists_eq_add_of_le' (show 1 ≤ n by omega)
    have hitems :
        beforeDefault (t :: rest) = (t :: g.inside ++ [g.closing]) ++ beforeDefault g.behind := by
      rw [beforeDefault, items_opener ht, hg]
      rfl
    rw [typeEnd, if_pos h.lt_stop, h.elementAt_eq, hitems]
    simp only [bind, Except.bind, ht, if_true, hopens.skip]
    rw [ih hopens.behind (by omega)]
    simp only [List.length_append, List.length_cons, List.length_nil]
    exact congrArg Except.ok (by omega)
  | case3 t rest ht hnone ih =>
    obtain ⟨c, hc⟩ := Option.isSome_iff_exists.1 ht
    obtain ⟨g, hopens⟩ := h.exists_opens hr hc
    cases hnone.symm.trans hopens.group
  | case4 t rest ht ih =>
    rw [List.length_cons] at hn
    obtain ⟨n, rfl⟩ := Nat.exists_eq_add_of_le' (show 1 ≤ n by omega)
    have hopener : t.opener? = none := Option.not_isSome_iff_eq_none.1 ht
    rw [typeEnd, if_pos h.lt_stop, h.elementAt_eq, beforeDefault, items_cons hopener]
    simp only [bind, Except.bind, if_neg ht]
    by_cases hequals : t.isPunct '=' = true
    · rw [if_pos hequals, List.takeWhile_cons_of_neg (by simpa [Item.isPunct] using hequals)]
      rfl
    · rw [if_neg hequals, List.takeWhile_cons_of_pos (by simpa [Item.isPunct] using hequals),
        ih h.tail (by omega), List.flatMap_cons, List.length_append, beforeDefault, Nat.add_assoc]
      rfl

namespace Ready

variable {front back : List Token}

theorem src_eq (hr : r.Ready) (h : r.tokens = front ++ ts) :
    ∃ tail, r.src = sourceBehind front ++ (sourceBehind ts ++ tail) := by
  obtain ⟨tail, hsrc, -⟩ := exists_standTogether hr.tokens
  exact ⟨tail, by rw [← hsrc, h, sourceBehind_append, List.append_assoc]⟩

theorem offset_eq (hr : r.Ready) (h : r.tokens = front ++ t :: back) :
    t.place.offset = Text.byteSize (sourceBehind front ++ t.lead) := by
  have htokens := hr.tokens
  rw [CaseAccessors.tokenize] at htokens
  cases hls : lexemes r.src with
  | error u =>
    rw [hls] at htokens
    cases htokens
  | ok ls =>
    rw [hls] at htokens
    rw [place_of_placed ((Except.ok.inj htokens).trans h), Place.advance_offset, Place.start,
      Nat.zero_add]

theorem endOffset_eq (hr : r.Ready) (h : r.tokens = front ++ t :: back) :
    t.endOffset = Text.byteSize (sourceBehind (front ++ [t])) := by
  rw [Token.endOffset, hr.offset_eq h, ← Text.byteSize_append, sourceBehind_append]
  simp [sourceBehind]

end Ready

theorem sourceBetween_eq (hr : r.Ready) (h : StandsAt r.tokens i stop (t :: ts)) :
    r.sourceBetween i stop = .ok (Token.sourceOf (t :: ts)) := by
  have hfirst := CaseAccessors.elementAt_eq h.getElem?
  obtain ⟨front, back, htokens, rfl, rfl⟩ := h
  obtain ⟨inner, last, hsplit⟩ :=
    (List.eq_nil_or_concat' (t :: ts)).resolve_left (List.cons_ne_nil t ts)
  have hbehind : r.tokens = (front ++ inner) ++ last :: back := by
    rw [htokens, hsplit]
    simp
  have hlast : elementAt r.tokens (front.length + ts.length) = .ok last := by
    have hlen := congrArg List.length hsplit
    simp only [List.length_cons, List.length_append, List.length_nil, Nat.zero_add,
      Nat.add_right_cancel_iff] at hlen
    refine CaseAccessors.elementAt_eq ?_
    rw [hbehind, hlen, ← List.length_append]
    simp
  have hend : last.endOffset =
      Text.byteSize (sourceBehind front ++ t.lead) + Text.byteSize (Token.sourceOf (t :: ts)) := by
    rw [hr.endOffset_eq hbehind, List.append_assoc, ← hsplit, sourceBehind_append,
      sourceBehind_cons, ← sourceOf_cons, ← Text.byteSize_append, List.append_assoc]
  obtain ⟨tail, hsrc⟩ := hr.src_eq htokens
  have hsource : r.src = (sourceBehind front ++ t.lead) ++
      (Token.sourceOf (t :: ts) ++ (sourceBehind back ++ tail)) := by
    rw [hsrc, sourceBehind_append, sourceBehind_cons, sourceOf_cons]
    simp only [List.append_assoc]
  have hlower : lower (front.length + (t :: ts).length) = .ok (front.length + ts.length) := rfl
  rw [sourceBetween, hfirst, hlower]
  simp only [bind, Except.bind, hlast]
  rw [hr.offset_eq htokens, hend, hsource]
  exact Cursor.cut_append _ _ _

theorem colonAt?_or (range : List Token) :
    (colonAt? range = none ∧ splitLabel? range = none) ∨
      ∃ l front rest, range = l :: (front ++ rest) ∧ colonAt? range = some front.length ∧
        splitLabel? range = some (l.name, rest) := by
  fun_cases splitLabel? range with
  | case1 l c rest hl hc => exact .inr ⟨l, [c], rest, rfl, by simp [colonAt?, hl, hc], rfl⟩
  | case2 l c hl hc hname colon rest hcolon =>
    exact .inr ⟨l, [c, colon], rest, rfl, by simp [colonAt?, hl, hc, hname, hcolon], rfl⟩
  | case3 l c hl hc hname colon rest hcolon => exact .inl ⟨by simp [colonAt?, hc, hcolon], rfl⟩
  | case4 l c hl hc hname => exact .inl ⟨by simp [colonAt?, hc], rfl⟩
  | case5 l c rest hl hc hname => exact .inl ⟨by simp [colonAt?, hc, hname], rfl⟩
  | case6 l c rest hl => exact .inl ⟨by simp [colonAt?, hl], rfl⟩
  | case7 range hshort =>
    refine .inl ⟨?_, rfl⟩
    unfold colonAt?
    split
    · next l c rest => exact absurd rfl (hshort l c rest)
    · rfl

theorem label_eq (range : List Token) :
    label range =
      .ok (fieldLabel? range,
        range.length - ((splitLabel? range).elim range Prod.snd).length) := by
  rw [label, fieldLabel?]
  obtain ⟨hcolon, hsplit⟩ | ⟨l, front, rest, rfl, hcolon, hsplit⟩ := colonAt?_or range
  · rw [hcolon, hsplit]
    simp
  · have hlen : (l :: (front ++ rest)).length - rest.length = front.length + 1 := by
      simp only [List.length_cons, List.length_append]
      omega
    rw [hcolon, hsplit]
    exact congrArg (fun n => Except.ok (_, n)) hlen.symm

theorem field_eq (hr : r.Ready) {last : Token} (h : r.Ahead i stop ts)
    (hlast : ts.getLast? = some last) :
    r.field i stop = (readField last ts).mapError .source := by
  have hsuffix : (splitLabel? ts).elim ts Prod.snd <:+ ts := by
    cases hsplit : splitLabel? ts with
    | none => exact List.suffix_refl ts
    | some p => exact suffix_of_splitLabel? hsplit
  have hlen := h.stands.length_eq
  have hle := hsuffix.length_le
  have hbehind := h.of_suffix hsuffix
  rw [show stop - ((splitLabel? ts).elim ts Prod.snd).length =
    i + (ts.length - ((splitLabel? ts).elim ts Prod.snd).length) by omega] at hbehind
  have hend := typeEnd_eq hr hbehind hbehind.length_lt_rounds
  have htype := hbehind.stands.of_prefix (isPrefix_beforeDefault _)
  rw [← typeTokens] at hend htype
  rw [field, h.stands.span_eq, readField_eq]
  simp only [bind, Except.bind, label_eq, hend, hlast]
  cases htokens : typeTokens ts with
  | nil =>
    rw [List.length_nil, Nat.add_zero, if_neg (Nat.lt_irrefl _)]
    rfl
  | cons t type =>
    rw [htokens] at htype
    have hsource := sourceBetween_eq hr htype
    rw [if_pos (by rw [List.length_cons]; omega), hsource]
    rfl

def readRanges (ranges : List (List Token)) : Except SourceError (List Field) :=
  (ranges.filterMap fun range => range.getLast?.map fun last => (last, range)).mapM fun p =>
    readField p.1 p.2

theorem readRanges_cons (range : List Token) (ranges : List (List Token)) :
    readRanges (range :: ranges) = match range.getLast? with
      | some last => do return (← readField last range) :: (← readRanges ranges)
      | none => readRanges ranges := by
  rw [readRanges]
  cases hlast : range.getLast? with
  | none => rw [List.filterMap_cons_none (by rw [hlast]; rfl), readRanges]
  | some last => rw [List.filterMap_cons_some (by rw [hlast]; rfl), List.mapM_cons, readRanges]

theorem mapM_field_cons (hr : r.Ready) {range : List Token} {ranges : List (List Token)}
    (hrange : r.Ahead i (i + range.length) range) {more : List (Nat × Nat)}
    (hmore : (more.filter fun p => p.1 != p.2).mapM (fun p => r.field p.1 p.2) =
      (readRanges ranges).mapError .source) :
    (((i, i + range.length) :: more).filter fun p => p.1 != p.2).mapM (fun p => r.field p.1 p.2) =
      (readRanges (range :: ranges)).mapError .source := by
  rw [readRanges_cons]
  cases hlast : range.getLast? with
  | none =>
    obtain rfl := List.getLast?_eq_none_iff.1 hlast
    rw [List.filter_cons_of_neg (by simp)]
    exact hmore
  | some last =>
    have hne : range.length ≠ 0 := by
      rw [ne_eq, List.length_eq_zero_iff]
      rintro rfl
      cases hlast
    rw [List.filter_cons_of_pos (by simpa using hne), List.mapM_cons, field_eq hr hrange hlast,
      hmore]
    dsimp only
    cases readField last range with
    | error e => rfl
    | ok f => cases readRanges ranges <;> rfl

theorem mapM_field_eq (hr : r.Ready) {ranges : List (List Token)} (hcut : CutAtCommas ts ranges)
    (h : StandsAt r.tokens i stop ts) (hnested : ∀ range ∈ ranges, WellNested (delimiters range)) :
    ((bounds i i ranges).filter fun p => p.1 != p.2).mapM (fun p => r.field p.1 p.2) =
      (readRanges ranges).mapError .source := by
  induction hcut generalizing i with
  | last range =>
    obtain rfl := h.length_eq
    exact mapM_field_cons hr (.of_wellNested h (hnested range (List.mem_singleton_self range))) rfl
  | @cons range comma rest ranges _ _ ih =>
    obtain ⟨hrange, hranges⟩ := List.forall_mem_cons.1 hnested
    have hlen := h.length_eq
    simp only [List.length_append, List.length_cons] at hlen
    have hsuffix : rest <:+ range ++ comma :: rest := ⟨range ++ [comma], by simp⟩
    have hrest := h.of_suffix hsuffix
    rw [show stop - rest.length = i + range.length + 1 by omega] at hrest
    exact mapM_field_cons hr (.of_wellNested (h.of_prefix (List.prefix_append _ _)) hrange)
      (ih hrest hranges)

theorem fields_eq (hr : r.Ready) (h : StandsAt r.tokens i stop ts)
    (hts : WellNested (delimiters ts)) :
    r.fields i stop = (readFields ts).mapError .source := by
  have hahead : r.Ahead i stop ts := .of_wellNested h hts
  have hfields := mapM_field_eq hr (cutAtCommas_splitFields ts) h fun _ =>
    wellNested_of_mem_splitFields hts
  rw [fields, fieldRanges_eq hr hahead hahead.length_lt_rounds]
  exact hfields

end Checked.Reader

end CaseAccessors
