import CaseAccessors.Proofs.AccessorWords
import CaseAccessors.Proofs.BodyEnd
import Mathlib.Data.List.TakeWhile

/-! Reading a payload gives back the fields that it is written from: commas inside of types do not
split it, no type is taken for a label, and the text of a type stays as it is. -/
namespace CaseAccessors

open Piece

theorem items_cons {t : Token} (h : t.opener? = none) (rest : List Token) :
    items (t :: rest) = .token t :: items rest := by
  rw [items]
  simp [h]

theorem items_group {o k : Token} {c d : Char} {inside : List Token} (ho : o.opener? = some c)
    (hk : k.closer? = some d) (hinside : Balanced (inside.map (·.kind))) (rest : List Token) :
    items (o :: (inside ++ k :: rest)) = .group o inside k :: items rest := by
  have hgroup := group?_eq_some hinside hk rest
  rw [items]
  simp only [ho, Option.isSome_some, if_true]
  split
  · next h =>
    rw [hgroup] at h
    cases h
    rfl
  · next h =>
    rw [hgroup] at h
    cases h

theorem items_append {ks : List Kind} (h : Balanced ks) {ts : List Token}
    (hts : ts.map (·.kind) = ks)
    (rest : List Token) : items (ts ++ rest) = items ts ++ items rest := by
  induction h generalizing ts with
  | nil =>
    obtain rfl := List.map_eq_nil_iff.1 hts
    rw [items]
    rfl
  | other ho _ _ ih =>
    obtain ⟨t, us, rfl, rfl, hus⟩ := List.map_eq_cons_iff.1 hts
    rw [List.cons_append, items_cons ho, items_cons ho, ih hus, List.cons_append]
  | group ho hk hinside _ _ ih =>
    obtain ⟨o, us, rfl, rfl, hus⟩ := List.map_eq_cons_iff.1 hts
    obtain ⟨ins, vs, rfl, hins, hvs⟩ := List.map_eq_append_iff.1 hus
    obtain ⟨k, xs, rfl, rfl, hxs⟩ := List.map_eq_cons_iff.1 hvs
    rw [← hins] at hinside
    rw [List.cons_append, List.append_assoc, List.cons_append, items_group ho hk hinside,
      items_group ho hk hinside, ih hxs, List.cons_append]

theorem foldr_consItem (its : List Item) (range : List Item) (ranges : List (List Item)) :
    its.foldr consItem (range :: ranges) = (its ++ range) :: ranges := by
  induction its with
  | nil => rfl
  | cons i its ih => rw [List.foldr_cons, ih]; rfl

/-- Splitting at commas passes over the words, with as many angle brackets open or more. -/
def Unsplit (angles : Nat) (ws : List Word) : Prop :=
  ∀ ts, ts.map Token.word = ws → ∀ n, angles ≤ n → ∀ more,
    splitItems n (items ts ++ more) = (items ts).foldr consItem (splitItems n more)

namespace Unsplit

theorem nil (angles : Nat) : Unsplit angles [] := by
  intro ts hts n _ more
  rw [List.map_eq_nil_iff.1 hts, items]
  rfl

theorem mono {m n : Nat} (hmn : m ≤ n) {ws : List Word} (h : Unsplit m ws) : Unsplit n ws :=
  fun ts hts k hk => h ts hts k (Nat.le_trans hmn hk)

theorem append {angles : Nat} {ws us : List Word} (hbalanced : Balanced (ws.map Prod.fst))
    (hw : Unsplit angles ws) (hu : Unsplit angles us) : Unsplit angles (ws ++ us) := by
  intro ts hts n hn more
  obtain ⟨ts₁, ts₂, rfl, h₁, h₂⟩ := List.map_eq_append_iff.1 hts
  rw [items_append hbalanced (Token.map_kind_of_map_word h₁), List.append_assoc, hw ts₁ h₁ n hn,
    hu ts₂ h₂ n hn, List.foldr_append]

theorem cons {angles : Nat} {w : Word} {ws : List Word} (ho : w.1.opener? = none)
    (hangle : w.1 ≠ .punct '<' ∧ w.1 ≠ .punct '>') (hcomma : w.1 ≠ .punct ',' ∨ 0 < angles)
    (h : Unsplit angles ws) : Unsplit angles (w :: ws) := by
  intro ts hts n hn more
  obtain ⟨t, us, rfl, rfl, hus⟩ := List.map_eq_cons_iff.1 hts
  have hsplit : (t.isPunct ',' && n == 0) = false := by
    rw [Bool.and_eq_false_iff, Bool.eq_false_iff, ne_eq, Token.isPunct_iff, beq_eq_false_iff_ne]
    rcases hcomma with hcomma | hcomma
    · exact .inl hcomma
    · exact .inr (by omega)
  have hopen : t.isPunct '<' = false := by
    rw [Bool.eq_false_iff, ne_eq, Token.isPunct_iff]
    exact hangle.1
  have hclose : t.isPunct '>' = false := by
    rw [Bool.eq_false_iff, ne_eq, Token.isPunct_iff]
    exact hangle.2
  rw [items_cons ho, List.cons_append, splitItems, List.foldr_cons, h us hus n hn]
  simp [Item.isPunct, hsplit, hopen, hclose]

theorem group {angles : Nat} {o k : Word} {c d : Char} {inside ws : List Word}
    (ho : o.1.opener? = some c) (hk : k.1.closer? = some d)
    (hinside : Balanced (inside.map Prod.fst))
    (h : Unsplit angles ws) : Unsplit angles (o :: (inside ++ k :: ws)) := by
  intro ts hts n hn more
  obtain ⟨t, us, rfl, rfl, hus⟩ := List.map_eq_cons_iff.1 hts
  obtain ⟨ins, vs, rfl, hins, hvs⟩ := List.map_eq_append_iff.1 hus
  obtain ⟨u, xs, rfl, rfl, hxs⟩ := List.map_eq_cons_iff.1 hvs
  rw [← Token.map_kind_of_map_word hins] at hinside
  rw [items_group ho hk hinside, List.cons_append, splitItems, List.foldr_cons, h xs hxs n hn]
  simp [Item.isPunct]

theorem angles {n : Nat} {ws : List Word} (hbalanced : Balanced (ws.map Prod.fst))
    (h : Unsplit (n + 1) ws) : Unsplit n (sign '<' :: (ws ++ [sign '>'])) := by
  intro ts hts m hm more
  obtain ⟨t, us, rfl, ht, hus⟩ := List.map_eq_cons_iff.1 hts
  obtain ⟨ins, vs, rfl, hins, hvs⟩ := List.map_eq_append_iff.1 hus
  obtain ⟨u, xs, rfl, hu, hxs⟩ := List.map_eq_cons_iff.1 hvs
  obtain rfl := List.map_eq_nil_iff.1 hxs
  obtain ⟨ht, -⟩ := Prod.mk.inj ht
  obtain ⟨hu, -⟩ := Prod.mk.inj hu
  have hopen : t.opener? = none := by rw [Token.opener?, ht]; rfl
  have hclose : u.opener? = none := by rw [Token.opener?, hu]; rfl
  have hlast : splitItems (m + 1) (.token u :: more) = consItem (.token u) (splitItems m more) := by
    simp [splitItems, Item.isPunct, Lexeme.isPunct, hu]
  rw [items_cons hopen, items_append hbalanced (Token.map_kind_of_map_word hins), items_cons hclose,
    items, List.cons_append, List.append_assoc, splitItems, List.foldr_cons, List.foldr_append]
  simp only [Item.isPunct, Lexeme.isPunct, ht]
  rw [h ins hins (m + 1) (by omega)]
  simp [hlast]

end Unsplit

mutual
theorem WrittenType.unsplit {p : Text → Prop} (t : WrittenType p) : Unsplit 0 t.words := by
  cases t with
  | named id => exact .cons rfl (by simp) (.inl (by simp)) (.nil 0)
  | generic id args =>
    exact .cons rfl (by simp) (.inl (by simp)) (.angles args.balanced args.unsplit)
  | array t => exact .group rfl rfl t.balanced (.nil 0)
  | dictionary k v =>
    rw [WrittenType.words, dictionary_words]
    exact .group rfl rfl (k.balanced.append_words (.mark rfl rfl v.balanced)) (.nil 0)
  | function ps r =>
    exact .group rfl rfl ps.balanced (.cons rfl (by simp) (.inl (by simp)) r.unsplit)
  | thunk r =>
    have harrow : Unsplit 0 ((.arrow, ['-', '>']) :: r.words) :=
      .cons rfl (by simp) (.inl (by simp)) r.unsplit
    exact (Unsplit.group rfl rfl .nil harrow : Unsplit 0 (sign '(' :: ([] ++ sign ')' :: _)))
  | optional t =>
    exact t.unsplit.append t.balanced (.cons rfl (by simp) (.inl (by simp)) (.nil 0))
  | existential id =>
    exact .cons rfl (by simp) (.inl (by simp)) (.cons rfl (by simp) (.inl (by simp)) (.nil 0))
theorem WrittenTypes.unsplit {p : Text → Prop} (ts : WrittenTypes p) : Unsplit 1 ts.words := by
  cases ts with
  | one t => exact t.unsplit.mono (by omega)
  | more t ts =>
    have hcomma : Unsplit 1 (sign ',' :: ts.words) :=
      .cons rfl (by simp) (.inr (by omega)) ts.unsplit
    exact (t.unsplit.mono (by omega)).append t.balanced hcomma
end

/-- Words with a single space between neighbours. -/
inductive Tidy : Text → Prop where
  | char {c : Char} : isBlank c = false → Tidy [c]
  | cons {c : Char} {s : Text} : isBlank c = false → Tidy s → Tidy (c :: s)
  | space {c : Char} {s : Text} : isBlank c = false → Tidy s → Tidy (c :: ' ' :: s)

namespace Tidy

theorem append {s t : Text} (hs : Tidy s) (ht : Tidy t) : Tidy (s ++ t) := by
  induction hs with
  | char hc => exact .cons hc ht
  | cons hc _ ih => exact .cons hc ih
  | space hc _ ih => exact .space hc ih

theorem append_space {s t : Text} (hs : Tidy s) (ht : Tidy t) : Tidy (s ++ ' ' :: t) := by
  induction hs with
  | char hc => exact .space hc ht
  | cons hc _ ih => exact .cons hc ih
  | space hc _ ih => exact .space hc ih

theorem head {s : Text} (h : Tidy s) : ∃ c t, s = c :: t ∧ isBlank c = false := by
  cases h with
  | char hc => exact ⟨_, _, rfl, hc⟩
  | cons hc _ => exact ⟨_, _, rfl, hc⟩
  | space hc _ => exact ⟨_, _, rfl, hc⟩

theorem getLast {s : Text} (h : Tidy s) : ∀ c ∈ s.getLast?, isBlank c = false := by
  induction h with
  | char hc =>
    rintro _ ⟨⟩
    exact hc
  | cons _ hs ih =>
    obtain ⟨d, t, rfl, -⟩ := hs.head
    rw [List.getLast?_cons_cons]
    exact ih
  | space _ hs ih =>
    obtain ⟨d, t, rfl, -⟩ := hs.head
    rw [List.getLast?_cons_cons, List.getLast?_cons_cons]
    exact ih

theorem of_forall {s : Text} (hne : s ≠ []) (h : ∀ c ∈ s, isBlank c = false) : Tidy s := by
  induction s with
  | nil => exact absurd rfl hne
  | cons c s ih =>
    have hc := h c List.mem_cons_self
    by_cases hs : s = []
    · rw [hs]
      exact .char hc
    · exact .cons hc (ih hs fun d hd => h d (List.mem_cons_of_mem c hd))

theorem of_isPlainName {n : Text} (h : isPlainName n = true) : Tidy n := by
  obtain ⟨c, t, rfl, -⟩ := exists_cons_of_isPlainName h
  refine of_forall (List.cons_ne_nil c t) fun a ha => ?_
  rw [isPlainName, Bool.and_eq_true, List.all_eq_true] at h
  have hpart := h.2 a ha
  rw [Bool.and_eq_true, isIdentPart_iff, decide_eq_true_eq] at hpart
  simp only [isBlank, Bool.or_eq_false_iff, Bool.and_eq_false_iff, decide_eq_false_iff_not,
    beq_eq_false_iff_ne]
  omega

theorem words_ne_nil {s : Text} (h : Tidy s) : Text.words s ≠ [] := by
  obtain ⟨c, t, rfl, hc⟩ := h.head
  rw [Text.words, if_neg (by simp [hc])]
  split <;> simp

theorem collapse {s : Text} (h : Tidy s) : s.collapse = s := by
  unfold Text.collapse
  induction h with
  | char hc => simp [Text.words, hc, Text.joinWith]
  | @cons c s hc hs ih =>
    have hne := hs.words_ne_nil
    obtain ⟨d, t, rfl, hd⟩ := hs.head
    cases hwords : Text.words (d :: t) with
    | nil => exact absurd hwords hne
    | cons w ws =>
      rw [hwords] at ih
      rw [Text.words, if_neg (by simp [hc]), hwords]
      simp only [List.head?_cons, Option.any_some, hd, Bool.not_false]
      cases ws with
      | nil => rw [Text.joinWith, ← ih, Text.joinWith]
      | cons v ws =>
        rw [Text.joinWith_cons_cons] at ih ⊢
        rw [← ih]
        rfl
  | @space c s hc hs ih =>
    have hblank : isBlank ' ' = true := by decide
    have hrest : Text.words (' ' :: s) = Text.words s := by rw [Text.words, if_pos hblank]
    rw [Text.words, if_neg (by simp [hc]), hrest]
    simp only [List.head?_cons, Option.any_some, hblank, Bool.not_true]
    rw [Text.joinWith, ih]
    · rfl
    · exact fun h => hs.words_ne_nil h

end Tidy

mutual
theorem WrittenType.tidy {p : Text → Prop} (t : WrittenType p) : Tidy t.text := by
  cases t with
  | named id => exact .of_isPlainName id.2.1
  | generic id args =>
    exact (Tidy.of_isPlainName id.2.1).append
      (.cons (by decide) (args.tidy.append (.char (by decide))))
  | array t => exact .cons (by decide) (t.tidy.append (.char (by decide)))
  | dictionary k v =>
    have hvalue := Tidy.space (c := ':') (by decide) (v.tidy.append (.char (c := ']') (by decide)))
    exact .cons (by decide) (k.tidy.append hvalue)
  | function ps r =>
    have hresult : Tidy (')' :: ' ' :: '-' :: '>' :: ' ' :: r.text) :=
      .space (by decide) (.cons (by decide) (.space (by decide) r.tidy))
    exact .cons (by decide) (ps.tidy.append hresult)
  | thunk r =>
    exact .cons (by decide) (.space (by decide) (.cons (by decide) (.space (by decide) r.tidy)))
  | optional t => exact t.tidy.append (.char (by decide))
  | existential id =>
    have hany : Tidy "any".toList := .of_isPlainName (by decide)
    exact hany.append_space (.of_isPlainName id.2.1)
theorem WrittenTypes.tidy {p : Text → Prop} (ts : WrittenTypes p) : Tidy ts.text := by
  cases ts with
  | one t => exact t.tidy
  | more t ts => exact t.tidy.append (.space (by decide) ts.tidy)
end

theorem isBlank_of_isSpace {c : Char} (h : isSpace c = true) : isBlank c = true := by
  rw [isSpace_iff] at h
  simp only [isBlank, Bool.or_eq_true, Bool.and_eq_true, decide_eq_true_eq, beq_iff_eq]
  omega

namespace Piece

theorem flatMap_toTokens {ps : List Piece} (h : ∀ p ∈ ps.getLast?, p.word?.isSome) (hne : ps ≠ [])
    (lead : Text) (p : Place) :
    (toTokens lead p ps).flatMap (fun t => t.lead ++ t.text) = lead ++ textOf ps := by
  induction ps generalizing lead p with
  | nil => exact absurd rfl hne
  | cons q ps ih =>
    by_cases hps : ps = []
    · obtain rfl := hps
      cases q with
      | token kind s => simp [toTokens, text]
      | blank c => simp [word?] at h
      | comment s => simp [word?] at h
    · have hlast : ∀ p ∈ ps.getLast?, p.word?.isSome := by
        obtain ⟨r, rs, rfl⟩ := List.exists_cons_of_ne_nil hps
        rwa [List.getLast?_cons_cons] at h
      cases q with
      | token kind s => simp [toTokens, text, ih hlast hps]
      | blank c => simp [toTokens, text, ih hlast hps]
      | comment s => simp [toTokens, text, ih hlast hps]

theorem sourceOf_toTokens {ps : List Piece} (hhead : ∀ p ∈ ps.head?, p.word?.isSome)
    (hlast : ∀ p ∈ ps.getLast?, p.word?.isSome) (lead : Text) (p : Place) :
    Token.sourceOf (toTokens lead p ps) = textOf ps := by
  cases ps with
  | nil => rfl
  | cons q ps =>
    cases q with
    | blank c => simp [word?] at hhead
    | comment s => simp [word?] at hhead
    | token kind s =>
      have hall := flatMap_toTokens hlast (List.cons_ne_nil _ ps) [] p
      rw [toTokens, List.flatMap_cons, List.nil_append] at hall
      exact hall

theorem sourceOf_toTokens_of_tidy {ps : List Piece} (htidy : Tidy (textOf ps))
    (hps : Uncommented ps)
    (lead : Text) (p : Place) : Token.sourceOf (toTokens lead p ps) = textOf ps := by
  have htoken : ∀ q ∈ ps, (∀ c, q = .blank c → isBlank c = false) →
      q.word?.isSome := fun q hq h => by
    rw [Option.isSome_iff_ne_none]
    intro hword
    obtain ⟨c, rfl, hc⟩ := hps q hq hword
    exact Bool.false_ne_true ((h c rfl).symm.trans (isBlank_of_isSpace hc))
  apply sourceOf_toTokens
  · intro q hq
    apply htoken q (List.mem_of_mem_head? hq)
    rintro c rfl
    obtain ⟨qs, rfl⟩ := List.head?_eq_some_iff.1 hq
    obtain ⟨d, t, htext, hd⟩ := htidy.head
    rw [textOf_cons, text, List.singleton_append] at htext
    rw [(List.cons.inj htext).1]
    exact hd
  · intro q hq
    apply htoken q (List.mem_of_getLast? hq)
    rintro c rfl
    obtain ⟨qs, rfl⟩ := List.getLast?_eq_some_iff.1 hq
    apply htidy.getLast
    rw [textOf_append, List.getLast?_append]
    rfl

end Piece

def opensLabel : List Word → Bool
  | (.ident, _) :: (.punct c, _) :: _ => c == ':'
  | (.ident, _) :: (.ident, _) :: (.punct c, _) :: _ => c == ':'
  | _ => false

theorem splitLabel?_eq_none {ts : List Token} (h : opensLabel (ts.map Token.word) = false) :
    splitLabel? ts = none := by
  unfold splitLabel?
  split
  · next l c rest =>
    split
    · next hl =>
      split
      · next hc =>
        rw [Token.isPunct_iff] at hc
        simp [Token.word, opensLabel, hl, hc] at h
      · split
        · next hc =>
          split
          · next colon rest =>
            rw [if_neg]
            intro hcolon
            rw [Token.isPunct_iff] at hcolon
            simp [Token.word, opensLabel, hl, hc, hcolon] at h
          · rfl
        · rfl
    · rfl
  · rfl

theorem WrittenType.opensLabel_append {p : Text → Prop} (t : WrittenType p) (n : Nat) :
    opensLabel (t.words ++ List.replicate n (sign '?')) = false := by
  cases t with
  | named id => cases n <;> rfl
  | generic id args => rfl
  | array t => rfl
  | dictionary k v => rfl
  | function ps r => rfl
  | thunk r => rfl
  | optional t =>
    rw [WrittenType.words, List.append_assoc, List.singleton_append, ← List.replicate_succ]
    exact t.opensLabel_append (n + 1)
  | existential id => cases n <;> rfl

mutual
theorem WrittenType.marks {p : Text → Prop} (t : WrittenType p) : ∀ c s, (.punct c, s) ∈ t.words →
    c ∈ "<>[]():,?".toList := by
  cases t with
  | named id => simp [WrittenType.words]
  | generic id args => simpa [WrittenType.words, or_imp, forall_and] using args.marks
  | array t => simpa [WrittenType.words, or_imp, forall_and] using t.marks
  | dictionary k v =>
    have hboth := And.intro k.marks v.marks
    simpa [WrittenType.words, or_imp, forall_and] using hboth
  | function ps r =>
    have hboth := And.intro ps.marks r.marks
    simpa [WrittenType.words, or_imp, forall_and] using hboth
  | thunk r => simpa [WrittenType.words, or_imp, forall_and] using r.marks
  | optional t => simpa [WrittenType.words, or_imp, forall_and] using t.marks
  | existential id => simp [WrittenType.words]
theorem WrittenTypes.marks {p : Text → Prop} (ts : WrittenTypes p) :
    ∀ c s, (.punct c, s) ∈ ts.words → c ∈ "<>[]():,?".toList := by
  cases ts with
  | one t => exact t.marks
  | more t ts =>
    have hboth := And.intro t.marks ts.marks
    simpa [WrittenTypes.words, or_imp, forall_and] using hboth
end

theorem WrittenType.ne_mark
    {p : Text → Prop} (t : WrittenType p) {c : Char} (hc : c ∉ "<>[]():,?".toList) :
    ∀ w ∈ t.words, w.1 ≠ .punct c := by
  rintro ⟨_, s⟩ hw rfl
  exact hc (t.marks c s hw)

theorem items_ne_equals {ts : List Token} (h : ∀ t ∈ ts, t.kind ≠ .punct '=') :
    ∀ i ∈ items ts, (!i.isPunct '=') = true := by
  intro i hi
  rw [Bool.not_eq_true', Bool.eq_false_iff]
  intro hequals
  cases i with
  | group => cases hequals
  | token t =>
    rw [Item.isPunct, Token.isPunct_iff] at hequals
    have hmem : t ∈ (items ts).flatMap Item.tokens :=
      List.mem_flatMap.2 ⟨_, hi, List.mem_singleton_self t⟩
    rw [flatMap_items] at hmem
    exact h t hmem hequals

theorem beforeDefault_eq_self {ts : List Token} (h : ∀ t ∈ ts, t.kind ≠ .punct '=') :
    beforeDefault ts = ts := by
  rw [beforeDefault, List.takeWhile_eq_self_iff.2 (items_ne_equals h), flatMap_items]

theorem beforeDefault_append {ts : List Token} (hbalanced : Balanced (ts.map (·.kind)))
    (h : ∀ t ∈ ts, t.kind ≠ .punct '=') {equals : Token} (hequals : equals.kind = .punct '=')
    (us : List Token) : beforeDefault (ts ++ equals :: us) = ts := by
  have hitems : items (equals :: us) = .token equals :: items us := by
    apply items_cons
    rw [Token.opener?, hequals]
    rfl
  rw [beforeDefault, items_append hbalanced rfl, hitems,
    List.takeWhile_append_of_pos (items_ne_equals h),
    List.takeWhile_cons_of_neg (by simp [Item.isPunct, Lexeme.isPunct, hequals]), List.append_nil,
      flatMap_items]

theorem WrittenType.words_ne_nil {p : Text → Prop} (t : WrittenType p) : t.words ≠ [] := by
  cases t <;> simp [WrittenType.words]

/-- A type as pieces, from whose tokens its text is read, up to the default value behind it if there
is one. -/
theorem WrittenType.exists_pieces {p : Text → Prop} (t : WrittenType p) :
    ∃ ps, textOf ps = t.text ∧ ps.filterMap word? = t.words ∧ (∀ rest, Stops rest → Reads ps rest) ∧
      ∀ lead p behind, (∀ e ∈ behind.head?, e.kind = .punct '=') →
        ∃ u us, beforeDefault (toTokens lead p ps ++ behind) = u :: us ∧
          (Token.sourceOf (u :: us)).collapse = t.text := by
  obtain ⟨ps, htext, hwords, hread, hps⟩ := t.spells.exists_pieces
  refine ⟨ps, htext, hwords, hread, fun lead p behind hbehind => ?_⟩
  have htokens : (toTokens lead p ps).map Token.word = t.words := by
    rw [map_word_toTokens, hwords]
  have htidy : Tidy (textOf ps) := htext ▸ t.tidy
  have hequals : ∀ u ∈ toTokens lead p ps, u.kind ≠ .punct '=' := fun u hu => by
    apply t.ne_mark (by decide) u.word
    rw [← htokens]
    exact List.mem_map_of_mem hu
  have hbalanced : Balanced ((toTokens lead p ps).map (·.kind)) := by
    rw [Token.map_kind_of_map_word htokens]
    exact t.balanced
  have hbefore : beforeDefault (toTokens lead p ps ++ behind) = toTokens lead p ps := by
    cases behind with
    | nil => rw [List.append_nil, beforeDefault_eq_self hequals]
    | cons e es => exact beforeDefault_append hbalanced hequals (hbehind e rfl) es
  have hsource := sourceOf_toTokens_of_tidy htidy hps lead p
  rw [hbefore]
  cases hts : toTokens lead p ps with
  | nil =>
    rw [hts] at htokens
    exact absurd htokens.symm t.words_ne_nil
  | cons u us =>
    refine ⟨u, us, rfl, ?_⟩
    rw [← hts, hsource, htext]
    exact t.tidy.collapse

theorem TypeExpr.exists_pieces (t : TypeExpr) :
    ∃ ps, textOf ps = t.text ∧ ps.filterMap word? = t.words ∧ (∀ rest, Stops rest → Reads ps rest) ∧
      ∀ lead p, (toTokens lead p ps).map Token.word = t.words ∧
        ∃ u us, beforeDefault (toTokens lead p ps) = u :: us ∧
          (Token.sourceOf (u :: us)).collapse = t.text := by
  obtain ⟨ps, htext, hwords, hread, htokens⟩ := WrittenType.exists_pieces t
  refine ⟨ps, htext, hwords, hread, fun lead p => ⟨by rw [map_word_toTokens, hwords], ?_⟩⟩
  have hbefore := htokens lead p [] (by simp)
  rwa [List.append_nil] at hbefore

def IsField (ts : List Token) (f : Field) : Prop := ts ≠ [] ∧ ∀ last, readField last ts = .ok f

namespace FieldExpr

def text (f : FieldExpr) : Text := labelled (f.label.map Subtype.val) f.type.text

def words (f : FieldExpr) : List Word :=
  match f.label with
  | some l => (.ident, l.1) :: sign ':' :: f.type.words
  | none => f.type.words

theorem inert (f : FieldExpr) : Inert f.words := by
  unfold words
  split
  · exact .label (.mark rfl rfl f.type.inert)
  · exact f.type.inert

theorem unsplit (f : FieldExpr) : Unsplit 0 f.words := by
  unfold words
  split
  · exact .cons rfl (by simp) (.inl (by simp)) (.cons rfl (by simp) (.inl (by simp)) f.type.unsplit)
  · exact f.type.unsplit

theorem exists_pieces (f : FieldExpr) (hlabel : ∀ l ∈ f.label, l.1 ≠ ['_']) :
    ∃ ps, textOf ps = f.text ∧ ps.filterMap word? = f.words ∧ (∀ rest, Stops rest → Reads ps rest) ∧
      ∀ lead p, IsField (toTokens lead p ps) f.field := by
  obtain ⟨ps, htext, hwords, hread, htokens⟩ := f.type.exists_pieces
  obtain ⟨label, type⟩ := f
  cases label with
  | none =>
    refine ⟨ps, htext, hwords, hread, fun lead p => ?_⟩
    obtain ⟨htypes, u, us, hbefore, hcollapse⟩ := htokens lead p
    have hnone : splitLabel? (toTokens lead p ps) = none := by
      apply splitLabel?_eq_none
      have hlabel := type.opensLabel_append 0
      rw [List.replicate_zero, List.append_nil] at hlabel
      rw [htypes, hlabel]
    constructor
    · intro hnil
      rw [hnil] at htypes
      exact type.words_ne_nil htypes.symm
    · intro last
      rw [readField, hnone]
      simp only [hbefore, hcollapse]
      rfl
  | some l =>
    obtain ⟨l, hplain⟩ := l
    refine ⟨.token .ident l :: .token (.punct ':') [':'] :: .blank ' ' :: ps, ?_, ?_, ?_, ?_⟩
    · simp [FieldExpr.text, labelled, htext, Piece.text]
    · change (.ident, l) :: sign ':' :: ps.filterMap word? = _
      rw [hwords]
      rfl
    · intro rest hrest
      refine ⟨Spells.stands_name hplain (by rintro _ ⟨⟩; rfl), Spells.stands_mark (by decide) _, ?_⟩
      exact ⟨.blank (by decide), hread rest hrest⟩
    · intro lead p
      obtain ⟨-, u, us, hbefore, hcollapse⟩ :=
        htokens [' '] (((p.advance l).advance [':']).advance [' '])
      have hsome : splitLabel? (toTokens lead p
          (.token .ident l :: .token (.punct ':') [':'] :: .blank ' ' :: ps)) =
          some (l, toTokens [' '] (((p.advance l).advance [':']).advance [' ']) ps) := by
        simp [toTokens, splitLabel?, Lexeme.isPunct, Lexeme.name, unquoted_of_isPlainName hplain]
      refine ⟨List.cons_ne_nil _ _, fun last => ?_⟩
      rw [readField, hsome]
      simp only [if_neg (hlabel _ rfl), hbefore, hcollapse]
      rfl

end FieldExpr

theorem splitFields_of_unsplit {ws : List Word} (h : Unsplit 0 ws) {ts : List Token}
    (hts : ts.map Token.word = ws) : splitFields ts = [ts] := by
  have hsplit := h ts hts 0 (by omega) []
  rw [List.append_nil, splitItems, foldr_consItem, List.append_nil] at hsplit
  rw [splitFields, hsplit, List.map_singleton, flatMap_items]

theorem splitFields_comma {ws : List Word} (hbalanced : Balanced (ws.map Prod.fst))
    (h : Unsplit 0 ws) {ts : List Token} (hts : ts.map Token.word = ws) {comma : Token}
    (hcomma : comma.word = sign ',')
    (us : List Token) : splitFields (ts ++ comma :: us) = ts :: splitFields us := by
  obtain ⟨hkind, -⟩ := Prod.mk.inj hcomma
  have hitems : items (comma :: us) = .token comma :: items us := by
    apply items_cons
    rw [Token.opener?, hkind]
    rfl
  have hfirst : splitItems 0 (.token comma :: items us) = [] :: splitItems 0 (items us) := by
    simp [splitItems, Item.isPunct, Lexeme.isPunct, hkind]
  rw [splitFields, items_append hbalanced (Token.map_kind_of_map_word hts), h ts hts 0 (by omega),
    hitems, hfirst, foldr_consItem, List.append_nil, List.map_cons, flatMap_items, splitFields]

theorem readFields_eq_ok {ts : List Token} {fs : List Field}
    (h : List.Forall₂ IsField (splitFields ts) fs) : readFields ts = .ok fs := by
  rw [readFields, mapM_eq_ok_iff]
  generalize splitFields ts = ranges at h ⊢
  induction h with
  | nil => exact .nil
  | @cons us f ranges fs hfield _ ih =>
    obtain ⟨hne, hread⟩ := hfield
    rw [List.filterMap_cons_some (by rw [List.getLast?_eq_some_getLast hne, Option.map_some])]
    exact .cons (hread _) ih

def joinWords : List (List Word) → List Word
  | [] => []
  | [ws] => ws
  | ws :: wss => ws ++ sign ',' :: joinWords wss

theorem Inert.joinWords {wss : List (List Word)} (h : ∀ ws ∈ wss, Inert ws) :
    Inert (joinWords wss) := by
  induction wss with
  | nil => exact .nil
  | cons ws wss ih =>
    have hws := h ws List.mem_cons_self
    have ih := ih fun us hus => h us (List.mem_cons_of_mem ws hus)
    cases wss with
    | nil => exact hws
    | cons us wss => exact hws.append (.mark rfl rfl ih)

/-- The text spells the words, and they are read as a field. -/
structure SpellsField (s : Text) (ws : List Word) (f : Field) : Prop where
  inert : Inert ws
  unsplit : Unsplit 0 ws
  exists_pieces : ∃ ps, textOf ps = s ∧ ps.filterMap word? = ws ∧
    (∀ rest, Stops rest → Reads ps rest) ∧
    ∀ lead p, IsField (toTokens lead p ps) f

theorem SpellsField.exists_pieces_joined {α : Type} {text : α → Text} {words : α → List Word}
    {field : α → Field} (f : α) (fs : List α)
    (h : ∀ g ∈ f :: fs, SpellsField (text g) (words g) (field g)) :
    ∃ ps, textOf ps = Text.joinWith ", ".toList ((f :: fs).map text) ∧
      ps.filterMap word? = joinWords ((f :: fs).map words) ∧ (∀ rest, Stops rest → Reads ps rest) ∧
      ∀ lead p, List.Forall₂ IsField (splitFields (toTokens lead p ps)) ((f :: fs).map field) := by
  induction fs generalizing f with
  | nil =>
    obtain ⟨-, hunsplit, ps, htext, hwords, hread, hfield⟩ := h f List.mem_cons_self
    refine ⟨ps, htext, hwords, hread, fun lead p => ?_⟩
    rw [splitFields_of_unsplit hunsplit (by rw [map_word_toTokens, hwords])]
    exact .cons (hfield lead p) .nil
  | cons g fs ih =>
    obtain ⟨hinert, hunsplit, ps, htext, hwords, hread, hfield⟩ := h f List.mem_cons_self
    obtain ⟨qs, hqtext, hqwords, hqread, hqfields⟩ := ih g fun h' hh =>
      h h' (List.mem_cons_of_mem f hh)
    refine ⟨ps ++ .token (.punct ',') [','] :: .blank ' ' :: qs, ?_, ?_, ?_, ?_⟩
    · rw [textOf_append, htext, textOf_cons, textOf_cons, hqtext]
      simp [Piece.text]
    · rw [List.filterMap_append, hwords]
      change words f ++ sign ',' :: qs.filterMap word? = _
      rw [hqwords]
      rfl
    · intro rest hrest
      refine reads_append.2 ⟨hread _ (stops_cons (by decide) _), Spells.stands_mark (by decide) _,
        ?_⟩
      exact ⟨.blank (by decide), hqread rest hrest⟩
    · intro lead p
      obtain ⟨lead', htokens⟩ :=
        toTokens_append ps (.token (.punct ',') [','] :: .blank ' ' :: qs) lead p
      rw [htokens, toTokens, splitFields_comma hinert.balanced hunsplit
        (by rw [map_word_toTokens, hwords]) rfl]
      exact .cons (hfield lead p) (hqfields _ _)

namespace FieldExpr

def joinedWords : List FieldExpr → List Word
  | [] => []
  | [f] => f.words
  | f :: fs => f.words ++ sign ',' :: joinedWords fs

theorem joinedWords_eq (fs : List FieldExpr) : joinedWords fs = joinWords (fs.map words) := by
  induction fs with
  | nil => rfl
  | cons f fs ih =>
    cases fs with
    | nil => rfl
    | cons g fs => exact congrArg (f.words ++ sign ',' :: ·) ih

theorem inert_joinedWords (fs : List FieldExpr) : Inert (joinedWords fs) := by
  rw [joinedWords_eq]
  apply Inert.joinWords
  rintro _ hws
  obtain ⟨f, -, rfl⟩ := List.mem_map.1 hws
  exact f.inert

theorem exists_pieces_joined (f : FieldExpr) (fs : List FieldExpr)
    (hlabel : ∀ g ∈ f :: fs, ∀ l ∈ g.label, l.1 ≠ ['_']) :
    ∃ ps, textOf ps = Text.joinWith ", ".toList ((f :: fs).map text) ∧
      ps.filterMap word? = joinedWords (f :: fs) ∧ (∀ rest, Stops rest → Reads ps rest) ∧
      ∀ lead p, List.Forall₂ IsField (splitFields (toTokens lead p ps)) ((f :: fs).map field) := by
  rw [joinedWords_eq]
  exact SpellsField.exists_pieces_joined f fs fun g hg =>
    ⟨g.inert, g.unsplit, g.exists_pieces (hlabel g hg)⟩

end FieldExpr

end CaseAccessors
