import CaseAccessors.Proofs.FieldReading
import CaseAccessors.Proofs.ReaderSteps
import Mathlib.Data.List.Forall2

/-! Tokens of two sources that belong together: they have the same kind and text, and they agree on
which of them share a line. Two lists of tokens that belong together pairwise have the same
delimiters, groups and ranges between commas. -/
namespace CaseAccessors

/-- A relation of tokens that are written alike and share lines alike. -/
structure Counterparts (R : Token → Token → Prop) : Prop where
  word : ∀ {t u : Token}, R t u → t.word = u.word
  line : ∀ {t u t' u' : Token}, R t u → R t' u' →
    (t.place.line = t'.place.line ↔ u.place.line = u'.place.line)

/-- Two readings that end alike: with one fault at tokens that belong together, or with results that
do. -/
inductive Together {α β : Type} (R : Token → Token → Prop) (S : α → β → Prop) :
    Except SourceError α → Except SourceError β → Prop where
  | error (fault : Fault) {t u : Token} :
    R t u → Together R S (.error (.ofPlace fault t.place)) (.error (.ofPlace fault u.place))
  | ok {a : α} {b : β} : S a b → Together R S (.ok a) (.ok b)

namespace Together

variable {α β γ δ : Type} {R R' : Token → Token → Prop} {S : α → β → Prop} {T : γ → δ → Prop}
  {x : Except SourceError α} {y : Except SourceError β}

theorem bind (h : Together R S x y) {f : α → Except SourceError γ} {g : β → Except SourceError δ}
    (hfg : ∀ a b, S a b → Together R T (f a) (g b)) : Together R T (x >>= f) (y >>= g) := by
  cases h with
  | error fault ht => exact .error fault ht
  | ok hab => exact hfg _ _ hab

theorem map (h : Together R S x y) {f : α → γ} {g : β → δ} (hfg : ∀ a b, S a b → T (f a) (g b)) :
    Together R T (x.map f) (y.map g) := by
  cases h with
  | error fault ht => exact .error fault ht
  | ok hab => exact .ok (hfg _ _ hab)

theorem exists_ok {a : α} (h : Together R S (.ok a) y) : ∃ b, y = .ok b ∧ S a b := by
  cases h with
  | ok hab => exact ⟨_, rfl, hab⟩

theorem mono (h : Together R S x y) (hR : ∀ t u, R t u → R' t u) : Together R' S x y := by
  cases h with
  | error fault ht => exact .error fault (hR _ _ ht)
  | ok hab => exact .ok hab

theorem mapM {f : α → Except SourceError γ} {g : β → Except SourceError δ}
    (hfg : ∀ a b, S a b →
      Together R T (f a) (g b)) {as : List α} {bs : List β} (h : List.Forall₂ S as bs) :
    Together R (List.Forall₂ T) (as.mapM f) (bs.mapM g) := by
  induction h with
  | nil => exact .ok .nil
  | cons hab _ ih =>
    rw [List.mapM_cons, List.mapM_cons]
    exact (hfg _ _ hab).bind fun _ _ hcd => ih.bind fun _ _ hrest => .ok (.cons hcd hrest)

end Together

section Related

variable {α β γ δ : Type} {S : α → β → Prop} {T : γ → δ → Prop} {a : Option α} {b : Option β}

theorem rel_option_cases (h : Option.Rel S a b) :
    a = none ∧ b = none ∨ ∃ x y, a = some x ∧ b = some y ∧ S x y := by
  cases h with
  | none => exact .inl ⟨rfl, rfl⟩
  | some hxy => exact .inr ⟨_, _, rfl, rfl, hxy⟩

theorem rel_option_map (h : Option.Rel S a b) {f : α → γ} {g : β → δ}
    (hfg : ∀ x y, S x y → T (f x) (g y)) :
    Option.Rel T (a.map f) (b.map g) := by
  cases h with
  | none => exact .none
  | some hxy => exact .some (hfg _ _ hxy)

theorem rel_head? {as : List α} {bs : List β} (h : List.Forall₂ S as bs) :
    Option.Rel S as.head? bs.head? := by
  cases h with
  | nil => exact .none
  | cons hab _ => exact .some hab

theorem rel_tail {as : List α} {bs : List β} (h : List.Forall₂ S as bs) :
    List.Forall₂ S as.tail bs.tail := by
  cases h with
  | nil => exact .nil
  | cons _ h => exact h

theorem rel_getLast? {as : List α} {bs : List β} (h : List.Forall₂ S as bs) :
    Option.Rel S as.getLast? bs.getLast? := by
  rw [List.getLast?_eq_head?_reverse, List.getLast?_eq_head?_reverse]
  exact rel_head? (List.rel_reverse h)

theorem rel_takeWhile {p : α → Bool} {q : β → Bool} (hpq : ∀ x y, S x y → p x = q y) {as : List α}
    {bs : List β} (h : List.Forall₂ S as bs) :
    List.Forall₂ S (as.takeWhile p) (bs.takeWhile q) := by
  induction h with
  | nil => exact .nil
  | cons hab _ ih =>
    rw [List.takeWhile_cons, List.takeWhile_cons, hpq _ _ hab]
    split
    · exact .cons hab ih
    · exact .nil

theorem rel_dropWhile {p : α → Bool} {q : β → Bool} (hpq : ∀ x y, S x y → p x = q y) {as : List α}
    {bs : List β} (h : List.Forall₂ S as bs) :
    List.Forall₂ S (as.dropWhile p) (bs.dropWhile q) := by
  induction h with
  | nil => exact .nil
  | cons hab h ih =>
    rw [List.dropWhile_cons, List.dropWhile_cons, hpq _ _ hab]
    split
    · exact ih
    · exact .cons hab h

end Related

namespace Token

variable {t u : Token}

theorem kind_congr (h : t.word = u.word) : t.kind = u.kind := congrArg Prod.fst h

theorem text_congr (h : t.word = u.word) : t.text = u.text := congrArg Prod.snd h

theorem name_congr (h : t.word = u.word) : t.name = u.name := by
  rw [Lexeme.name, text_congr h, Lexeme.name]

theorem isPunct_congr (h : t.word = u.word) (c : Char) : t.isPunct c = u.isPunct c := by
  rw [Lexeme.isPunct, kind_congr h, Lexeme.isPunct]

theorem isWord_congr (h : t.word = u.word) (s : String) : t.isWord s = u.isWord s := by
  rw [Lexeme.isWord, kind_congr h, text_congr h, Lexeme.isWord]

theorem isWordIn_congr (h : t.word = u.word) (ws : List Text) : t.isWordIn ws = u.isWordIn ws := by
  rw [Lexeme.isWordIn, kind_congr h, text_congr h, Lexeme.isWordIn]

theorem opener?_congr (h : t.word = u.word) : t.opener? = u.opener? := by
  rw [opener?, kind_congr h, opener?]

theorem closer?_congr (h : t.word = u.word) : t.closer? = u.closer? := by
  rw [closer?, kind_congr h, closer?]

theorem bindsNames_congr (h : t.word = u.word) : t.bindsNames = u.bindsNames := by
  rw [bindsNames, isWord_congr h, isWord_congr h, bindsNames]

theorem startsDeclaration_congr (h : t.word = u.word) :
    t.startsDeclaration = u.startsDeclaration := by
  rw [startsDeclaration, isWord_congr h, bindsNames_congr h, isWordIn_congr h, startsDeclaration]

theorem endsBindings_congr (h : t.word = u.word) : endsBindings t = endsBindings u := by
  rw [endsBindings, isPunct_congr h, isPunct_congr h, isPunct_congr h, startsDeclaration_congr h,
    isWordIn_congr h, endsBindings]

end Token

structure Group.Rel (R : Token → Token → Prop) (g g' : Group) : Prop where
  inside : List.Forall₂ R g.inside g'.inside
  closing : R g.closing g'.closing
  behind : List.Forall₂ R g.behind g'.behind

inductive Item.Rel (R : Token → Token → Prop) : Item → Item → Prop where
  | token {t u : Token} : R t u → Rel R (.token t) (.token u)
  | group {o o' k k' : Token} {ts us : List Token} :
    R o o' → List.Forall₂ R ts us → R k k' → Rel R (.group o ts k) (.group o' us k')

section Delimiters

variable {R : Token → Token → Prop} {ts us : List Token}

theorem rel_group? (hR : Counterparts R) (h : List.Forall₂ R ts us) (depth : Nat) :
    Option.Rel (Group.Rel R) (group? depth ts) (group? depth us) := by
  have hcons : ∀ {t u : Token}, R t u → ∀ g g' : Group, g.Rel R g' →
      Group.Rel R { g with inside := t :: g.inside } { g' with inside := u :: g'.inside } :=
    fun htu _ _ hg => ⟨.cons htu hg.inside, hg.closing, hg.behind⟩
  induction h generalizing depth with
  | nil => exact .none
  | @cons t u ts us htu h ih =>
    rw [group?.eq_def, group?.eq_def depth (u :: us)]
    dsimp only
    rw [Token.opener?_congr (hR.word htu), Token.closer?_congr (hR.word htu)]
    split
    · exact rel_option_map (ih _) (hcons htu)
    · split
      · cases depth with
        | zero => exact .some ⟨.nil, htu, h⟩
        | succ depth => exact rel_option_map (ih _) (hcons htu)
      · exact rel_option_map (ih _) (hcons htu)

theorem rel_afterGroup (hR : Counterparts R) (h : List.Forall₂ R ts us) :
    List.Forall₂ R (afterGroup ts) (afterGroup us) := by
  unfold afterGroup
  obtain ⟨hts, hus⟩ | ⟨g, g', hts, hus, hg⟩ := rel_option_cases (rel_group? hR h 0)
  · rwa [hts, hus]
  · rw [hts, hus]
    exact hg.behind

theorem rel_checkDelimiters (hR : Counterparts R) {pending pending' : List (Token × Char)}
    (hpending : List.Forall₂ (fun p q => R p.1 q.1 ∧ p.2 = q.2) pending pending')
    (h : List.Forall₂ R ts us) :
    Together R (fun _ _ => True) (checkDelimiters pending ts) (checkDelimiters pending' us) := by
  induction h generalizing pending pending' with
  | nil =>
    cases hpending with
    | nil => exact .ok trivial
    | @cons p q _ _ hpq _ =>
      obtain ⟨t, c⟩ := p
      obtain ⟨u, d⟩ := q
      obtain ⟨htu, rfl⟩ := hpq
      exact .error _ htu
  | @cons t u ts us htu _ ih =>
    have hopener := Token.opener?_congr (hR.word htu)
    have hcloser := Token.closer?_congr (hR.word htu)
    rw [checkDelimiters, checkDelimiters]
    cases ho : t.opener? with
    | some c =>
      rw [← hopener, ho]
      exact ih (.cons ⟨htu, rfl⟩ hpending)
    | none =>
      rw [← hopener, ho, ← hcloser]
      cases hc : t.closer? with
      | none => exact ih hpending
      | some found =>
        cases hpending with
        | nil => exact .error _ htu
        | @cons p q _ _ hpq hrest =>
          obtain ⟨p, c⟩ := p
          obtain ⟨q, d⟩ := q
          obtain ⟨-, rfl⟩ := hpq
          dsimp only
          split
          · exact ih hrest
          · exact .error _ htu

theorem rel_items (hR : Counterparts R) (h : List.Forall₂ R ts us) :
    List.Forall₂ (Item.Rel R) (items ts) (items us) := by
  fun_induction items ts generalizing us with
  | case1 =>
    cases h
    rw [items]
    exact .nil
  | case2 t rest ho g hg ih =>
    cases h with
    | @cons _ u _ us htu hrest =>
      rw [items_opener (Token.opener?_congr (hR.word htu) ▸ ho)]
      obtain ⟨hnone, -⟩ | ⟨g₁, g', hg₁, hg', hrel⟩ := rel_option_cases (rel_group? hR hrest 0)
      · rw [hg] at hnone
        cases hnone
      · rw [hg', ← Option.some.inj (hg.symm.trans hg₁)] at *
        exact .cons (.group htu hrel.inside hrel.closing) (ih hrel.behind)
  | case3 t rest ho hg ih =>
    cases h with
    | @cons _ u _ us htu hrest =>
      rw [items_opener (Token.opener?_congr (hR.word htu) ▸ ho)]
      obtain ⟨-, hnone⟩ | ⟨g₁, g', hg₁, -, -⟩ := rel_option_cases (rel_group? hR hrest 0)
      · rw [hnone]
        exact .cons (.token htu) (ih hrest)
      · rw [hg] at hg₁
        cases hg₁
  | case4 t rest ho ih =>
    cases h with
    | @cons _ u _ us htu hrest =>
      have hu : u.opener? = none := by
        rw [← Token.opener?_congr (hR.word htu)]
        simpa using ho
      rw [items_cons hu]
      exact .cons (.token htu) (ih hrest)

theorem Item.Rel.isPunct (hR : Counterparts R) {i j : Item} (h : i.Rel R j) (c : Char) :
    i.isPunct c = j.isPunct c := by
  cases h with
  | token htu => exact Token.isPunct_congr (hR.word htu) c
  | group => rfl

theorem Item.Rel.tokens {i j : Item} (h : i.Rel R j) : List.Forall₂ R i.tokens j.tokens := by
  cases h with
  | token htu => exact .cons htu .nil
  | group ho hinside hk => exact List.rel_append (.cons ho hinside) (.cons hk .nil)

theorem rel_flatMap_tokens {is js : List Item} (h : List.Forall₂ (Item.Rel R) is js) :
    List.Forall₂ R (is.flatMap Item.tokens) (js.flatMap Item.tokens) :=
  List.rel_flatMap h fun _ _ hij => hij.tokens

end Delimiters

section Payloads

variable {R : Token → Token → Prop} {ts us : List Token}

theorem rel_consItem {i j : Item} (hij : i.Rel R j) {ranges ranges' : List (List Item)}
    (h : List.Forall₂ (List.Forall₂ (Item.Rel R)) ranges ranges') :
    List.Forall₂ (List.Forall₂ (Item.Rel R)) (consItem i ranges) (consItem j ranges') := by
  cases h with
  | nil => exact .cons (.cons hij .nil) .nil
  | cons hrange hrest => exact .cons (.cons hij hrange) hrest

theorem rel_splitItems (hR : Counterparts R) {is js : List Item}
    (h : List.Forall₂ (Item.Rel R) is js) (angles : Nat) :
    List.Forall₂ (List.Forall₂ (Item.Rel R)) (splitItems angles is) (splitItems angles js) := by
  induction h generalizing angles with
  | nil => exact .cons .nil .nil
  | @cons i j _ _ hij _ ih =>
    rw [splitItems, splitItems, hij.isPunct hR, hij.isPunct hR, hij.isPunct hR]
    split
    · exact .cons .nil (ih 0)
    split
    · exact rel_consItem hij (ih _)
    split
    · exact rel_consItem hij (ih _)
    · exact rel_consItem hij (ih _)

theorem rel_splitFields (hR : Counterparts R) (h : List.Forall₂ R ts us) :
    List.Forall₂ (List.Forall₂ R) (splitFields ts) (splitFields us) :=
  List.rel_map (fun _ _ hrange => rel_flatMap_tokens hrange) (rel_splitItems hR (rel_items hR h) 0)

theorem rel_splitLabel? (hR : Counterparts R) (h : List.Forall₂ R ts us) :
    Option.Rel (fun p q => p.1 = q.1 ∧
      List.Forall₂ R p.2 q.2) (splitLabel? ts) (splitLabel? us) := by
  cases h with
  | nil => exact .none
  | @cons l l' _ _ hl h =>
    cases h with
    | nil => exact .none
    | @cons c c' _ _ hc h =>
      have hname := Token.name_congr (hR.word hl)
      simp only [splitLabel?, Token.kind_congr (hR.word hl), Token.kind_congr (hR.word hc),
        Token.isPunct_congr (hR.word hc)]
      split
      · split
        · exact .some ⟨hname, h⟩
        split
        · cases h with
          | nil => exact .none
          | @cons d d' _ _ hd h =>
            dsimp only
            rw [Token.isPunct_congr (hR.word hd)]
            split
            · exact .some ⟨hname, h⟩
            · exact .none
        · exact .none
      · exact .none

theorem rel_beforeDefault (hR : Counterparts R) (h : List.Forall₂ R ts us) :
    List.Forall₂ R (beforeDefault ts) (beforeDefault us) :=
  rel_flatMap_tokens (rel_takeWhile (fun _ _ hij => by rw [hij.isPunct hR]) (rel_items hR h))

end Payloads

end CaseAccessors
