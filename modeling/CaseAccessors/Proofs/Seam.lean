import CaseAccessors.Proofs.TokenForm

/-! Where a text can be cut without a piece in front of the cut becoming another one. What a piece
is depends on the text behind it only up to the next blank, closing delimiter or question mark: a
token stays what it is where the text ends sooner, unless only the end of its line closes it, and
other text may follow a line end, and a line end may take the place of blanks and braces. -/
namespace CaseAccessors

/-- Characters that no token goes on with. -/
def isEdge (c : Char) : Bool :=
  c == ' ' || c == '\t' || c == '\r' || c == '\n' || c == '}' || c == ')' || c == '?'

/-- The second text is the first one up to where the second one ends or has an edge. -/
inductive Cut : Text → Text → Prop where
  | stop {s t : Text} : (∀ c ∈ t.head?, isEdge c = true) → Cut s t
  | cons {c : Char} {s t : Text} : Cut s t → Cut (c :: s) (c :: t)

namespace Cut

theorem append {s t : Text} (h : Cut s t) (u : Text) : Cut (u ++ s) (u ++ t) := by
  induction u with
  | nil => exact h
  | cons c u ih => exact .cons ih

theorem head {s t : Text} (h : Cut s t) {p : Char → Bool} (hp : ∀ c, isEdge c = true → p c = false)
    (hs : ∀ c ∈ s.head?, p c = false) : ∀ c ∈ t.head?, p c = false := by
  cases h with
  | stop ht => exact fun c hc => hp c (ht c hc)
  | cons => exact hs

theorem head_ne {s t : Text} (h : Cut s t) {x : Char} (hx : isEdge x = false)
    (hs : s.head? ≠ some x) : t.head? ≠ some x := by
  cases h with
  | stop ht =>
    intro hc
    rw [ht x hc] at hx
    cases hx
  | cons => exact hs

theorem dropWhile {s t : Text} (h : Cut s t) {p : Char → Bool}
    (hp : ∀ c, isEdge c = true → p c = false) : Cut (s.dropWhile p) (t.dropWhile p) := by
  induction h with
  | @stop s t ht =>
    have hself : t.dropWhile p = t := by
      cases t with
      | nil => rfl
      | cons c t => rw [List.dropWhile_cons_of_neg (by simp [hp c (ht c rfl)])]
    rw [hself]
    exact .stop ht
  | @cons c s t h ih =>
    by_cases hpc : p c = true
    · rwa [List.dropWhile_cons_of_pos hpc, List.dropWhile_cons_of_pos hpc]
    · rw [List.dropWhile_cons_of_neg hpc, List.dropWhile_cons_of_neg hpc]
      exact .cons h

end Cut

/-- Texts that are the same up to an edge. Only a line end takes the place of a line end. -/
inductive Alike : Text → Text → Prop where
  | edge {c d : Char} {s t : Text} : isEdge c = true → isEdge d = true → (c = '\n' → d = '\n') →
      Alike (c :: s) (d :: t)
  | cons {c : Char} {s t : Text} : Alike s t → Alike (c :: s) (c :: t)

namespace Alike

theorem cut {s t : Text} (h : Alike s t) : Cut s t := by
  induction h with
  | edge _ hd _ =>
    refine .stop ?_
    rintro _ ⟨⟩
    exact hd
  | cons _ ih => exact .cons ih

theorem append {s t : Text} (h : Alike s t) (u : Text) : Alike (u ++ s) (u ++ t) := by
  induction u with
  | nil => exact h
  | cons c u ih => exact .cons ih

theorem head_newline {s t : Text} (h : Alike s t) (hs : ∀ c ∈ s.head?, c = '\n') :
    ∀ c ∈ t.head?, c = '\n' := by
  cases h with
  | edge _ _ hn => rintro _ ⟨⟩; exact hn (hs _ rfl)
  | cons => exact hs

end Alike

theorem isEdge_iff {c : Char} : isEdge c = true ↔
    c.toNat = 32 ∨ c.toNat = 9 ∨ c.toNat = 13 ∨ c.toNat = 10 ∨ c.toNat = 125 ∨ c.toNat = 41 ∨
      c.toNat = 63 := by
  simp [isEdge, char_eq_iff, or_assoc]

theorem isIdentPart_of_isEdge {c : Char} (h : isEdge c = true) : isIdentPart c = false := by
  rw [isEdge_iff] at h
  rw [Bool.eq_false_iff, ne_eq, isIdentPart_iff]
  omega

def numberGoesOn (c : Char) (s : Text) : Bool :=
  (c == '.' && s.head?.any Char.isDigit) || c.isAlphanum || c == '_'

theorem afterNumber_cons (c : Char) (s : Text) :
    afterNumber (c :: s) = if numberGoesOn c s then afterNumber s else c :: s := by
  rw [afterNumber.eq_def, numberGoesOn]
  split
  · next d t heq =>
    cases heq
    simp
  · next hpoint heq =>
    cases heq
    have : (c == '.' && s.head?.any Char.isDigit) = false := by
      cases s with
      | nil => simp
      | cons d t => simpa using fun h => absurd rfl (hpoint d t h)
    simp [this]
  · next heq => cases heq

theorem numberGoesOn_of_afterNumber {c : Char} {s rest : Text}
    (h : afterNumber (c :: s ++ rest) = rest) :
    numberGoesOn c (s ++ rest) = true ∧ afterNumber (s ++ rest) = rest := by
  rw [List.cons_append, afterNumber_cons] at h
  split at h
  · next hc => exact ⟨hc, h⟩
  · have := congrArg List.length h
    simp only [List.length_cons, List.length_append] at this
    omega

theorem afterNumber_eq_self {c : Char} {s : Text} (h : afterNumber (c :: s) = c :: s) :
    numberGoesOn c s = false := by
  rw [afterNumber_cons] at h
  split at h
  · have := length_afterNumber s
    rw [h, List.length_cons] at this
    omega
  · next hc => simpa using hc

theorem numberGoesOn_eq_false_of_isEdge {c : Char} (h : isEdge c = true) (s : Text) :
    numberGoesOn c s = false := by
  rw [isEdge_iff] at h
  have hpoint : c ≠ '.' := by rintro rfl; exact absurd h (by decide)
  have hline : c ≠ '_' := by rintro rfl; exact absurd h (by decide)
  have halnum : c.isAlphanum = false := by
    rw [Char.isAlphanum, Bool.or_eq_false_iff, Bool.eq_false_iff, Bool.eq_false_iff, ne_eq, ne_eq,
      isAlpha_iff, isDigit_iff]
    omega
  simp [numberGoesOn, hpoint, hline, halnum]

theorem isDigit_of_isEdge {c : Char} (h : isEdge c = true) : c.isDigit = false := by
  rw [isEdge_iff] at h
  rw [Bool.eq_false_iff, ne_eq, isDigit_iff]
  omega

theorem numberGoesOn_of_isDigit {c : Char} (h : c.isDigit = true) (s : Text) :
    numberGoesOn c s = true := by
  simp [numberGoesOn, Char.isAlphanum, h]

theorem Cut.numberGoesOn {s t : Text} (h : Cut s t) {c : Char} (hc : numberGoesOn c s = false) :
    numberGoesOn c t = false := by
  simp only [CaseAccessors.numberGoesOn, Bool.or_eq_false_iff, Bool.and_eq_false_iff] at hc ⊢
  refine ⟨⟨hc.1.1.imp id fun hs => ?_, hc.1.2⟩, hc.2⟩
  rw [Option.any_eq_false] at hs ⊢
  exact h.head (fun _ => isDigit_of_isEdge) hs

theorem afterNumber_cut {s rest rest' : Text} (h : afterNumber (s ++ rest) = rest)
    (hcut : Cut rest rest') : afterNumber (s ++ rest') = rest' := by
  induction s with
  | nil =>
    cases hcut with
    | stop hedge =>
      cases rest' with
      | nil => rfl
      | cons c rest' =>
        rw [List.nil_append, afterNumber_cons, numberGoesOn_eq_false_of_isEdge (hedge c rfl)]
        rfl
    | cons htail =>
      rw [List.nil_append, afterNumber_cons, htail.numberGoesOn (afterNumber_eq_self h)]
      rfl
  | cons c s ih =>
    obtain ⟨hc, hs⟩ := numberGoesOn_of_afterNumber h
    have hc' : numberGoesOn c (s ++ rest') = true := by
      cases s with
      | cons => exact hc
      | nil =>
        -- a point at the end would have a digit behind it, with which the number goes on
        have hdigit : ∀ d ∈ rest.head?, d.isDigit = false := fun d hd => by
          obtain ⟨t, rfl⟩ := List.head?_eq_some_iff.1 hd
          have hend := afterNumber_eq_self hs
          rw [Bool.eq_false_iff]
          intro hd
          rw [numberGoesOn_of_isDigit hd] at hend
          cases hend
        rw [numberGoesOn, List.nil_append, (Option.any_eq_false _ _).2 hdigit, Bool.and_false,
          Bool.false_or] at hc
        rw [numberGoesOn, Bool.or_assoc, hc, Bool.or_true]
    rw [List.cons_append, afterNumber_cons, if_pos hc']
    exact ih hs

def BeginsNoMark (c : Char) (s : Text) : Prop :=
  ∀ d ∈ s.head?, ¬(c = '/' ∧ d = '*') ∧ ¬(c = '*' ∧ d = '/')

theorem BeginsNoMark.append {c : Char} {s : Text} (h : BeginsNoMark c s) (hs : s ≠ []) (t : Text) :
    BeginsNoMark c (s ++ t) := by
  obtain ⟨d, u, rfl⟩ := List.exists_cons_of_ne_nil hs
  exact h

/-- The inside of a block comment and its last mark, with `depth` comments open around it. -/
inductive CommentBody : (depth : Nat) → Text → Prop where
  | opening {depth : Nat} {s : Text} : CommentBody (depth + 1) s →
    CommentBody depth ('/' :: '*' :: s)
  | last : CommentBody 0 ['*', '/']
  | closing {depth : Nat} {s : Text} : CommentBody depth s →
    CommentBody (depth + 1) ('*' :: '/' :: s)
  | char {depth : Nat} {c : Char} {s : Text} : BeginsNoMark c s → CommentBody depth s →
      CommentBody depth (c :: s)

theorem afterComment_cons {depth : Nat} {c : Char} {s : Text} (h : BeginsNoMark c s) :
    afterComment depth (c :: s) = afterComment depth s := by
  rw [afterComment]
  · rintro t rfl rfl
    exact (h '*' rfl).1 ⟨rfl, rfl⟩
  · rintro t rfl rfl rfl
    exact (h '/' rfl).2 ⟨rfl, rfl⟩
  · rintro d t rfl rfl rfl
    exact (h '/' rfl).2 ⟨rfl, rfl⟩

namespace CommentBody

theorem ne_nil {depth : Nat} {s : Text} (h : CommentBody depth s) : s ≠ [] := by
  cases h <;> exact List.cons_ne_nil _ _

theorem of_afterComment {depth : Nat} {s rest : Text}
    (h : afterComment depth (s ++ rest) = some rest) : CommentBody depth s := by
  generalize hs : s ++ rest = t at h
  fun_induction afterComment depth t generalizing s with
  | case1 depth t ih =>
    obtain ⟨u, rfl⟩ := afterComment_suffix h
    obtain rfl : s = '/' :: '*' :: u := List.append_cancel_right hs
    exact .opening (ih rfl h)
  | case2 t =>
    cases h
    obtain rfl : s = ['*', '/'] := List.append_cancel_right hs
    exact .last
  | case3 depth t ih =>
    obtain ⟨u, rfl⟩ := afterComment_suffix h
    obtain rfl : s = '*' :: '/' :: u := List.append_cancel_right hs
    exact .closing (ih rfl h)
  | case4 depth c t hopening hclosing₀ hclosing ih =>
    obtain ⟨u, rfl⟩ := afterComment_suffix h
    obtain rfl : s = c :: u := List.append_cancel_right hs
    refine .char (fun d hd => ?_) (ih rfl h)
    obtain ⟨v, rfl⟩ := List.head?_eq_some_iff.1 hd
    refine ⟨?_, ?_⟩
    · rintro ⟨rfl, rfl⟩
      exact hopening _ rfl rfl
    · rintro ⟨rfl, rfl⟩
      cases depth with
      | zero => exact hclosing₀ _ rfl rfl rfl
      | succ depth => exact hclosing depth _ rfl rfl rfl
  | case5 => cases h

theorem afterComment {depth : Nat} {s : Text} (h : CommentBody depth s) (rest : Text) :
    afterComment depth (s ++ rest) = some rest := by
  induction h with
  | opening _ ih => exact ih
  | last => rfl
  | closing _ ih => exact ih
  | @char depth c s hc hs ih =>
    -- the comment does not end with `c`, so the character behind `c` is its own
    rw [List.cons_append, afterComment_cons (hc.append hs.ne_nil rest), ih]

theorem suffix {depth : Nat} {s : Text} (h : CommentBody depth s) : ['*', '/'] <:+ s := by
  induction h with
  | opening _ ih => exact ih.trans ⟨['/', '*'], rfl⟩
  | last => exact List.suffix_refl _
  | closing _ ih => exact ih.trans ⟨['*', '/'], rfl⟩
  | char _ _ ih => exact ih.trans (List.suffix_cons _ _)

end CommentBody

theorem afterComment_congr {depth : Nat} {s rest : Text}
    (h : afterComment depth (s ++ rest) = some rest)
    (rest' : Text) : afterComment depth (s ++ rest') = some rest' :=
  (CommentBody.of_afterComment h).afterComment rest'

theorem openQuote?_eq_none_iff {s : Text} :
    openQuote? s = none ↔ (s.dropWhile (· == '#')).head? ≠ some '"' := by
  unfold openQuote?
  split
  · next h => simp [h]
  · next h => simp [h]
  · next h =>
    refine iff_of_true rfl fun hq => ?_
    obtain ⟨t, ht⟩ := List.head?_eq_some_iff.1 hq
    exact h t ht

/-- Where the text ends sooner a token stays what it is, unless only the end of its line closes it.
-/
theorem TokenForm.cut {rest rest' t : Text} {kind : Kind} (h : TokenForm rest kind t)
    (hopen : ∀ s, t = '`' :: s → (∀ a ∈ s, a ≠ '`' ∧ a ≠ '\n') → ∀ c ∈ rest'.head?, c = '\n')
    (hcut : Cut rest rest') : TokenForm rest' kind t := by
  cases h with
  | word hc hs hr => exact .word hc hs (hcut.head (fun _ => isIdentPart_of_isEdge) hr)
  | quotedWord hs => exact .quotedWord hs
  | openWord hs hr => exact .openWord hs (hopen _ rfl hs)
  | number hc hs => exact .number hc (afterNumber_cut hs hcut)
  | string hs hempty => exact .string hs fun h => hcut.head_ne (by decide) (hempty h)
  | arrow => exact .arrow
  | @mark c hstart hback hdigit hquote harrow =>
    refine .mark hstart hback hdigit ?_ fun h => hcut.head_ne (by decide) (harrow h)
    rw [openQuote?_eq_none_iff] at hquote ⊢
    have hhash : ∀ a, isEdge a = true → (a == '#') = false := fun a ha => by
      rw [isEdge_iff] at ha
      rw [beq_eq_false_iff_ne, ne_eq, char_eq_iff]
      change ¬a.toNat = 35
      omega
    by_cases hc : c = '#'
    · subst hc
      exact (hcut.dropWhile hhash).head_ne (by decide) hquote
    · simpa [hc] using hquote

theorem TokenForm.head_of_open {rest s : Text} {kind : Kind} (h : TokenForm rest kind ('`' :: s))
    (hs : ∀ a ∈ s, a ≠ '`' ∧ a ≠ '\n') : ∀ c ∈ rest.head?, c = '\n' := by
  generalize ht : '`' :: s = t at h
  cases h with
  | word hc =>
    cases ht
    cases hc
  | quotedWord =>
    cases ht
    exact absurd rfl (hs '`' (List.mem_append_right _ List.mem_cons_self)).1
  | openWord _ hr => exact hr
  | number hc =>
    cases ht
    cases hc
  | string hstring =>
    subst ht
    obtain h | h := hstring.head <;> cases h
  | arrow => cases ht
  | mark _ hback =>
    cases ht
    exact absurd rfl hback

theorem TokenForm.congr {rest rest' t : Text} {kind : Kind} (h : TokenForm rest kind t)
    (halike : Alike rest rest') : TokenForm rest' kind t := by
  refine h.cut ?_ halike.cut
  rintro s rfl hs
  exact halike.head_newline (h.head_of_open hs)

namespace Piece

theorem StartsToken.cut {c : Char} {s rest rest' : Text} (h : StartsToken c (s ++ rest))
    (hcut : Cut rest rest') : StartsToken c (s ++ rest') := by
  refine ⟨h.1, fun hc => ?_⟩
  cases s with
  | nil =>
    have hs := h.2 hc
    exact fun d hd => ⟨fun hslash => hcut.head_ne (x := '/') (by decide)
        (fun h => (hs '/' h).1 rfl) (hslash ▸ hd),
      fun hstar => hcut.head_ne (x := '*') (by decide) (fun h => (hs '*' h).2 rfl) (hstar ▸ hd)⟩
  | cons d s => exact h.2 hc

theorem Stands.congr {p : Piece} {rest rest' : Text} (h : p.Stands rest)
    (halike : Alike rest rest') : p.Stands rest' := by
  cases h with
  | blank hc => exact .blank hc
  | line hs hr => exact .line hs (halike.head_newline hr)
  | block hs => exact .block (afterComment_congr hs rest')
  | token hstart hread =>
    exact .token (hstart.cut halike.cut) ((TokenForm.of_readToken hread).congr halike).readToken

theorem Reads.congr {ps : List Piece} {rest rest' : Text} (h : Reads ps rest)
    (halike : Alike rest rest') : Reads ps rest' := by
  induction ps with
  | nil => trivial
  | cons p ps ih => exact ⟨h.1.congr (halike.append _), ih h.2⟩

theorem Stands.cut_append {p : Piece} {s rest rest' : Text} (h : p.Stands (s ++ rest))
    (hline : ∃ c ∈ rest.head?, c ≠ '\n') (hcut : Cut rest rest') : p.Stands (s ++ rest') := by
  -- what needs a line end behind it finds that in `s`
  have hhead : (∀ c ∈ (s ++ rest).head?, c = '\n') →
      ∀ c ∈ (s ++ rest').head?, c = '\n' := fun hs => by
    cases s with
    | nil =>
      obtain ⟨c, hc, hne⟩ := hline
      exact absurd (hs c hc) hne
    | cons c s => exact hs
  cases h with
  | blank hc => exact .blank hc
  | line hs hr => exact .line hs (hhead hr)
  | block hs => exact .block (afterComment_congr hs _)
  | token hstart hread =>
    have hcut := hcut.append s
    have hform := TokenForm.of_readToken hread
    refine .token (hstart.cut hcut) (hform.cut ?_ hcut).readToken
    intro u hu hname
    rw [hu] at hform
    exact hhead (hform.head_of_open hname)

/-- Where no line ended behind the pieces, the text may end sooner or go on behind an edge. -/
theorem Reads.cut {ps : List Piece} {rest rest' : Text} (h : Reads ps rest)
    (hline : ∃ c ∈ rest.head?, c ≠ '\n') (hcut : Cut rest rest') : Reads ps rest' := by
  induction ps with
  | nil => trivial
  | cons p ps ih => exact ⟨h.1.cut_append hline hcut, ih h.2⟩

end Piece

end CaseAccessors
