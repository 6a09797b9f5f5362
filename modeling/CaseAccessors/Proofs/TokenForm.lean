import CaseAccessors.Proofs.CharacterClass
import CaseAccessors.Proofs.StringLiteral

/-! The forms that a token takes, each with what it needs of the text behind it. A token of one form
stays what it is as long as the text behind it begins alike. -/
namespace CaseAccessors

theorem dropWhile_append_eq_iff {α : Type} {p : α → Bool} {s rest : List α} :
    (s ++ rest).dropWhile p = rest ↔ (∀ a ∈ s, p a = true) ∧ ∀ a ∈ rest.head?, p a = false := by
  constructor
  · intro h
    have htake : (s ++ rest).takeWhile p = s := by
      have := List.takeWhile_append_dropWhile (p := p) (l := s ++ rest)
      rw [h] at this
      exact List.append_cancel_right this
    refine ⟨fun a ha => List.all_eq_true.1 List.all_takeWhile a (by rwa [htake]), fun a ha => ?_⟩
    have := List.head?_dropWhile_not p (s ++ rest)
    rw [h, Option.mem_def.1 ha] at this
    simpa using this
  · rintro ⟨hs, hr⟩
    rw [List.dropWhile_append_of_pos hs]
    cases rest with
    | nil => rfl
    | cons a rest => simp [hr a rfl]

def quoteMarks (multiline : Bool) : Text := if multiline then ['"', '"', '"'] else ['"']

theorem takeWhile_hashMarks (n : Nat) {s : Text} (hs : s.head? ≠ some '#') :
    (hashMarks n ++ s).takeWhile (· == '#') = hashMarks n ∧
      (hashMarks n ++ s).dropWhile (· == '#') = s := by
  have hall : ∀ a ∈ hashMarks n, (a == '#') = true := fun a ha => by
    simpa using List.eq_of_mem_replicate ha
  rw [List.takeWhile_append_of_pos hall, List.dropWhile_append_of_pos hall]
  cases s with
  | nil => simp
  | cons c s =>
    have hc : c ≠ '#' := by simpa using hs
    simp [hc]

theorem openQuote?_eq_some_iff {s inside : Text} {frame : Frame} :
    openQuote? s = some (frame, inside) ↔ ∃ hashes multiline,
      frame = .quoted hashes multiline s ∧
        s = hashMarks hashes ++ (quoteMarks multiline ++ inside) ∧
        (multiline = false → ¬['"', '"'] <+: inside) := by
  constructor
  · intro h
    have htake : s.takeWhile (· == '#') = hashMarks (s.takeWhile (· == '#')).length :=
      List.eq_replicate_iff.2 ⟨rfl, fun a ha => by
        simpa using List.all_eq_true.1 List.all_takeWhile a ha⟩
    have hs := List.takeWhile_append_dropWhile (p := (· == '#')) (l := s)
    rw [htake] at hs
    unfold openQuote? at h
    split at h
    · next hd =>
      cases h
      rw [hd] at hs
      exact ⟨_, true, rfl, hs.symm, by simp⟩
    · next hmulti hd =>
      cases h
      rw [hd] at hs
      refine ⟨_, false, rfl, hs.symm, ?_⟩
      rintro - ⟨t, rfl⟩
      exact hmulti t rfl
    · cases h
  · rintro ⟨hashes, multiline, rfl, hs, hsingle⟩
    obtain ⟨htake, hdrop⟩ := takeWhile_hashMarks hashes (s := quoteMarks multiline ++ inside)
      (by cases multiline <;> simp [quoteMarks])
    rw [← hs] at htake hdrop
    unfold openQuote?
    rw [htake, hdrop]
    cases multiline with
    | true => simp [quoteMarks, hashMarks]
    | false =>
      split
      · next heq =>
        simp [quoteMarks] at heq
        exact absurd ⟨_, heq.symm⟩ (hsingle rfl)
      · next heq =>
        simp [quoteMarks] at heq
        simp [hashMarks, heq]
      · next h => exact absurd rfl (h inside)

def IsString (s : Text) : Prop :=
  ∃ frame inside, openQuote? s = some (frame, inside) ∧ afterString [frame] inside = .ok []

/-- The tokens that can stand in front of `rest`. -/
inductive TokenForm (rest : Text) : Kind → Text → Prop where
  | word {c : Char} {s : Text} : isIdentStart c = true → (∀ a ∈ s, isIdentPart a = true) →
      (∀ a ∈ rest.head?, isIdentPart a = false) → TokenForm rest .ident (c :: s)
  | quotedWord {s : Text} : (∀ a ∈ s, a ≠ '`' ∧ a ≠ '\n') →
      TokenForm rest .ident ('`' :: (s ++ ['`']))
  /-- A quoted name that nothing but the end of its line closes. -/
  | openWord {s : Text} : (∀ a ∈ s, a ≠ '`' ∧ a ≠ '\n') → (∀ a ∈ rest.head?, a = '\n') →
      TokenForm rest .ident ('`' :: s)
  | number {c : Char} {s : Text} : c.isDigit = true → afterNumber (s ++ rest) = rest →
      TokenForm rest .literal (c :: s)
  | string {s : Text} : IsString s → (s = ['"', '"'] → rest.head? ≠ some '"') →
      TokenForm rest .literal s
  | arrow : TokenForm rest .arrow ['-', '>']
  | mark {c : Char} : isIdentStart c = false → c ≠ '`' → c.isDigit = false →
      openQuote? (c :: rest) = none → (c = '-' → rest.head? ≠ some '>') →
      TokenForm rest (.punct c) [c]

theorem afterBacktick_append_iff {s rest : Text} :
    afterBacktick (s ++ rest) = rest ↔
      (∃ u, s = u ++ ['`'] ∧ ∀ a ∈ u, a ≠ '`' ∧ a ≠ '\n') ∨
        ((∀ a ∈ s, a ≠ '`' ∧ a ≠ '\n') ∧ ∀ a ∈ rest.head?, a = '\n') := by
  constructor
  · intro h
    unfold afterBacktick at h
    split at h
    · next behind heq =>
      subst h
      have hs := List.takeWhile_append_dropWhile (p := fun c => c != '`' && c != '\n')
        (l := s ++ behind)
      rw [heq, List.append_cons] at hs
      refine .inl ⟨_, (List.append_cancel_right hs).symm, fun a ha => ?_⟩
      simpa using List.all_eq_true.1 List.all_takeWhile a ha
    · next hne =>
      obtain ⟨hs, hr⟩ := dropWhile_append_eq_iff.1 h
      refine .inr ⟨fun a ha => by simpa using hs a ha, fun a ha => ?_⟩
      obtain ⟨t, rfl⟩ := List.head?_eq_some_iff.1 ha
      have hback : a ≠ '`' := fun hb => hne t (by rw [h, hb])
      simpa [hback] using hr a ha
  · rintro (⟨u, rfl, hu⟩ | ⟨hs, hr⟩)
    · have hdrop :
          (u ++ ['`'] ++ rest).dropWhile (fun c => c != '`' && c != '\n') = '`' :: rest := by
        rw [List.append_assoc, List.dropWhile_append_of_pos (by simpa using hu)]
        rfl
      simp only [afterBacktick, hdrop]
    · have hdrop : (s ++ rest).dropWhile (fun c => c != '`' && c != '\n') = rest := by
        rw [dropWhile_append_eq_iff]
        exact ⟨by simpa using hs, fun a ha => by simp [hr a ha]⟩
      unfold afterBacktick
      rw [hdrop]
      split
      · exact absurd (hr _ rfl) (by decide)
      · rfl

theorem IsString.of_afterString {c : Char} {s rest inside : Text} {frame : Frame}
    (hopen : openQuote? (c :: (s ++ rest)) = some (frame, inside))
    (hread : afterString [frame] inside = .ok rest) :
    IsString (c :: s) ∧ (c :: s = ['"', '"'] → rest.head? ≠ some '"') := by
  obtain ⟨hashes, multiline, rfl, hs, hsingle⟩ := openQuote?_eq_some_iff.1 hopen
  obtain ⟨u, rfl⟩ := afterString_suffix hread
  have hcs : c :: s = hashMarks hashes ++ (quoteMarks multiline ++ u) := by
    rw [← List.append_assoc, ← List.append_assoc] at hs
    rw [← List.append_assoc]
    exact List.append_cancel_right hs
  constructor
  · have hu : CaseAccessors.afterString [.quoted hashes multiline (c :: s)] (u ++ []) = .ok [] :=
      afterString_congr hread (by rfl) []
    rw [List.append_nil] at hu
    exact ⟨.quoted hashes multiline (c :: s), u, openQuote?_eq_some_iff.2 ⟨hashes, multiline, rfl,
      hcs, fun h hpre => hsingle h (hpre.trans (List.prefix_append u rest))⟩, hu⟩
  · intro hempty hquote
    obtain ⟨t, rfl⟩ := List.head?_eq_some_iff.1 hquote
    rw [hempty] at hcs
    cases hashes with
    | succ n => exact absurd (List.cons.inj hcs).1 (by decide)
    | zero =>
      cases multiline with
      | true => simp [hashMarks, quoteMarks] at hcs
      | false =>
        obtain rfl : u = ['"'] := by simpa [hashMarks, quoteMarks] using hcs.symm
        exact hsingle rfl ⟨t, rfl⟩

theorem IsString.afterString {s rest : Text} (h : IsString s)
    (hempty : s = ['"', '"'] → rest.head? ≠ some '"') :
    ∃ frame inside, openQuote? (s ++ rest) = some (frame, inside) ∧
      afterString [frame] inside = .ok rest := by
  obtain ⟨frame, u, hopen, hread⟩ := h
  obtain ⟨hashes, multiline, rfl, hs, hsingle⟩ := openQuote?_eq_some_iff.1 hopen
  refine ⟨.quoted hashes multiline (s ++ rest), u ++ rest, openQuote?_eq_some_iff.2
    ⟨hashes, multiline, rfl, by simp [hs], ?_⟩, ?_⟩
  · rintro rfl ⟨t, ht⟩
    have hlen := minLengths_le_of_afterString hread
    match u, ht with
    | [], _ => simp [Frame.minLengths, Frame.minLength, closingQuote] at hlen
    | [a], ht =>
      obtain ⟨rfl, rfl⟩ : '"' = a ∧ '"' :: t = rest := by simpa using ht
      obtain rfl : hashes = 0 := by
        simp [Frame.minLengths, Frame.minLength, closingQuote, hashMarks] at hlen; omega
      exact hempty (by simp [hs, hashMarks, quoteMarks]) rfl
    | a :: b :: u, ht =>
      obtain ⟨rfl, rfl, -⟩ : '"' = a ∧ '"' = b ∧ t = u ++ rest := by simpa using ht
      exact hsingle rfl ⟨u, rfl⟩
  · rw [← List.append_nil u] at hread
    exact afterString_congr hread (by rfl) rest

theorem TokenForm.of_readToken {c : Char} {s rest : Text} {kind : Kind}
    (h : readToken c (s ++ rest) = .ok (kind, rest)) : TokenForm rest kind (c :: s) := by
  unfold readToken at h
  split at h
  · next hc =>
    simp only [Except.ok.injEq, Prod.mk.injEq] at h
    obtain ⟨rfl, h⟩ := h
    obtain ⟨hs, hr⟩ := dropWhile_append_eq_iff.1 h
    exact .word hc hs hr
  split at h
  · next hc =>
    simp only [Except.ok.injEq, Prod.mk.injEq] at h
    obtain ⟨rfl, h⟩ := h
    subst hc
    obtain ⟨u, rfl, hu⟩ | ⟨hs, hr⟩ := afterBacktick_append_iff.1 h
    · exact .quotedWord hu
    · exact .openWord hs hr
  split at h
  · next hc =>
    simp only [Except.ok.injEq, Prod.mk.injEq] at h
    obtain ⟨rfl, h⟩ := h
    exact .number hc h
  next hstart hback hdigit =>
  split at h
  · next frame inside hopen =>
    obtain ⟨r, hread, hr⟩ := exists_of_map_eq_ok h
    cases hr
    obtain ⟨hstring, hempty⟩ := IsString.of_afterString hopen hread
    exact .string hstring hempty
  · next hopen =>
    split at h
    · next heq =>
      simp only [Except.ok.injEq, Prod.mk.injEq] at h
      obtain ⟨rfl, rfl⟩ := h
      obtain rfl : s = ['>'] := List.append_cancel_right heq
      exact .arrow
    · next harrow =>
      simp only [Except.ok.injEq, Prod.mk.injEq] at h
      obtain ⟨rfl, h⟩ := h
      obtain rfl : s = [] := by simpa using h
      refine .mark (by simpa using hstart) hback (by simpa using hdigit) hopen ?_
      rintro rfl hr
      obtain ⟨t, rfl⟩ := List.head?_eq_some_iff.1 hr
      exact harrow t rfl rfl

theorem IsString.ne_nil {s : Text} (h : IsString s) : s ≠ [] := by
  rintro rfl
  obtain ⟨frame, inside, hopen, -⟩ := h
  cases hopen

theorem IsString.head {c : Char} {s : Text} (h : IsString (c :: s)) : c = '#' ∨ c = '"' := by
  obtain ⟨frame, u, hopen, -⟩ := h
  obtain ⟨hashes, multiline, -, hs, -⟩ := openQuote?_eq_some_iff.1 hopen
  cases hashes with
  | succ n => exact .inl (List.cons.inj hs).1
  | zero => cases multiline <;> exact .inr (List.cons.inj hs).1

theorem TokenForm.readToken {c : Char} {s rest : Text} {kind : Kind}
    (h : TokenForm rest kind (c :: s)) : readToken c (s ++ rest) = .ok (kind, rest) := by
  unfold CaseAccessors.readToken
  generalize ht : c :: s = t at h
  cases h with
  | word hc hs hr =>
    cases ht
    rw [if_pos hc, dropWhile_append_eq_iff.2 ⟨hs, hr⟩]
  | quotedWord hs =>
    cases ht
    rw [if_neg (by decide), if_pos rfl, afterBacktick_append_iff.2 (.inl ⟨_, rfl, hs⟩)]
  | openWord hs hr =>
    cases ht
    rw [if_neg (by decide), if_pos rfl, afterBacktick_append_iff.2 (.inr ⟨hs, hr⟩)]
  | number hc hs =>
    cases ht
    have hstart : isIdentStart c ≠ true := by
      rw [isDigit_iff] at hc
      rw [ne_eq, isIdentStart_iff]
      omega
    have hback : c ≠ '`' := by rintro rfl; exact absurd hc (by decide)
    rw [if_neg hstart, if_neg hback, if_pos hc, hs]
  | string hstring hempty =>
    subst ht
    obtain ⟨frame, inside, hopen, hread⟩ := hstring.afterString hempty
    rw [List.cons_append] at hopen
    have hc : isIdentStart c = false ∧ c ≠ '`' ∧ c.isDigit = false := by
      obtain rfl | rfl := hstring.head <;> decide
    rw [if_neg (by simp [hc.1]), if_neg hc.2.1, if_neg (by simp [hc.2.2]), hopen]
    simp [hread, Except.map]
  | arrow =>
    cases ht
    rw [if_neg (by decide), if_neg (by decide), if_neg (by decide)]
    rfl
  | mark hstart hback hdigit hopen harrow =>
    cases ht
    rw [if_neg (by simp [hstart]), if_neg hback, if_neg (by simp [hdigit]), List.nil_append, hopen]
    simp only
    split
    · exact absurd rfl (harrow rfl)
    · rfl

end CaseAccessors
