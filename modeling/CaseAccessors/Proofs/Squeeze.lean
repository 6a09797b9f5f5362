import CaseAccessors.Proofs.FieldReading

/-! Blanks between the words of a text. Texts that differ in nothing but how many blanks stand in
each place have the same words; squeezing leaves one space in each of these places, and it is what
collapsing does to a text that begins and ends with a word. -/
namespace CaseAccessors

namespace Text

/-- The texts differ in their blanks only, and have them in the same places. -/
inductive SpacedAlike : Text → Text → Prop where
  | nil : SpacedAlike [] []
  | char (c : Char) {s t : Text} : SpacedAlike s t → SpacedAlike (c :: s) (c :: t)
  | blanks {a b s t : Text} : a ≠ [] → b ≠ [] → (∀ c ∈ a, isBlank c = true) →
    (∀ c ∈ b, isBlank c = true) → SpacedAlike s t → SpacedAlike (a ++ s) (b ++ t)

theorem words_append_of_isBlank {b : Text} (h : ∀ c ∈ b, isBlank c = true) (s : Text) :
    words (b ++ s) = words s := by
  induction b with
  | nil => rfl
  | cons c b ih =>
    rw [List.cons_append, words, if_pos (h c List.mem_cons_self),
      ih fun d hd => h d (List.mem_cons_of_mem c hd)]

theorem SpacedAlike.append {s t u v : Text} (h : SpacedAlike s t) (h' : SpacedAlike u v) :
    SpacedAlike (s ++ u) (t ++ v) := by
  induction h with
  | nil => exact h'
  | char c _ ih => exact .char c ih
  | blanks ha hb hblank hblank' _ ih =>
    rw [List.append_assoc, List.append_assoc]
    exact .blanks ha hb hblank hblank' ih

theorem SpacedAlike.refl (s : Text) : SpacedAlike s s := by
  induction s with
  | nil => exact .nil
  | cons c s ih => exact .char c ih

theorem head?_append_of_isBlank {b : Text} (hne : b ≠ []) (h : ∀ c ∈ b, isBlank c = true)
    (s : Text) :
    ((b ++ s).head?.any (!isBlank ·)) = false := by
  obtain ⟨c, b, rfl⟩ := List.exists_cons_of_ne_nil hne
  simp [h c List.mem_cons_self]

theorem SpacedAlike.words {s t : Text} (h : SpacedAlike s t) : words s = words t := by
  have hboth : Text.words s = Text.words t ∧
      s.head?.any (!isBlank ·) = t.head?.any (!isBlank ·) := by
    induction h with
    | nil => exact ⟨rfl, rfl⟩
    | char c _ ih =>
      refine ⟨?_, rfl⟩
      rw [Text.words, Text.words, ih.1, ih.2]
    | blanks ha hb hblank hblank' _ ih =>
      rw [words_append_of_isBlank hblank, words_append_of_isBlank hblank',
        head?_append_of_isBlank ha hblank, head?_append_of_isBlank hb hblank']
      exact ⟨ih.1, rfl⟩
  exact hboth.1

/-- Every run of blanks becomes one space, also at the ends. -/
def squeeze : Text → Text
  | [] => []
  | c :: s =>
    if isBlank c then if s.head?.any isBlank then squeeze s else ' ' :: squeeze s
    else c :: squeeze s

theorem squeeze_cons {c : Char} (h : isBlank c = false) (s : Text) :
    squeeze (c :: s) = c :: squeeze s := by
  rw [squeeze, if_neg (by simp [h])]

theorem squeeze_blank {c : Char} (h : isBlank c = true) {s : Text}
    (hs : s.head?.any isBlank = false) :
    squeeze (c :: s) = ' ' :: squeeze s := by
  rw [squeeze, if_pos h, if_neg (by simp [hs])]

theorem squeeze_blank_blank {c : Char} (h : isBlank c = true) {s : Text}
    (hs : s.head?.any isBlank = true) :
    squeeze (c :: s) = squeeze s := by
  rw [squeeze, if_pos h, if_pos hs]

theorem head?_squeeze_of_blank {s : Text} (h : s.head?.any isBlank = true) :
    (squeeze s).head? = some ' ' := by
  induction s with
  | nil => cases h
  | cons c s ih =>
    have hc : isBlank c = true := h
    by_cases hs : s.head?.any isBlank = true
    · rw [squeeze_blank_blank hc hs]
      exact ih hs
    · rw [squeeze_blank hc (by simpa using hs)]
      rfl

theorem head?_squeeze {s : Text} (h : s.head?.any isBlank = false) :
    (squeeze s).head? = s.head? := by
  cases s with
  | nil => rfl
  | cons c s =>
    have hc : isBlank c = false := h
    rw [squeeze_cons hc]
    rfl

theorem squeeze_append (s : Text) {t : Text} (ht : t.head?.any isBlank = false) :
    squeeze (s ++ t) = squeeze s ++ squeeze t := by
  induction s with
  | nil => rfl
  | cons c s ih =>
    have hhead : s ≠ [] → (s ++ t).head?.any isBlank = s.head?.any isBlank := fun hs => by
      obtain ⟨d, s, rfl⟩ := List.exists_cons_of_ne_nil hs
      rfl
    rw [List.cons_append]
    by_cases hc : isBlank c = true
    · by_cases hs : s.head?.any isBlank = true
      · have hne : s ≠ [] := by
          rintro rfl
          cases hs
        rw [squeeze_blank_blank hc hs, squeeze_blank_blank hc (hhead hne ▸ hs), ih]
      · rw [Bool.not_eq_true] at hs
        have hst : (s ++ t).head?.any isBlank = false := by
          by_cases hne : s = []
          · rw [hne]
            exact ht
          · rw [hhead hne, hs]
        rw [squeeze_blank hc hs, squeeze_blank hc hst, ih]
        rfl
    · rw [Bool.not_eq_true] at hc
      rw [squeeze_cons hc, squeeze_cons hc, ih]
      rfl

theorem eq_space_of_mem_squeeze {s : Text} {c : Char} (h : c ∈ squeeze s) (hc : isBlank c = true) :
    c = ' ' := by
  induction s with
  | nil => cases h
  | cons d s ih =>
    rw [squeeze] at h
    split at h
    · split at h
      · exact ih h
      · obtain rfl | h := List.mem_cons.1 h
        · rfl
        · exact ih h
    · next hd =>
      obtain rfl | h := List.mem_cons.1 h
      · exact absurd hc hd
      · exact ih h

theorem words_squeeze (s : Text) : words (squeeze s) = words s := by
  induction s with
  | nil => rfl
  | cons c s ih =>
    by_cases hc : isBlank c = true
    · have hrest : words (c :: s) = words s := by rw [words, if_pos hc]
      rw [hrest]
      by_cases hs : s.head?.any isBlank = true
      · rw [squeeze_blank_blank hc hs, ih]
      · rw [squeeze_blank hc (by simpa using hs), words, if_pos (by decide), ih]
    · have hhead : (squeeze s).head?.any (!isBlank ·) = s.head?.any (!isBlank ·) := by
        by_cases hs : s.head?.any isBlank = true
        · rw [head?_squeeze_of_blank hs]
          cases s with
          | nil => cases hs
          | cons d s => simp only [List.head?_cons, Option.any_some] at hs ⊢; rw [hs]; rfl
        · rw [head?_squeeze (by simpa using hs)]
      rw [squeeze_cons (by simpa using hc), words, words, hhead, ih]

theorem collapse_squeeze (s : Text) : collapse (squeeze s) = collapse s := by
  rw [collapse, words_squeeze, collapse]

theorem unblank_of_mem_words {s w : Text} (h : w ∈ words s) : w ≠ [] ∧
    ∀ c ∈ w, isBlank c = false := by
  induction s generalizing w with
  | nil => cases h
  | cons c s ih =>
    rw [words] at h
    split at h
    · exact ih h
    · next hc =>
      have hsingle : [c] ≠ [] ∧ ∀ d ∈ [c], isBlank d = false := by simpa using hc
      split at h
      · next v vs _ hwords =>
        obtain rfl | h := List.mem_cons.1 h
        · refine ⟨List.cons_ne_nil _ _, ?_⟩
          have hv := ih (w := v) (by rw [hwords]; exact List.mem_cons_self)
          rintro d (_ | ⟨_, hd⟩)
          · simpa using hc
          · exact hv.2 d hd
        · exact ih (by rw [hwords]; exact List.mem_cons_of_mem v h)
      · obtain rfl | h := List.mem_cons.1 h
        · exact hsingle
        · exact ih h

end Text

namespace Tidy

theorem joinWith {ws : List Text} (hne : ws ≠ []) (h : ∀ w ∈ ws, Tidy w) :
    Tidy (Text.joinWith [' '] ws) := by
  induction ws with
  | nil => exact absurd rfl hne
  | cons w ws ih =>
    cases ws with
    | nil => exact h w List.mem_cons_self
    | cons v ws =>
      rw [Text.joinWith_cons_cons, List.append_assoc]
      exact (h w List.mem_cons_self).append_space
        (ih (List.cons_ne_nil v ws) fun u hu => h u (List.mem_cons_of_mem w hu))

theorem of_collapse {s : Text} (hne : s.collapse ≠ []) : Tidy s.collapse := by
  refine joinWith ?_ fun w hw => ?_
  · intro hnil
    rw [Text.collapse, hnil] at hne
    exact hne rfl
  · obtain ⟨hw, hblank⟩ := Text.unblank_of_mem_words hw
    exact of_forall hw hblank

theorem collapse_eq_self_iff {s : Text} (hne : s ≠ []) : s.collapse = s ↔ Tidy s := by
  constructor
  · intro h
    rw [← h] at hne ⊢
    exact of_collapse hne
  · exact collapse

theorem eq_space {s : Text} (h : Tidy s) {c : Char} (hc : c ∈ s) (hblank : isBlank c = true) :
    c = ' ' := by
  induction h with
  | char hd =>
    rw [List.mem_singleton.1 hc, hd] at hblank
    cases hblank
  | cons hd _ ih =>
    obtain rfl | hc := List.mem_cons.1 hc
    · rw [hd] at hblank
      cases hblank
    · exact ih hc
  | space hd _ ih =>
    obtain rfl | hc := List.mem_cons.1 hc
    · rw [hd] at hblank
      cases hblank
    · obtain rfl | hc := List.mem_cons.1 hc
      · rfl
      · exact ih hc

theorem of_append_left {a s : Text} (h : Tidy (a ++ s)) (hhead : ∃ c ∈ s.head?, isBlank c = false) :
    Tidy s := by
  obtain ⟨c, hc, hblank⟩ := hhead
  obtain ⟨s, rfl⟩ := List.head?_eq_some_iff.1 hc
  generalize ht : a ++ c :: s = t at h
  induction h generalizing a with
  | char hd =>
    obtain ⟨rfl, hs⟩ | ⟨a, rfl, hs⟩ := List.append_eq_cons_iff.1 ht
    · cases hs
      exact .char hd
    · simp at hs
  | cons hd hs ih =>
    obtain ⟨rfl, hs'⟩ | ⟨a, rfl, hs'⟩ := List.append_eq_cons_iff.1 ht
    · cases hs'
      exact .cons hd hs
    · exact ih hs'.symm
  | space hd hs ih =>
    obtain ⟨rfl, hs'⟩ | ⟨a, rfl, hs'⟩ := List.append_eq_cons_iff.1 ht
    · cases hs'
      exact .space hd hs
    · obtain ⟨rfl, hs'⟩ | ⟨a, rfl, hs'⟩ := List.append_eq_cons_iff.1 hs'.symm
      · cases hs'
        cases hblank
      · exact ih (List.cons.inj hs'.symm).2

theorem of_append_right {s b : Text} (h : Tidy (s ++ b))
    (hlast : ∃ c ∈ s.getLast?, isBlank c = false) :
    Tidy s := by
  obtain ⟨c, hc, hblank⟩ := hlast
  generalize ht : s ++ b = t at h
  induction h generalizing s with
  | char hd =>
    obtain ⟨rfl, -⟩ | ⟨s, rfl, hs⟩ := List.append_eq_cons_iff.1 ht
    · cases hc
    · obtain ⟨rfl, -⟩ := List.append_eq_nil_iff.1 hs.symm
      exact .char hd
  | cons hd _ ih =>
    obtain ⟨rfl, -⟩ | ⟨s, rfl, hs⟩ := List.append_eq_cons_iff.1 ht
    · cases hc
    · cases s with
      | nil => exact .char hd
      | cons d s =>
        rw [List.getLast?_cons_cons] at hc
        exact .cons hd (ih hc hs.symm)
  | space hd _ ih =>
    obtain ⟨rfl, -⟩ | ⟨s, rfl, hs⟩ := List.append_eq_cons_iff.1 ht
    · cases hc
    · obtain ⟨rfl, -⟩ | ⟨s, rfl, hs⟩ := List.append_eq_cons_iff.1 hs.symm
      · exact .char hd
      · cases s with
        | nil =>
          cases hc
          cases hblank
        | cons d s =>
          rw [List.getLast?_cons_cons, List.getLast?_cons_cons] at hc
          exact .space hd (ih hc (List.cons.inj hs.symm).2)

theorem squeeze_append {s : Text} (h : Tidy s) (t : Text) :
    Text.squeeze (s ++ t) = s ++ Text.squeeze t := by
  induction h with
  | char hc => exact Text.squeeze_cons hc t
  | cons hc _ ih => rw [List.cons_append, Text.squeeze_cons hc, ih, List.cons_append]
  | space hc hs ih =>
    obtain ⟨d, u, rfl, hd⟩ := hs.head
    rw [List.cons_append, List.cons_append, Text.squeeze_cons hc,
      Text.squeeze_blank (by decide) (by simpa using hd), ih]
    rfl

theorem squeeze_eq_self {s : Text} (h : Tidy s) : Text.squeeze s = s := by
  have := h.squeeze_append []
  rwa [List.append_nil, Text.squeeze, List.append_nil] at this

theorem append_squeeze {s t : Text} (hs : Tidy s) (l : Text) (ht : Tidy t) :
    Tidy (s ++ (Text.squeeze l ++ t)) := by
  have hboth : (∀ s, Tidy s → Tidy (s ++ (Text.squeeze l ++ t))) ∧
      (l.head?.any isBlank = false → Tidy (Text.squeeze l ++ t)) := by
    induction l with
    | nil => exact ⟨fun s hs => hs.append ht, fun _ => ht⟩
    | cons c l ih =>
      obtain ⟨ih, ih'⟩ := ih
      by_cases hc : isBlank c = true
      · refine ⟨fun s hs => ?_, fun h => absurd hc (by simpa using h)⟩
        by_cases hl : l.head?.any isBlank = true
        · rw [Text.squeeze_blank_blank hc hl]
          exact ih s hs
        · rw [Bool.not_eq_true] at hl
          rw [Text.squeeze_blank hc hl]
          exact hs.append_space (ih' hl)
      · rw [Bool.not_eq_true] at hc
        have hrest : Tidy (c :: (Text.squeeze l ++ t)) := ih [c] (.char hc)
        rw [Text.squeeze_cons hc]
        exact ⟨fun s hs => hs.append hrest, fun _ => hrest⟩
  exact hboth.1 s hs

end Tidy

end CaseAccessors
