import CaseAccessors.Proofs.Piece

/-! A string literal ends by its own characters: no text behind it changes where reading stops. The
one exception is the empty literal, which a third quotation mark opens anew. -/
namespace CaseAccessors

namespace Frame

/-- The frame without its memory of where it was opened. -/
def bare : Frame → Frame
  | .quoted hashes multiline _ => .quoted hashes multiline []
  | .interpolated parens _ => .interpolated parens []

def minLength : Frame → Nat
  | .quoted hashes multiline _ => (closingQuote hashes multiline).length
  | .interpolated .. => 1

def minLengths : List Frame → Nat
  | [] => 0
  | frame :: outer => frame.minLength + minLengths outer

end Frame

theorem minLengths_le_of_afterString {frames : List Frame} {s rest : Text}
    (h : afterString frames s = .ok rest) :
    rest.length + Frame.minLengths frames ≤ s.length := by
  fun_induction afterString frames s with
  | case1 => cases h; exact Nat.le_refl _
  | case2 | case3 | case4 | case9 => cases h
  | case5 hashes multiline opening outer c r _ inner ha ih =>
    have hl := congrArg List.length (Text.after?_eq_some_iff.1 ha)
    have := ih h
    simp only [Frame.minLengths, Frame.minLength, List.length_append,
      List.length_cons] at *
    omega
  | case6 hashes multiline opening outer c r _ e inner ha _ ih =>
    have hl := congrArg List.length (Text.after?_eq_some_iff.1 ha)
    have := ih h
    simp only [Frame.minLengths, Frame.minLength, List.length_append,
      List.length_cons] at *
    omega
  | case7 hashes multiline opening outer c r _ _ behind ha ih =>
    have hl := congrArg List.length (Text.after?_eq_some_iff.1 ha)
    have := ih h
    simp only [Frame.minLengths, Frame.minLength, List.length_append] at *
    omega
  | _ =>
    rename_i ih
    have := ih h
    simp only [Frame.minLengths, Frame.minLength, List.length_cons] at *
    omega

theorem length_escapeMark_le (hashes : Nat) (multiline : Bool) :
    (escapeMark hashes).length ≤ (closingQuote hashes multiline).length := by
  simp [escapeMark, closingQuote]

/-- A mark that is not at the front of `s ++ t` is not at the front of `s ++ t'` either, as long as
`s` is as long as the mark. -/
theorem after?_eq_none_congr {p s t : Text} (hp : p.length ≤ s.length)
    (h : Text.after? p (s ++ t) = none) (t' : Text) : Text.after? p (s ++ t') = none := by
  rw [Option.eq_none_iff_forall_ne_some] at h ⊢
  intro r hr
  obtain ⟨u, rfl⟩ : p <+: s :=
    List.prefix_of_prefix_length_le ⟨r, (Text.after?_eq_some_iff.1 hr).symm⟩
      (List.prefix_append s t') hp
  exact h (u ++ t) (Text.after?_eq_some_iff.2 (List.append_assoc ..))

theorem after?_append {p s t r : Text} (h : Text.after? p (s ++ t) = some (r ++ t)) :
    s = p ++ r := by
  have := Text.after?_eq_some_iff.1 h
  rwa [← List.append_assoc, List.append_cancel_right_eq] at this

theorem afterString_quoted (hashes : Nat) (multiline : Bool) (opening : Text) (outer : List Frame)
    (c : Char) (rest : Text) :
    afterString (.quoted hashes multiline opening :: outer) (c :: rest) =
      if c = '\n' ∧ multiline = false then .error ⟨.unterminatedString, opening⟩
      else
        match Text.after? (escapeMark hashes) (c :: rest) with
        | some [] => .error ⟨.unterminatedString, opening⟩
        | some (e :: inner) =>
          if e = '(' then
            afterString (.interpolated 0 opening :: .quoted hashes multiline opening :: outer) inner
          else afterString (.quoted hashes multiline opening :: outer) inner
        | none =>
          match Text.after? (closingQuote hashes multiline) (c :: rest) with
          | some behind => afterString outer behind
          | none => afterString (.quoted hashes multiline opening :: outer) rest := by
  rw [afterString]
  by_cases hc : c = '\n' ∧ multiline = false
  · rw [if_pos hc, if_pos hc]
  rw [if_neg hc, if_neg hc]
  split
  · next h => rw [h]
  · next h => rw [h]
  · next h =>
    rw [h]
    split
    · next h => rw [h]
    · next h => rw [h]

theorem afterString_escape (hashes : Nat) (multiline : Bool) (opening : Text)
    (outer : List Frame) (e : Char) (inner : Text) :
    afterString (.quoted hashes multiline opening :: outer) (escapeMark hashes ++ e :: inner) =
      if e = '(' then
        afterString (.interpolated 0 opening :: .quoted hashes multiline opening :: outer) inner
      else afterString (.quoted hashes multiline opening :: outer) inner := by
  have ha : Text.after? (escapeMark hashes) (escapeMark hashes ++ e :: inner) = some (e :: inner) :=
    Text.after?_eq_some_iff.2 rfl
  rw [show escapeMark hashes ++ e :: inner = '\\' :: (hashMarks hashes ++ e :: inner) from rfl]
    at ha ⊢
  rw [afterString_quoted, if_neg (by simp), ha]

theorem afterString_close (hashes : Nat) (multiline : Bool) (opening : Text) (outer : List Frame)
    (behind : Text) :
    afterString (.quoted hashes multiline opening :: outer)
      (closingQuote hashes multiline ++ behind) = afterString outer behind := by
  have ha : Text.after? (closingQuote hashes multiline) (closingQuote hashes multiline ++ behind) =
      some behind := Text.after?_eq_some_iff.2 rfl
  rw [closingQuote, List.cons_append] at ha ⊢
  rw [afterString_quoted, if_neg (by simp)]
  simp only [escapeMark, Text.after?, Char.reduceEq, if_false, closingQuote, ha]

theorem afterString_skip {hashes : Nat} {multiline : Bool} {c : Char} {rest : Text}
    (hc : ¬(c = '\n' ∧ multiline = false)) (he : Text.after? (escapeMark hashes) (c :: rest) = none)
    (hq : Text.after? (closingQuote hashes multiline) (c :: rest) = none) (opening : Text)
    (outer : List Frame) :
    afterString (.quoted hashes multiline opening :: outer) (c :: rest) =
      afterString (.quoted hashes multiline opening :: outer) rest := by
  rw [afterString_quoted, if_neg hc, he, hq]

theorem Frame.exists_quoted {frames : List Frame} {outer : List Frame} {hashes : Nat}
    {multiline : Bool} {opening : Text}
    (h : (Frame.quoted hashes multiline opening :: outer).map Frame.bare = frames.map Frame.bare) :
    ∃ opening' outer', frames = .quoted hashes multiline opening' :: outer' ∧
      outer.map Frame.bare = outer'.map Frame.bare := by
  cases frames with
  | nil => cases h
  | cons f outer' =>
    obtain ⟨hf, ho⟩ := List.cons.inj h
    cases f with
    | quoted => cases hf; exact ⟨_, _, rfl, ho⟩
    | interpolated => cases hf

theorem Frame.exists_interpolated {frames : List Frame} {outer : List Frame} {parens : Nat}
    {opening : Text}
    (h : (Frame.interpolated parens opening :: outer).map Frame.bare = frames.map Frame.bare) :
    ∃ opening' outer', frames = .interpolated parens opening' :: outer' ∧
      outer.map Frame.bare = outer'.map Frame.bare := by
  cases frames with
  | nil => cases h
  | cons f outer' =>
    obtain ⟨hf, ho⟩ := List.cons.inj h
    cases f with
    | quoted => cases hf
    | interpolated => cases hf; exact ⟨_, _, rfl, ho⟩

theorem exists_cons_cons {s : Text} (h : 2 ≤ s.length) : ∃ a b t, s = a :: b :: t := by
  cases s with
  | nil => cases h
  | cons a s =>
    cases s with
    | nil => simp at h
    | cons b t => exact ⟨a, b, t, rfl⟩

theorem afterString_congr {frames frames' : List Frame} {u r : Text}
    (h : afterString frames (u ++ r) = .ok r)
    (hframes : frames.map Frame.bare = frames'.map Frame.bare) (r' : Text) :
    afterString frames' (u ++ r') = .ok r' := by
  generalize hs : u ++ r = s at h
  fun_induction afterString frames s generalizing frames' u with
  | case1 s =>
    cases h
    obtain rfl : u = [] := by simpa using hs
    obtain rfl : frames' = [] := by simpa using hframes.symm
    rw [List.nil_append, afterString]
  | case2 | case3 | case4 | case9 => cases h
  | case5 hashes multiline opening outer c rest hc inner ha ih =>
    obtain ⟨opening', outer', rfl, ho⟩ := Frame.exists_quoted hframes
    obtain ⟨v, rfl⟩ := afterString_suffix h
    rw [← hs, ← List.cons_append] at ha
    obtain rfl := after?_append ha
    rw [List.append_assoc, List.cons_append, afterString_escape, if_pos rfl]
    exact ih (by simpa [Frame.bare] using ho) rfl h
  | case6 hashes multiline opening outer c rest hc e inner ha he ih =>
    obtain ⟨opening', outer', rfl, ho⟩ := Frame.exists_quoted hframes
    obtain ⟨v, rfl⟩ := afterString_suffix h
    rw [← hs, ← List.cons_append] at ha
    obtain rfl := after?_append ha
    rw [List.append_assoc, List.cons_append, afterString_escape, if_neg he]
    exact ih (by simpa [Frame.bare] using ho) rfl h
  | case7 hashes multiline opening outer c rest hc _ behind ha ih =>
    obtain ⟨opening', outer', rfl, ho⟩ := Frame.exists_quoted hframes
    obtain ⟨v, rfl⟩ := afterString_suffix h
    rw [← hs] at ha
    obtain rfl := after?_append ha
    rw [List.append_assoc, afterString_close]
    exact ih ho rfl h
  | case8 hashes multiline opening outer c rest hc he hq ih =>
    obtain ⟨opening', outer', rfl, ho⟩ := Frame.exists_quoted hframes
    obtain ⟨v, rfl⟩ := afterString_suffix h
    obtain rfl : u = c :: v := List.append_cancel_right hs
    have hlen := minLengths_le_of_afterString h
    have hmark := length_escapeMark_le hashes multiline
    simp only [Frame.minLengths, Frame.minLength, List.length_append] at hlen
    have hclosing : (closingQuote hashes multiline).length ≤ (c :: v).length := by
      simp only [List.length_cons]; omega
    have he' : Text.after? (escapeMark hashes) (c :: (v ++ r')) = none :=
      after?_eq_none_congr (s := c :: v) (Nat.le_trans hmark hclosing) he r'
    have hq' : Text.after? (closingQuote hashes multiline) (c :: (v ++ r')) = none :=
      after?_eq_none_congr (s := c :: v) hclosing hq r'
    rw [List.cons_append, afterString_skip hc he' hq']
    exact ih hframes rfl h
  | case10 parens opening outer rest ih =>
    obtain ⟨opening', outer', rfl, ho⟩ := Frame.exists_interpolated hframes
    obtain ⟨v, rfl⟩ := afterString_suffix h
    obtain rfl : u = '(' :: v := List.append_cancel_right hs
    rw [List.cons_append, afterString]
    refine ih ?_ rfl h
    simpa [Frame.bare] using ho
  | case11 opening outer rest ih =>
    obtain ⟨opening', outer', rfl, ho⟩ := Frame.exists_interpolated hframes
    obtain ⟨v, rfl⟩ := afterString_suffix h
    obtain rfl : u = ')' :: v := List.append_cancel_right hs
    rw [List.cons_append, afterString]
    exact ih ho rfl h
  | case12 opening outer rest parens ih =>
    obtain ⟨opening', outer', rfl, ho⟩ := Frame.exists_interpolated hframes
    obtain ⟨v, rfl⟩ := afterString_suffix h
    obtain rfl : u = ')' :: v := List.append_cancel_right hs
    rw [List.cons_append, afterString]
    refine ih ?_ rfl h
    simpa [Frame.bare] using ho
  | case13 parens opening outer rest ih =>
    obtain ⟨opening', outer', rfl, ho⟩ := Frame.exists_interpolated hframes
    obtain ⟨v, rfl⟩ := afterString_suffix h
    obtain rfl : u = '"' :: '"' :: '"' :: v := List.append_cancel_right hs
    simp only [List.cons_append]
    rw [afterString]
    refine ih ?_ rfl h
    simpa [Frame.bare] using ho
  | case14 parens opening outer rest hsingle ih =>
    obtain ⟨opening', outer', rfl, ho⟩ := Frame.exists_interpolated hframes
    obtain ⟨v, rfl⟩ := afterString_suffix h
    obtain rfl : u = '"' :: v := List.append_cancel_right hs
    have hlen := minLengths_le_of_afterString h
    simp only [Frame.minLengths, Frame.minLength, List.length_append, closingQuote,
      List.length_cons] at hlen
    -- both characters that could open a multi-line string stand before the end of the literal
    obtain ⟨a, b, w, rfl⟩ := exists_cons_cons (s := v) (by omega)
    simp only [List.cons_append] at hsingle ⊢
    rw [afterString]
    · refine ih ?_ rfl h
      simpa [Frame.bare] using ho
    · intro w' heq
      cases heq
      exact hsingle _ rfl
  | case15 parens opening outer c rest hopen hclose hmulti hquote ih =>
    obtain ⟨opening', outer', rfl, ho⟩ := Frame.exists_interpolated hframes
    obtain ⟨v, rfl⟩ := afterString_suffix h
    obtain rfl : u = c :: v := List.append_cancel_right hs
    rw [List.cons_append, afterString]
    · exact ih hframes rfl h
    · exact hopen
    · exact hclose
    · exact fun _ hc _ => hquote hc
    · exact hquote

theorem Frame.getLast?_interpolated {parens : Nat} {opening : Text} {outer : List Frame}
    {hashes : Nat} {multiline : Bool} {first : Text}
    (h : (Frame.interpolated parens opening :: outer).getLast? =
      some (.quoted hashes multiline first)) :
    outer.getLast? = some (.quoted hashes multiline first) := by
  cases outer with
  | nil => simp at h
  | cons f outer => rwa [List.getLast?_cons_cons] at h

theorem Frame.getLast?_cons_of_quoted {f : Frame} {outer : List Frame} {hashes : Nat}
    {multiline : Bool} {first : Text} (h : outer.getLast? = some (.quoted hashes multiline first)) :
    (f :: outer).getLast? = some (.quoted hashes multiline first) := by
  simp [List.getLast?_cons, h]

/-- A literal ends with the closing mark of its outermost string. -/
theorem closingQuote_suffix_of_afterString {frames : List Frame} {hashes : Nat} {multiline : Bool}
    {first s r : Text} (hlast : frames.getLast? = some (.quoted hashes multiline first))
    (h : afterString frames s = .ok r) : closingQuote hashes multiline ++ r <:+ s := by
  fun_induction afterString frames s with
  | case1 => cases hlast
  | case2 | case3 | case4 | case9 => cases h
  | case5 hashes' multiline' opening outer c rest hc inner ha ih =>
    exact (ih (Frame.getLast?_cons_of_quoted hlast) h).trans
      ((List.suffix_cons _ _).trans (after?_suffix ha))
  | case6 hashes' multiline' opening outer c rest hc e inner ha he ih =>
    exact (ih hlast h).trans ((List.suffix_cons _ _).trans (after?_suffix ha))
  | case7 hashes' multiline' opening outer c rest hc _ behind ha ih =>
    cases outer with
    | nil =>
      rw [afterString] at h
      cases h
      cases hlast
      exact ⟨[], (Text.after?_eq_some_iff.1 ha).symm⟩
    | cons f outer =>
      rw [List.getLast?_cons_cons] at hlast
      exact (ih hlast h).trans (after?_suffix ha)
  | case8 hashes' multiline' opening outer c rest hc he hq ih =>
    exact (ih hlast h).trans (List.suffix_cons _ _)
  | case10 parens opening outer rest ih =>
    exact (ih (Frame.getLast?_cons_of_quoted (Frame.getLast?_interpolated hlast)) h).trans
      (List.suffix_cons _ _)
  | case11 opening outer rest ih =>
    exact (ih (Frame.getLast?_interpolated hlast) h).trans (List.suffix_cons _ _)
  | case12 opening outer rest parens ih =>
    exact (ih (Frame.getLast?_cons_of_quoted (Frame.getLast?_interpolated hlast)) h).trans
      (List.suffix_cons _ _)
  | case13 parens opening outer rest ih =>
    exact (ih (Frame.getLast?_cons_of_quoted hlast) h).trans ⟨['"', '"', '"'], rfl⟩
  | case14 parens opening outer rest hsingle ih =>
    exact (ih (Frame.getLast?_cons_of_quoted hlast) h).trans (List.suffix_cons _ _)
  | case15 parens opening outer c rest hopen hclose hmulti hquote ih =>
    exact (ih hlast h).trans (List.suffix_cons _ _)

end CaseAccessors
