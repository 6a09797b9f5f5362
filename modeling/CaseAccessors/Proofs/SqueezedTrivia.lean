import CaseAccessors.Proofs.Squeeze

/-! Blanks and comments whose blanks are squeezed. Block comments end where they ended before. A
line comment loses the line end behind it, so it goes on to the end of the text. -/
namespace CaseAccessors

def hasLineComment (s : Text) : Bool :=
  match s with
  | '/' :: '/' :: _ => true
  | '/' :: '*' :: rest =>
    match _h : afterComment 0 rest with
    | some rest => hasLineComment rest
    | none => false
  | c :: rest => isSpace c && hasLineComment rest
  | [] => false
termination_by s.length
decreasing_by
  · rename_i _h
    have := length_afterComment _h
    simp only [List.length_cons]; omega
  · simp

theorem Cut.squeeze {s t : Text} (h : Cut s t) (l : Text) : Cut (l ++ s) (l.squeeze ++ t) := by
  induction l with
  | nil => exact h
  | cons c l ih =>
    by_cases hc : isBlank c = true
    · have hhead := Text.head?_squeeze_of_blank (s := c :: l) hc
      refine .stop fun d hd => ?_
      obtain rfl : d = ' ' := by
        rw [List.head?_append, hhead] at hd
        exact (Option.some.inj hd).symm
      rfl
    · rw [Text.squeeze_cons (by simpa using hc)]
      exact .cons ih

theorem newline_notMem_squeeze (s : Text) : '\n' ∉ s.squeeze := fun h =>
  absurd (Text.eq_space_of_mem_squeeze h (by decide)) (by decide)

theorem Text.squeeze_mark_mark {c d : Char} (hc : isBlank c = false) (hd : isBlank d = false)
    (s : Text) :
    squeeze (c :: d :: s) = c :: d :: squeeze s := by
  rw [squeeze_cons hc, squeeze_cons hd]

theorem BeginsNoMark.squeeze {c : Char} {s : Text} (h : BeginsNoMark c s) (hs : s ≠ []) (t : Text) :
    BeginsNoMark c (s.squeeze ++ t) := by
  intro d hd
  by_cases hblank : s.head?.any isBlank = true
  · rw [List.head?_append, Text.head?_squeeze_of_blank hblank] at hd
    obtain rfl : ' ' = d := Option.some.inj hd
    simp
  · rw [List.head?_append, Text.head?_squeeze (by simpa using hblank)] at hd
    obtain ⟨e, u, rfl⟩ := List.exists_cons_of_ne_nil hs
    exact h d hd

theorem CommentBody.afterComment_squeeze {depth : Nat} {s : Text} (h : CommentBody depth s)
    (rest t : Text) :
    CaseAccessors.afterComment depth ((s ++ rest).squeeze ++ t) = some (rest.squeeze ++ t) := by
  induction h with
  | opening _ ih =>
    rw [List.cons_append, List.cons_append, Text.squeeze_mark_mark (by decide) (by decide)]
    exact ih
  | last =>
    rw [List.cons_append, List.cons_append, Text.squeeze_mark_mark (by decide) (by decide)]
    rfl
  | closing _ ih =>
    rw [List.cons_append, List.cons_append, Text.squeeze_mark_mark (by decide) (by decide)]
    exact ih
  | @char depth c s hc hs ih =>
    rw [List.cons_append]
    by_cases hblank : isBlank c = true
    · by_cases hnext : (s ++ rest).head?.any isBlank = true
      · rw [Text.squeeze_blank_blank hblank hnext]
        exact ih
      · rw [Text.squeeze_blank hblank (by simpa using hnext), List.cons_append,
          afterComment_cons (by simp [BeginsNoMark])]
        exact ih
    · have hnone : s ++ rest ≠ [] := List.append_ne_nil_of_left_ne_nil hs.ne_nil rest
      rw [Text.squeeze_cons (by simpa using hblank), List.cons_append,
        afterComment_cons ((hc.append hs.ne_nil rest).squeeze hnone t)]
      exact ih

theorem afterComment_squeeze {depth : Nat} {s rest : Text} (h : afterComment depth s = some rest)
    (t : Text) : afterComment depth (s.squeeze ++ t) = some (rest.squeeze ++ t) := by
  obtain ⟨u, rfl⟩ := afterComment_suffix h
  exact (CommentBody.of_afterComment h).afterComment_squeeze rest t

theorem afterTrivia_comment {s rest : Text} (h : afterComment 0 s = some rest) :
    afterTrivia ('/' :: '*' :: s) = afterTrivia rest := by
  obtain ⟨u, rfl⟩ := afterComment_suffix h
  exact afterTrivia_block h

theorem hasLineComment_comment {s rest : Text} (h : afterComment 0 s = some rest) :
    hasLineComment ('/' :: '*' :: s) = hasLineComment rest := by
  rw [hasLineComment]
  split
  · next h' =>
    rw [h] at h'
    cases h'
    rfl
  · next h' =>
    rw [h] at h'
    cases h'

theorem hasLineComment_blank {c : Char} (hc : isSpace c = true) (s : Text) :
    hasLineComment (c :: s) = hasLineComment s := by
  have hslash : c ≠ '/' := by
    rintro rfl
    cases hc
  rw [hasLineComment, hc, Bool.true_and]
  · rintro _ rfl
    exact absurd rfl hslash
  · rintro _ rfl
    exact absurd rfl hslash

theorem afterTrivia_squeeze_blank {c : Char} (hc : isSpace c = true) (s t : Text) :
    afterTrivia (Text.squeeze (c :: s) ++ t) = afterTrivia (s.squeeze ++ t) := by
  by_cases hs : s.head?.any isBlank = true
  · rw [Text.squeeze_blank_blank (isBlank_of_isSpace hc) hs]
  · rw [Text.squeeze_blank (isBlank_of_isSpace hc) (by simpa using hs), List.cons_append,
      afterTrivia_blank (by decide)]

/-- Without line comments nothing but what follows is left of blanks and comments. -/
theorem afterTrivia_squeeze {s : Text} (hs : afterTrivia s = .ok [])
    (hline : hasLineComment s = false)
    (t : Text) : afterTrivia (s.squeeze ++ t) = afterTrivia t := by
  fun_induction afterTrivia s with
  | case1 r => simp [hasLineComment] at hline
  | case2 r r' hr ih =>
    rw [hasLineComment_comment hr] at hline
    rw [Text.squeeze_mark_mark (by decide) (by decide), List.cons_append, List.cons_append,
      afterTrivia_comment (afterComment_squeeze hr t)]
    exact ih hs hline
  | case3 => cases hs
  | case4 c r _ _ hc ih =>
    rw [hasLineComment_blank hc] at hline
    rw [afterTrivia_squeeze_blank hc]
    exact ih hs hline
  | case5 => cases hs
  | case6 => rfl

/-- A line comment hides what follows, as long as no line ends there. -/
theorem afterTrivia_squeeze_line {s t : Text} (hs : afterTrivia s = .ok [])
    (hline : hasLineComment s = true) (ht : '\n' ∉ t) : afterTrivia (s.squeeze ++ t) = .ok [] := by
  fun_induction afterTrivia s with
  | case1 r =>
    have hdrop : (Text.squeeze r ++ t).dropWhile (· != '\n') = [] := by
      rw [List.dropWhile_eq_nil_iff]
      intro c hc
      have hmem : '\n' ∉ Text.squeeze r ++ t := by
        rw [List.mem_append]
        exact not_or.2 ⟨newline_notMem_squeeze r, ht⟩
      simpa using ne_of_mem_of_not_mem hc hmem
    rw [Text.squeeze_mark_mark (by decide) (by decide), List.cons_append, List.cons_append,
      afterTrivia, hdrop, afterTrivia]
  | case2 r r' hr ih =>
    rw [hasLineComment_comment hr] at hline
    rw [Text.squeeze_mark_mark (by decide) (by decide), List.cons_append, List.cons_append,
      afterTrivia_comment (afterComment_squeeze hr t)]
    exact ih hs hline
  | case3 => cases hs
  | case4 c r _ _ hc ih =>
    rw [hasLineComment_blank hc] at hline
    rw [afterTrivia_squeeze_blank hc]
    exact ih hs hline
  | case5 => cases hs
  | case6 => simp [hasLineComment] at hline

theorem exists_of_afterTrivia {s rest : Text} (h : afterTrivia s = .ok rest) :
    ∃ lead, s = lead ++ rest ∧ afterTrivia lead = .ok [] := by
  fun_induction afterTrivia s with
  | case1 r ih =>
    obtain ⟨lead, hdrop, hlead⟩ := ih h
    have hline : '\n' ∉ r.takeWhile (· != '\n') := fun hm => by
      simpa using List.all_eq_true.1 List.all_takeWhile _ hm
    have hbehind : ∀ c ∈ lead.head?, c = '\n' := fun c hc => by
      obtain ⟨u, rfl⟩ := List.head?_eq_some_iff.1 hc
      have := List.head?_dropWhile_not (· != '\n') r
      rw [hdrop] at this
      simpa using this
    refine ⟨'/' :: '/' :: (r.takeWhile (· != '\n') ++ lead), ?_, ?_⟩
    · rw [List.cons_append, List.cons_append, List.append_assoc, ← hdrop,
        List.takeWhile_append_dropWhile]
    · rw [afterTrivia_line hline hbehind, hlead]
  | case2 r r' hr ih =>
    obtain ⟨lead, rfl, hlead⟩ := ih h
    obtain ⟨u, rfl⟩ := afterComment_suffix hr
    refine ⟨'/' :: '*' :: (u ++ lead), by simp, ?_⟩
    rw [afterTrivia_block (afterComment_congr hr lead), hlead]
  | case3 => cases h
  | case4 c r _ _ hc ih =>
    obtain ⟨lead, rfl, hlead⟩ := ih h
    refine ⟨c :: lead, rfl, ?_⟩
    rw [afterTrivia_blank hc, hlead]
  | case5 =>
    cases h
    exact ⟨[], rfl, by rw [afterTrivia]⟩
  | case6 =>
    cases h
    exact ⟨[], rfl, by rw [afterTrivia]⟩

end CaseAccessors
