import CaseAccessors.Proofs.Tiling

/-! Lines and columns. A token is said to stand where its first byte is, and what nothing closes
where it opens, as lines and columns are counted from the text in front. -/
namespace CaseAccessors

/-- Line and column of a byte offset, both from one: the line ends in front of it, and the
characters since the last of them. None past the end or inside a character. -/
def Text.lineColumn? (s : Text) (offset : Nat) : Option (Nat × Nat) :=
  (s.cutAt? offset).map fun (before, _) => (1 + before.count '\n', 1 + (lastLine before).length)

namespace Place

theorem advance_column (s : Text) : (start.advance s).column = 1 + (Text.lastLine s).length := by
  induction s using List.reverseRecOn with
  | nil => rfl
  | append_singleton s c ih =>
    rw [advance_append, show (start.advance s).advance [c] = (start.advance s).step c from rfl]
    by_cases hc : c = '\n'
    · rw [step, if_pos hc, hc, Text.lastLine_append_of_mem (by simp)]
      rfl
    · rw [step, if_neg hc, Text.lastLine_append_of_not_mem (by simpa using Ne.symm hc)]
      simp only [List.length_append, List.length_singleton, ih]
      omega

theorem lineColumn?_advance (before behind : Text) :
    (before ++ behind).lineColumn? before.byteSize =
      some ((start.advance before).line, (start.advance before).column) := by
  rw [Text.lineColumn?, Text.cutAt?_byteSize, advance_line, advance_column]
  rfl

end Place

/-- The text begins with what the fault is about: a string with its marks `#`, or a block comment
that no part of the text closes. -/
inductive Fault.OpensIn : Fault → Text → Prop where
  | string (hashes : Nat) (rest : Text) :
    OpensIn .unterminatedString (hashMarks hashes ++ '"' :: rest)
  | comment {s : Text} : ['/', '*'] <+: s → (∀ p, p <+: s → ¬Text.IsBlockComment p) →
      OpensIn .unterminatedComment s

theorem prefix_mark_iff {a b : Char} {p s : Text} :
    p <+: a :: b :: s ↔ p = [] ∨ p = [a] ∨ ∃ q, p = a :: b :: q ∧ q <+: s := by
  constructor
  · intro hp
    obtain rfl | ⟨t, rfl, ht⟩ := List.prefix_cons_iff.1 hp
    · exact .inl rfl
    obtain rfl | ⟨q, rfl, hq⟩ := List.prefix_cons_iff.1 ht
    · exact .inr (.inl rfl)
    · exact .inr (.inr ⟨q, rfl, hq⟩)
  · rintro (rfl | rfl | ⟨q, rfl, hq⟩)
    · exact List.nil_prefix
    · exact ⟨b :: s, rfl⟩
    · exact (List.prefix_append_right_inj [a, b]).2 hq

theorem commentClosings_le_of_afterComment {depth : Nat} {s : Text}
    (h : afterComment depth s = none) :
    ∀ p, p <+: s → Text.commentClosings p ≤ Text.commentOpenings p + depth := by
  have hsingle : ∀ c : Char, Text.commentClosings [c] = 0 := fun c => by
    rw [Text.commentClosings, commentMarks_cons (by simp [BeginsNoMark])]
    rfl
  fun_induction afterComment depth s with
  | case1 depth s ih =>
    intro p hp
    obtain rfl | rfl | ⟨q, rfl, hq⟩ := prefix_mark_iff.1 hp
    · exact Nat.zero_le _
    · exact hsingle '/' ▸ Nat.zero_le _
    have := ih h q hq
    rw [Text.commentClosings_opening, Text.commentOpenings_opening]
    omega
  | case2 => cases h
  | case3 depth s ih =>
    intro p hp
    obtain rfl | rfl | ⟨q, rfl, hq⟩ := prefix_mark_iff.1 hp
    · exact Nat.zero_le _
    · exact hsingle '*' ▸ Nat.zero_le _
    have := ih h q hq
    rw [Text.commentClosings_closing, Text.commentOpenings_closing]
    omega
  | case4 depth c s hopen hlast hclose ih =>
    have hmark : BeginsNoMark c s := by
      rintro d hd
      obtain ⟨t, rfl⟩ := List.head?_eq_some_iff.1 hd
      refine ⟨fun hmark => hopen t hmark.1 (hmark.2 ▸ rfl), fun hmark => ?_⟩
      cases depth with
      | zero => exact hlast t rfl hmark.1 (hmark.2 ▸ rfl)
      | succ depth => exact hclose depth t rfl hmark.1 (hmark.2 ▸ rfl)
    intro p hp
    obtain rfl | ⟨q, rfl, hq⟩ := List.prefix_cons_iff.1 hp
    · exact Nat.zero_le _
    rw [Text.commentClosings, Text.commentOpenings, commentMarks_cons (hmark.of_prefix hq)]
    exact ih h q hq
  | case5 =>
    intro p hp
    rw [List.prefix_nil.1 hp]
    exact Nat.zero_le _

theorem Fault.opensIn_comment {s : Text} (h : afterComment 0 s = none) :
    OpensIn .unterminatedComment ('/' :: '*' :: s) := by
  refine .comment ⟨s, rfl⟩ fun p hp hcomment => ?_
  obtain ⟨q, rfl⟩ := hcomment.opens
  have hle :=
    commentClosings_le_of_afterComment h q ((List.prefix_append_right_inj ['/', '*']).1 hp)
  have hbalanced := hcomment.balanced
  rw [List.cons_append, List.cons_append, List.nil_append, Text.commentClosings_opening,
    Text.commentOpenings_opening] at hbalanced
  omega

theorem Fault.opensIn_string {s inside : Text} {frame : Frame}
    (h : openQuote? s = some (frame, inside)) :
    OpensIn .unterminatedString s := by
  obtain ⟨hashes, multiline, -, hs, -⟩ := openQuote?_eq_some_iff.1 h
  obtain ⟨rest, hrest⟩ : ∃ rest, quoteMarks multiline = '"' :: rest := by
    cases multiline
    · exact ⟨_, rfl⟩
    · exact ⟨_, rfl⟩
  rw [hs, hrest]
  exact .string hashes (rest ++ inside)

def Frame.opening : Frame → Text
  | .quoted _ _ opening => opening
  | .interpolated _ opening => opening

/-- What nothing closes is a string that is open before the text, or one that opens in it. -/
def Unterminated.OpensAt (frames : List Frame) (s : Text) (u : Unterminated) : Prop :=
  u.fault = .unterminatedString ∧
    (u.opening ∈ frames.map Frame.opening ∨ u.opening <:+ s ∧ u.fault.OpensIn u.opening)

theorem Unterminated.OpensAt.suffix {frames : List Frame} {s t : Text} {u : Unterminated}
    (h : u.OpensAt frames s) (hs : s <:+ t) : u.OpensAt frames t :=
  ⟨h.1, h.2.imp_right fun ⟨hsuffix, hopens⟩ => ⟨hsuffix.trans hs, hopens⟩⟩

theorem Unterminated.OpensAt.of_nested {multiline : Bool} {parens : Nat}
    {opening inside rest : Text}
    {outer : List Frame} {u : Unterminated} (hs : inside <:+ '"' :: rest)
    (h :
      u.OpensAt (.quoted 0 multiline ('"' :: rest) :: .interpolated parens opening :: outer)
      inside) :
    u.OpensAt (.interpolated parens opening :: outer) ('"' :: rest) := by
  obtain ⟨hfault, hmem | ⟨hsuffix, hopens⟩⟩ := h
  · obtain hself | hmem := List.mem_cons.1 hmem
    · refine ⟨hfault, .inr ?_⟩
      rw [hfault, hself]
      exact ⟨List.suffix_refl _, .string 0 rest⟩
    · exact ⟨hfault, .inl hmem⟩
  · exact ⟨hfault, .inr ⟨hsuffix.trans hs, hopens⟩⟩

theorem opensAt_of_afterString {frames : List Frame} {s : Text} {u : Unterminated}
    (h : afterString frames s = .error u) : u.OpensAt frames s := by
  fun_induction afterString frames s with
  | case1 => cases h
  | case2 | case3 | case4 | case9 =>
    cases h
    exact ⟨rfl, .inl List.mem_cons_self⟩
  | case5 hashes multiline opening outer c rest _ inner ha ih =>
    have hinner := (ih h).suffix ((List.suffix_cons _ _).trans (after?_suffix ha))
    refine ⟨hinner.1, hinner.2.imp_left fun hmem => ?_⟩
    simpa [Frame.opening] using hmem
  | case6 hashes multiline opening outer c rest _ e inner ha _ ih =>
    exact (ih h).suffix ((List.suffix_cons _ _).trans (after?_suffix ha))
  | case7 hashes multiline opening outer c rest _ _ behind ha ih =>
    have hbehind := (ih h).suffix (after?_suffix ha)
    exact ⟨hbehind.1, hbehind.2.imp_left (List.mem_cons_of_mem _)⟩
  | case11 opening outer rest ih =>
    have hrest := (ih h).suffix (List.suffix_cons ')' rest)
    exact ⟨hrest.1, hrest.2.imp_left (List.mem_cons_of_mem _)⟩
  | case13 parens opening outer rest ih =>
    exact .of_nested ⟨['"', '"', '"'], rfl⟩ (ih h)
  | case14 parens opening outer rest _ ih =>
    exact .of_nested (List.suffix_cons '"' rest) (ih h)
  | case8 | case10 | case12 | case15 =>
    rename_i ih
    exact (ih h).suffix (List.suffix_cons _ _)

theorem opensIn_of_afterTrivia {s : Text} {u : Unterminated} (h : afterTrivia s = .error u) :
    u.opening <:+ s ∧ u.fault.OpensIn u.opening := by
  fun_induction afterTrivia s with
  | case1 rest ih =>
    obtain ⟨hsuffix, hopens⟩ := ih h
    exact ⟨hsuffix.trans ((List.dropWhile_suffix _).trans ⟨['/', '/'], rfl⟩), hopens⟩
  | case2 rest rest' hrest ih =>
    obtain ⟨hsuffix, hopens⟩ := ih h
    exact ⟨hsuffix.trans ((afterComment_suffix hrest).trans ⟨['/', '*'], rfl⟩), hopens⟩
  | case3 rest hrest =>
    cases h
    exact ⟨List.suffix_refl _, Fault.opensIn_comment hrest⟩
  | case4 c rest _ _ _ ih =>
    obtain ⟨hsuffix, hopens⟩ := ih h
    exact ⟨hsuffix.trans (List.suffix_cons c rest), hopens⟩
  | case5 | case6 => cases h

theorem opensIn_of_readToken {c : Char} {s : Text} {u : Unterminated}
    (h : readToken c s = .error u) :
    u.opening <:+ c :: s ∧ u.fault.OpensIn u.opening := by
  unfold readToken at h
  split at h
  · cases h
  split at h
  · cases h
  split at h
  · cases h
  split at h
  · next frame inside hopen =>
    obtain ⟨hashes, multiline, rfl, -, -⟩ := openQuote?_eq_some_iff.1 hopen
    cases hread : afterString [.quoted hashes multiline (c :: s)] inside with
    | ok rest =>
      rw [hread] at h
      cases h
    | error u' =>
      rw [hread] at h
      cases h
      obtain ⟨hfault, hmem | ⟨hsuffix, hopens⟩⟩ := opensAt_of_afterString hread
      · rw [List.map_singleton, List.mem_singleton] at hmem
        rw [hfault, hmem]
        exact ⟨List.suffix_refl _, Fault.opensIn_string hopen⟩
      · exact ⟨hsuffix.trans (openQuote?_suffix hopen), hopens⟩
  · split at h <;> cases h

theorem afterTrivia_suffix {s rest : Text} (h : afterTrivia s = .ok rest) : rest <:+ s := by
  obtain ⟨ps, rfl, -, -⟩ := Piece.exists_trivia h
  exact List.suffix_append _ _

theorem opensIn_of_lexemes {s : Text} {u : Unterminated} (h : lexemes s = .error u) :
    u.opening <:+ s ∧ u.fault.OpensIn u.opening := by
  fun_induction lexemes s with
  | case1 s u' ht =>
    cases h
    exact opensIn_of_afterTrivia ht
  | case2 => cases h
  | case3 s c behind ht u' hr =>
    cases h
    obtain ⟨hsuffix, hopens⟩ := opensIn_of_readToken hr
    exact ⟨hsuffix.trans (afterTrivia_suffix ht), hopens⟩
  | case4 s c behind ht kind rest hr ih =>
    cases hl : lexemes rest with
    | ok ls =>
      rw [hl] at h
      cases h
    | error u' =>
      rw [hl] at h
      cases h
      obtain ⟨hsuffix, hopens⟩ := ih hl
      exact ⟨hsuffix.trans
        ((readToken_suffix hr).trans ((List.suffix_cons c behind).trans (afterTrivia_suffix ht))),
        hopens⟩

theorem tokenize_eq_error_iff {s : Text} {e : SourceError} :
    tokenize s = .error e ↔ ∃ u before, lexemes s = .error u ∧ before ++ u.opening = s ∧
      e = .ofPlace u.fault (Place.start.advance before) := by
  rw [tokenize]
  cases hl : lexemes s with
  | ok ls => simp
  | error u =>
    obtain ⟨⟨before, rfl⟩, -⟩ := opensIn_of_lexemes hl
    simp [Text.upTo_append, eq_comm]

/-- Lines and columns are those of where a token begins, and of where a string or a comment opens
that nothing closes. -/
theorem tokenize_places (src : Text) :
    (∀ ts, tokenize src = .ok ts → ∀ t ∈ ts, ∃ before behind, src = before ++ (t.text ++ behind) ∧
      t.place.offset = Text.byteSize before ∧
      src.lineColumn? t.place.offset = some (t.place.line, t.place.column)) ∧
    ∀ e, tokenize src = .error e → ∃ before behind, src = before ++ behind ∧
      e.fault.OpensIn behind ∧
      src.lineColumn? (Text.byteSize before) = some (e.line, e.column) := by
  refine ⟨fun ts hts t ht => ?_, fun e he => ?_⟩
  · obtain ⟨ps, rfl, -, rfl⟩ := Piece.exists_of_tokenize hts
    obtain ⟨front, back, hsplit⟩ := List.append_of_mem ht
    obtain ⟨as, bs, rfl, -, hplace⟩ := Piece.exists_of_toTokens_eq hsplit
    have hoffset : t.place.offset = Text.byteSize (Piece.textOf as) := by
      rw [hplace, Place.advance_offset, Place.start, Nat.zero_add]
    refine ⟨Piece.textOf as, Piece.textOf bs, by simp [Piece.text], hoffset, ?_⟩
    rw [hoffset, hplace, Piece.textOf_append]
    exact Place.lineColumn?_advance _ _
  · obtain ⟨u, before, hl, rfl, rfl⟩ := tokenize_eq_error_iff.1 he
    exact ⟨before, u.opening, rfl, (opensIn_of_lexemes hl).2, Place.lineColumn?_advance _ _⟩

/-- Columns count characters, and a string in an interpolation is a string of its own. -/
example : tokenize "é\n \"é\\(f(\"x".toList = .error ⟨.unterminatedString, 2, 8⟩ ∧
    Text.lineColumn? "é\n \"é\\(f(\"x".toList 11 = some (2, 8) := by decide +kernel

end CaseAccessors
