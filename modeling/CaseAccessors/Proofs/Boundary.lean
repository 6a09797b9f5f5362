import CaseAccessors.Layout
import CaseAccessors.Proofs.Seam
import Mathlib.Data.List.Induction

/-! How pieces end, and from that where lines begin and end between pieces: a line that holds
nothing but blanks begins with a piece, and the indentation in front of a token consists of pieces.
-/
namespace CaseAccessors

theorem getLast?_of_suffix {s t : Text} {P : Char → Prop} (hs : s <:+ t) (hne : s ≠ [])
    (h : ∀ a ∈ s, P a) : ∃ a, t.getLast? = some a ∧ P a := by
  obtain ⟨u, rfl⟩ := hs
  refine ⟨s.getLast hne, ?_, h _ (List.getLast_mem hne)⟩
  rw [List.getLast?_append, List.getLast?_eq_some_getLast hne, Option.some_or]

theorem IsString.closing_suffix {s : Text} (h : IsString s) :
    ∃ hashes multiline, closingQuote hashes multiline <:+ s := by
  obtain ⟨frame, inside, hopen, hread⟩ := h
  obtain ⟨hashes, multiline, rfl, -, -⟩ := openQuote?_eq_some_iff.1 hopen
  refine ⟨hashes, multiline, .trans ?_ (openQuote?_suffix hopen)⟩
  simpa using closingQuote_suffix_of_afterString rfl hread

theorem mem_closingQuote {hashes : Nat} {multiline : Bool} {a : Char}
    (h : a ∈ closingQuote hashes multiline) : a = '"' ∨ a = '#' := by
  cases multiline <;> simp only [closingQuote, hashMarks, List.mem_cons, List.mem_append,
    List.mem_replicate] at h <;> grind

theorem numeric_of_afterNumber {s rest : Text} (h : afterNumber (s ++ rest) = rest) :
    ∀ a ∈ s, a.isAlphanum = true ∨ a = '_' ∨ a = '.' := by
  induction s with
  | nil => simp
  | cons c s ih =>
    obtain ⟨hc, hs⟩ := numberGoesOn_of_afterNumber h
    rintro a (_ | ⟨_, ha⟩)
    · simp only [numberGoesOn, Bool.or_eq_true, Bool.and_eq_true, beq_iff_eq] at hc
      grind
    · exact ih hs a ha

namespace Piece

/-- The last character is no blank for lexing, nor any blank if the piece goes over a line end. -/
def EndsFirmly (p : Piece) : Prop :=
  ∃ c, p.text.getLast? = some c ∧ isSpace c = false ∧ ('\n' ∈ p.text → isBlank c = false)

theorem EndsFirmly.of_forall {p : Piece} (hne : p.text ≠ [])
    (h : ∀ c ∈ p.text, isSpace c = false) : p.EndsFirmly := by
  obtain ⟨c, hc, hspace⟩ := getLast?_of_suffix (List.suffix_refl _) hne h
  exact ⟨c, hc, hspace, fun hn => absurd (h _ hn) (by decide)⟩

theorem EndsFirmly.of_suffix {p : Piece} {s : Text} (hs : s <:+ p.text) (hne : s ≠ [])
    (h : ∀ c ∈ s, isSpace c = false ∧ isBlank c = false) : p.EndsFirmly := by
  obtain ⟨c, hc, hspace, hblank⟩ := getLast?_of_suffix hs hne h
  exact ⟨c, hc, hspace, fun _ => hblank⟩

theorem ending_of_tokenForm {rest t : Text} {kind : Kind} (h : TokenForm rest kind t)
    (hstart : ∀ c ∈ t.head?, isSpace c = false) :
    ('\n' ∉ t ∧ ∀ c ∈ rest.head?, c = '\n') ∨ (token kind t).EndsFirmly := by
  have hident : ∀ a, isIdentPart a = true → isSpace a = false := fun a ha => by
    rw [isIdentPart_iff] at ha
    rw [Bool.eq_false_iff, ne_eq, isSpace_iff]
    omega
  cases h with
  | @word c s hc hs =>
    have hpart : isIdentPart c = true := by simp [isIdentPart, hc]
    refine .inr (.of_forall (List.cons_ne_nil _ _) ?_)
    rintro a (_ | ⟨_, ha⟩)
    · exact hident c hpart
    · exact hident a (hs a ha)
  | @quotedWord s hs =>
    refine .inr (.of_suffix (s := ['`']) ⟨'`' :: s, rfl⟩ (by simp) ?_)
    rintro a (_ | ⟨_, ⟨⟩⟩)
    decide
  | openWord hs hr =>
    refine .inl ⟨?_, hr⟩
    rintro (_ | ⟨_, hn⟩)
    exact (hs _ hn).2 rfl
  | @number c s hc hs =>
    refine .inr (.of_forall (List.cons_ne_nil _ _) ?_)
    rintro a (_ | ⟨_, ha⟩)
    · exact hstart c rfl
    · obtain halnum | rfl | rfl := numeric_of_afterNumber hs a ha
      · rw [Char.isAlphanum, Bool.or_eq_true, isAlpha_iff, isDigit_iff] at halnum
        rw [Bool.eq_false_iff, ne_eq, isSpace_iff]
        omega
      · decide
      · decide
  | string hs =>
    obtain ⟨hashes, multiline, hsuffix⟩ := hs.closing_suffix
    refine .inr (.of_suffix hsuffix (by simp [closingQuote]) fun a ha => ?_)
    obtain rfl | rfl := mem_closingQuote ha <;> decide
  | arrow =>
    refine .inr (.of_forall (List.cons_ne_nil _ _) ?_)
    rintro a (_ | ⟨_, _ | ⟨_, ⟨⟩⟩⟩) <;> decide
  | mark =>
    refine .inr (.of_forall (List.cons_ne_nil _ _) ?_)
    rintro a (_ | ⟨_, ⟨⟩⟩)
    exact hstart _ rfl

theorem Stands.text_ne_nil {p : Piece} {rest : Text} (h : p.Stands rest) : p.text ≠ [] := by
  cases h <;> simp [text]

/-- Only a blank, and what goes on up to the end of its line, can end with a blank. -/
theorem Stands.ending {p : Piece} {rest : Text} (h : p.Stands rest) :
    (∃ c, p = .blank c ∧ isSpace c = true) ∨
      ('\n' ∉ p.text ∧ ∀ c ∈ rest.head?, c = '\n') ∨ p.EndsFirmly := by
  cases h with
  | blank hc => exact .inl ⟨_, rfl, hc⟩
  | line hs hr => exact .inr (.inl ⟨by simpa [text] using hs, hr⟩)
  | @block s _ hs =>
    obtain ⟨u, rfl⟩ := (CommentBody.of_afterComment hs).suffix
    refine .inr (.inr (.of_suffix (s := ['*', '/']) ⟨'/' :: '*' :: u, rfl⟩ (by simp) ?_))
    rintro a (_ | ⟨_, _ | ⟨_, ⟨⟩⟩⟩) <;> decide
  | token hstart hread =>
    refine .inr (ending_of_tokenForm (TokenForm.of_readToken hread) ?_)
    rintro _ ⟨⟩
    exact hstart.1

end Piece

namespace Text

theorem isIndent_iff {c : Char} : isIndent c = true ↔ c = ' ' ∨ c = '\t' := by
  simp [isIndent]

theorem isBlank_of_isIndent {c : Char} (h : isIndent c = true) : isBlank c = true := by
  obtain rfl | rfl := isIndent_iff.1 h <;> rfl

theorem isSpace_of_isIndent {c : Char} (h : isIndent c = true) : isSpace c = true := by
  obtain rfl | rfl := isIndent_iff.1 h <;> rfl

theorem lastLine_append_of_mem {s t : Text} (h : '\n' ∈ t) : lastLine (s ++ t) = lastLine t := by
  have hshort : (t.reverse.takeWhile (· != '\n')).length ≠ t.reverse.length := fun hlen => by
    have hall := List.all_takeWhile (p := (· != '\n')) (l := t.reverse)
    rw [(List.takeWhile_prefix _).eq_of_length hlen, List.all_eq_true] at hall
    simpa using hall '\n' (List.mem_reverse.2 h)
  rw [lastLine, List.reverse_append, List.takeWhile_append, if_neg hshort, lastLine]

theorem lastLine_append_of_not_mem {s t : Text} (h : '\n' ∉ t) :
    lastLine (s ++ t) = lastLine s ++ t := by
  rw [lastLine, List.reverse_append, List.takeWhile_append_of_pos, List.reverse_append,
    List.reverse_reverse, lastLine]
  intro a ha
  simpa using ne_of_mem_of_not_mem (List.mem_reverse.1 ha) h

theorem getLast_mem_lastLine {s : Text} {c : Char} (h : s.getLast? = some c) (hc : c ≠ '\n') :
    c ∈ lastLine s := by
  rw [List.getLast?_eq_head?_reverse] at h
  obtain ⟨t, ht⟩ := List.head?_eq_some_iff.1 h
  rw [lastLine, ht, List.takeWhile_cons_of_pos (by simpa using hc), List.mem_reverse]
  exact List.mem_cons_self

theorem dropIndentEnd_append_of_isIndent {c : Char} (hc : isIndent c = true) (s : Text) :
    dropIndentEnd (s ++ [c]) = dropIndentEnd s := by
  rw [dropIndentEnd, List.reverse_append, List.reverse_singleton, List.singleton_append,
    List.dropWhile_cons_of_pos hc, dropIndentEnd]

theorem dropIndentEnd_append_of_getLast? {t : Text} {c : Char} (h : t.getLast? = some c)
    (hc : isIndent c = false) (s : Text) : dropIndentEnd (s ++ t) = s ++ t := by
  rw [List.getLast?_eq_head?_reverse] at h
  obtain ⟨u, hu⟩ := List.head?_eq_some_iff.1 h
  rw [dropIndentEnd, List.reverse_append, hu, List.cons_append,
    List.dropWhile_cons_of_neg (by simp [hc]), ← List.cons_append, ← hu, ← List.reverse_append,
    List.reverse_reverse]

end Text

namespace Layout

theorem beforeLastLine_append_lastLine (s : Text) : beforeLastLine s ++ Text.lastLine s = s := by
  have hsuffix : Text.lastLine s <:+ s := by
    rw [← List.reverse_prefix, Text.lastLine, List.reverse_reverse]
    exact List.takeWhile_prefix _
  obtain ⟨u, hu⟩ := hsuffix
  have hlen := congrArg List.length hu
  rw [List.length_append] at hlen
  have htake : beforeLastLine s = u := by
    rw [beforeLastLine, show s.length - (Text.lastLine s).length = u.length by omega]
    exact (List.prefix_iff_eq_take.1 ⟨_, hu⟩).symm
  rw [htake, hu]

theorem getLast?_beforeLastLine (s : Text) : ∀ c ∈ (beforeLastLine s).getLast?, c = '\n' := by
  have hdrop : beforeLastLine s = (s.reverse.dropWhile (· != '\n')).reverse := by
    have h :=
      congrArg List.reverse (List.takeWhile_append_dropWhile (p := (· != '\n')) (l := s.reverse))
    rw [List.reverse_append, List.reverse_reverse] at h
    exact List.append_cancel_right ((beforeLastLine_append_lastLine s).trans h.symm)
  intro c hc
  have hhead := List.head?_dropWhile_not (· != '\n') s.reverse
  rw [hdrop, List.getLast?_reverse] at hc
  rw [Option.mem_def.1 hc] at hhead
  simpa using hhead

end Layout

namespace Piece

theorem Reads.exists_lastLine {ps : List Piece} {rest : Text} (h : Reads ps rest)
    (hblank : ∀ c ∈ Text.lastLine (textOf ps), isBlank c = true) :
    ∃ as bs, ps = as ++ bs ∧ textOf bs = Text.lastLine (textOf ps) := by
  induction ps using List.reverseRecOn generalizing rest with
  | nil => exact ⟨[], [], rfl, rfl⟩
  | append_singleton ps p ih =>
    obtain ⟨hps, hp, -⟩ := reads_append.1 h
    have htext : textOf (ps ++ [p]) = textOf ps ++ p.text := by simp
    rw [htext] at hblank ⊢
    by_cases hn : '\n' ∈ p.text
    · rw [Text.lastLine_append_of_mem hn] at hblank ⊢
      obtain ⟨c, rfl, -⟩ | ⟨hno, -⟩ | ⟨c, hc, -, hfirm⟩ := hp.ending
      · obtain rfl : '\n' = c := by simpa [text] using hn
        exact ⟨ps ++ [.blank '\n'], [], (List.append_nil _).symm, rfl⟩
      · exact absurd hn hno
      · have hne : c ≠ '\n' := by
          rintro rfl
          exact absurd (hfirm hn) (by decide)
        have := hblank c (Text.getLast_mem_lastLine hc hne)
        rw [hfirm hn] at this
        cases this
    · rw [Text.lastLine_append_of_not_mem hn] at hblank ⊢
      obtain ⟨as, bs, rfl, hbs⟩ := ih hps fun c hc => hblank c (List.mem_append_left _ hc)
      refine ⟨as, bs ++ [p], List.append_assoc .., ?_⟩
      rw [textOf_append, hbs, textOf_cons, textOf_nil, List.append_nil]

theorem Reads.exists_lineStart {ps : List Piece} {rest : Text} (h : Reads ps rest)
    (hblank : ∀ c ∈ Text.lastLine (textOf ps), isBlank c = true) :
    ∃ as bs, ps = as ++ bs ∧ textOf as = Layout.beforeLastLine (textOf ps) ∧
      textOf bs = Text.lastLine (textOf ps) := by
  obtain ⟨as, bs, rfl, hbs⟩ := h.exists_lastLine hblank
  refine ⟨as, bs, rfl, ?_, hbs⟩
  have happend := Layout.beforeLastLine_append_lastLine (textOf (as ++ bs))
  rw [← hbs, textOf_append] at happend
  rw [textOf_append]
  exact (List.append_cancel_right happend).symm

/-- The spaces and tabs at the end of a text are pieces, unless they belong to an open line. -/
theorem Reads.exists_indentEnd {ps : List Piece} {rest : Text} (h : Reads ps rest)
    (hrest : ∃ c ∈ rest.head?, c ≠ '\n') :
    ∃ as bs, ps = as ++ bs ∧ textOf as = Text.dropIndentEnd (textOf ps) ∧
      ∀ p ∈ bs, ∃ c, p = .blank c ∧ Text.isIndent c = true := by
  induction ps using List.reverseRecOn generalizing rest with
  | nil => exact ⟨[], [], rfl, rfl, by simp⟩
  | append_singleton ps p ih =>
    obtain ⟨hps, hp, -⟩ := reads_append.1 h
    have htext : textOf (ps ++ [p]) = textOf ps ++ p.text := by simp
    rw [htext]
    by_cases hblank : ∃ c, p = .blank c ∧ Text.isIndent c = true
    · obtain ⟨c, rfl, hc⟩ := hblank
      have hne : c ≠ '\n' := by rintro rfl; cases hc
      obtain ⟨as, bs, rfl, has, hbs⟩ := ih hps ⟨c, by simp [text], hne⟩
      refine ⟨as, bs ++ [.blank c], List.append_assoc .., ?_, ?_⟩
      · rw [has, text, Text.dropIndentEnd_append_of_isIndent hc]
      · simpa [or_imp, forall_and] using ⟨hbs, hc⟩
    · refine ⟨ps ++ [p], [], (List.append_nil _).symm, ?_, by simp⟩
      obtain ⟨c, hc, hindent⟩ : ∃ c, p.text.getLast? = some c ∧ Text.isIndent c = false := by
        obtain ⟨c, rfl, -⟩ | ⟨-, hopen⟩ | ⟨c, hc, hspace, -⟩ := hp.ending
        · exact ⟨c, rfl, by simpa using fun hc => hblank ⟨c, rfl, hc⟩⟩
        · obtain ⟨c, hc, hne⟩ := hrest
          exact absurd (hopen c hc) hne
        · refine ⟨c, hc, ?_⟩
          simp only [isSpace, Bool.or_eq_false_iff] at hspace
          simp [Text.isIndent, hspace]
      rw [htext, Text.dropIndentEnd_append_of_getLast? hc hindent]

theorem Reads.of_newline {ps : List Piece} {rest : Text} (h : Reads ps rest)
    (hn : ∀ c ∈ (textOf ps).getLast?, c = '\n') (rest' : Text) : Reads ps rest' := by
  induction ps with
  | nil => trivial
  | cons p ps ih =>
    obtain ⟨hp, hps⟩ := h
    rw [textOf_cons, List.getLast?_append] at hn
    cases hlast : (textOf ps).getLast? with
    | none =>
      rw [hlast, Option.none_or] at hn
      refine ⟨?_, ih hps (by simp [hlast])⟩
      obtain ⟨c, rfl, hc⟩ | ⟨hno, -⟩ | ⟨c, hc, hspace, -⟩ := hp.ending
      · exact .blank hc
      · exfalso
        cases hp' : p.text.getLast? with
        | none => exact hp.text_ne_nil (List.getLast?_eq_none_iff.1 hp')
        | some c =>
          obtain rfl := hn c hp'
          exact hno (List.mem_of_getLast? hp')
      · obtain rfl := hn c hc
        cases hspace
    | some c =>
      rw [hlast, Option.some_or] at hn
      obtain rfl : c = '\n' := hn c rfl
      obtain ⟨v, hv⟩ := List.getLast?_eq_some_iff.1 hlast
      refine ⟨hp.congr ?_, ih hps (by simp [hlast])⟩
      rw [hv, List.append_assoc, List.append_assoc]
      exact .append (.edge rfl rfl id) v

theorem Reads.of_isSpace {ps : List Piece} {rest : Text} (h : Reads ps rest)
    (hspace : ∀ c ∈ textOf ps, isSpace c = true) (rest' : Text) : Reads ps rest' := by
  induction ps with
  | nil => trivial
  | cons p ps ih =>
    obtain ⟨hp, hps⟩ := h
    refine ⟨?_, ih hps fun c hc => hspace c (List.mem_append_right _ hc)⟩
    have hfirst : ∀ c ∈ p.text, isSpace c = true := fun c hc =>
      hspace c (List.mem_append_left _ hc)
    cases hp with
    | blank hc => exact .blank hc
    | line => exact absurd (hfirst '/' List.mem_cons_self) (by decide)
    | block => exact absurd (hfirst '/' List.mem_cons_self) (by decide)
    | token hstart =>
      have hc := hfirst _ List.mem_cons_self
      rw [hstart.1] at hc
      cases hc

theorem Reads.of_lastLine {ps : List Piece} {rest : Text} (h : Reads ps rest)
    (hindent : ∀ c ∈ Text.lastLine (textOf ps), Text.isIndent c = true) (rest' : Text) :
    Reads ps rest' := by
  obtain ⟨as, bs, rfl, has, hbs⟩ :=
    h.exists_lineStart fun c hc => Text.isBlank_of_isIndent (hindent c hc)
  obtain ⟨has', hbs'⟩ := reads_append.1 h
  refine reads_append.2 ⟨has'.of_newline ?_ _, hbs'.of_isSpace ?_ _⟩
  · rw [has]
    exact Layout.getLast?_beforeLastLine _
  · intro c hc
    rw [hbs] at hc
    exact Text.isSpace_of_isIndent (hindent c hc)

end Piece

end CaseAccessors
