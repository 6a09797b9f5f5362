import CaseAccessors.Proofs.BodyEnd
import CaseAccessors.Proofs.Boundary

/-! Tokens and the gaps between them tile a text. What a gap and a token may look like is said here
of their texts and of what stands behind them, without the functions that lexing runs: a block
comment by the marks in it, and a name by its bytes. -/
namespace CaseAccessors

inductive CommentMark where
  | opening
  | closing
  deriving DecidableEq, Repr

/-- The marks of a text from left to right; no character belongs to two of them. -/
def commentMarks : Text → List CommentMark
  | '/' :: '*' :: s => .opening :: commentMarks s
  | '*' :: '/' :: s => .closing :: commentMarks s
  | _ :: s => commentMarks s
  | [] => []

namespace Text

def commentOpenings (s : Text) : Nat := (commentMarks s).count .opening

def commentClosings (s : Text) : Nat := (commentMarks s).count .closing

/-- A block comment is over where as many comments are closed as opened, for the first time. -/
structure IsBlockComment (s : Text) : Prop where
  opens : ['/', '*'] <+: s
  balanced : s.commentClosings = s.commentOpenings
  shortest : ∀ p, ['/', '*'] <+: p → p <+: s → commentClosings p = commentOpenings p → p = s

@[simp] theorem commentOpenings_opening (s : Text) :
    commentOpenings ('/' :: '*' :: s) = commentOpenings s + 1 := by
  simp [commentOpenings, commentMarks]

@[simp] theorem commentClosings_opening (s : Text) :
    commentClosings ('/' :: '*' :: s) = commentClosings s := by
  simp [commentClosings, commentMarks]

@[simp] theorem commentOpenings_closing (s : Text) :
    commentOpenings ('*' :: '/' :: s) = commentOpenings s := by
  simp [commentOpenings, commentMarks]

@[simp] theorem commentClosings_closing (s : Text) :
    commentClosings ('*' :: '/' :: s) = commentClosings s + 1 := by
  simp [commentClosings, commentMarks]

end Text

theorem forall_prefix_cons {P : Text → Prop} {a : Char} {s : Text} (hnil : P [])
    (h : ∀ q, q <+: s → q ≠ s → P (a :: q)) : ∀ p, p <+: a :: s → p ≠ a :: s → P p := by
  intro p hp hne
  obtain rfl | ⟨q, rfl, hq⟩ := List.prefix_cons_iff.1 hp
  · exact hnil
  · exact h q hq fun heq => hne (heq ▸ rfl)

theorem BeginsNoMark.of_prefix {c : Char} {s p : Text} (h : BeginsNoMark c s) (hp : p <+: s) :
    BeginsNoMark c p := by
  obtain ⟨u, rfl⟩ := hp
  intro d hd
  apply h d
  rw [List.head?_append, Option.mem_def.1 hd]
  rfl

theorem commentMarks_cons {c : Char} {s : Text} (h : BeginsNoMark c s) :
    commentMarks (c :: s) = commentMarks s := by
  rw [commentMarks]
  · rintro t rfl rfl
    exact (h '*' rfl).1 ⟨rfl, rfl⟩
  · rintro t rfl rfl
    exact (h '/' rfl).2 ⟨rfl, rfl⟩

namespace CommentBody

open Text

theorem closings {depth : Nat} {s : Text} (h : CommentBody depth s) :
    commentClosings s = commentOpenings s + depth + 1 := by
  induction h with
  | opening _ ih =>
    simp only [commentClosings_opening, commentOpenings_opening]
    omega
  | last => rfl
  | closing _ ih =>
    simp only [commentClosings_closing, commentOpenings_closing]
    omega
  | char hc _ ih =>
    rw [commentClosings, commentOpenings, commentMarks_cons hc]
    exact ih

/-- A comment is over at the first mark that closes one comment more than were opened before. -/
theorem closings_le {depth : Nat} {s : Text} (h : CommentBody depth s) :
    ∀ p, p <+: s → p ≠ s → commentClosings p ≤ commentOpenings p + depth := by
  induction h with
  | opening _ ih =>
    refine forall_prefix_cons (Nat.zero_le _)
      (forall_prefix_cons (Nat.zero_le _) fun q hq hne => ?_)
    have := ih q hq hne
    simp only [commentClosings_opening, commentOpenings_opening]
    omega
  | last =>
    refine forall_prefix_cons (Nat.zero_le _)
      (forall_prefix_cons (Nat.zero_le _) fun q hq hne => ?_)
    exact absurd (List.prefix_nil.1 hq) hne
  | closing _ ih =>
    refine forall_prefix_cons (Nat.zero_le _)
      (forall_prefix_cons (Nat.zero_le _) fun q hq hne => ?_)
    have := ih q hq hne
    simp only [commentClosings_closing, commentOpenings_closing]
    omega
  | char hc _ ih =>
    refine forall_prefix_cons (Nat.zero_le _) fun q hq hne => ?_
    rw [commentClosings, commentOpenings, commentMarks_cons (hc.of_prefix hq)]
    exact ih q hq hne

theorem isBlockComment {s : Text} (h : CommentBody 0 s) : IsBlockComment ('/' :: '*' :: s) := by
  refine ⟨⟨s, rfl⟩, ?_, ?_⟩
  · rw [commentClosings_opening, commentOpenings_opening]
    exact h.closings
  · rintro _ ⟨p, rfl⟩ hp hbalanced
    obtain rfl | hne := eq_or_ne p s
    · rfl
    have := h.closings_le p ((List.prefix_append_right_inj ['/', '*']).1 hp) hne
    rw [List.cons_append, List.cons_append, List.nil_append, commentClosings_opening,
      commentOpenings_opening] at hbalanced
    omega

end CommentBody

/-- What may stand between two tokens, or at either end of a text, in front of `rest`. -/
inductive IsGap (rest : Text) : Text → Prop where
  | nil : IsGap rest []
  | blank {c : Char} {s : Text} : c ∈ [' ', '\t', '\n', '\x0c', '\r'] → IsGap rest s →
      IsGap rest (c :: s)
  | lineComment {line s : Text} : '\n' ∉ line → (∀ c ∈ (s ++ rest).head?, c = '\n') → IsGap rest s →
      IsGap rest ('/' :: '/' :: (line ++ s))
  | blockComment {comment s : Text} : comment.IsBlockComment → IsGap rest s →
      IsGap rest (comment ++ s)

theorem Piece.Stands.isGap_append {p : Piece} {s rest : Text} (h : p.Stands (s ++ rest))
    (hp : p.word? = none) (hs : IsGap rest s) : IsGap rest (p.text ++ s) := by
  cases h with
  | blank hc => exact .blank (by simpa [isSpace, or_assoc] using hc) hs
  | line hline hend => exact .lineComment hline hend hs
  | block hcomment => exact .blockComment (CommentBody.of_afterComment hcomment).isBlockComment hs
  | token => cases hp

structure IsIdentRun (rest s : Text) : Prop where
  ne_nil : s ≠ []
  bytes : ∀ b ∈ s.utf8, IsIdentByte b
  start : ∀ b ∈ s.utf8.head?, ¬IsDigitByte b
  maximal : ∀ b ∈ rest.utf8.head?, ¬IsIdentByte b

/-- A name in backticks, the second of which may be missing where its line ends. -/
def IsBacktickRun (rest s : Text) : Prop :=
  ∃ name, (∀ c ∈ name, c ≠ '`' ∧ c ≠ '\n') ∧
    (s = '`' :: (name ++ ['`']) ∨ s = '`' :: name ∧ ∀ c ∈ rest.head?, c = '\n')

/-- Whether a token of the kind can be `s` in front of `rest`. -/
def Kind.Fits (rest s : Text) : Kind → Prop
  | .ident => IsIdentRun rest s ∨ IsBacktickRun rest s
  | .arrow => s = ['-', '>']
  | .punct c => s = [c] ∧ c.toNat < 0x80
  | .literal => ∃ c ∈ s.head?, c.isDigit = true ∨ c = '"' ∨ c = '#'

theorem isIdentRun_cons {c : Char} {s rest : Text} (hc : isIdentStart c = true)
    (hs : ∀ a ∈ s, isIdentPart a = true) (hr : ∀ a ∈ rest.head?, isIdentPart a = false) :
    IsIdentRun rest (c :: s) where
  ne_nil := List.cons_ne_nil c s
  bytes b hb := by
    obtain ⟨a, ha, hb⟩ := List.mem_flatMap.1 hb
    rw [isIdentByte_iff hb]
    obtain rfl | ha := List.mem_cons.1 ha
    · simp [isIdentPart, hc]
    · exact hs a ha
  start b hb := by
    obtain ⟨a, ha, hb⟩ := Text.exists_of_mem_utf8_head? hb
    obtain rfl : c = a := Option.some.inj ha
    rw [isDigitByte_iff hb, isDigit_iff]
    rw [isIdentStart_iff] at hc
    omega
  maximal b hb := by
    obtain ⟨a, ha, hb⟩ := Text.exists_of_mem_utf8_head? hb
    rw [isIdentByte_iff hb, hr a ha]
    decide

theorem TokenForm.fits {rest s : Text} {kind : Kind} (h : TokenForm rest kind s) :
    kind.Fits rest s := by
  cases h with
  | word hc hs hr => exact .inl (isIdentRun_cons hc hs hr)
  | quotedWord hs => exact .inr ⟨_, hs, .inl rfl⟩
  | openWord hs hr => exact .inr ⟨_, hs, .inr ⟨rfl, hr⟩⟩
  | number hc => exact ⟨_, rfl, .inl hc⟩
  | string hs =>
    obtain ⟨c, t, rfl⟩ := List.exists_cons_of_ne_nil hs.ne_nil
    exact ⟨c, rfl, .inr hs.head.symm⟩
  | arrow => rfl
  | @mark c hstart =>
    refine ⟨rfl, ?_⟩
    rw [Bool.eq_false_iff, ne_eq, isIdentStart_iff] at hstart
    omega

/-- The tokens are what the text from byte `offset` on consists of, beside the gaps around them. -/
inductive Tiles : (offset : Nat) → Text → List Token → Prop where
  | nil {offset : Nat} {gap : Text} : IsGap [] gap → Tiles offset gap []
  | cons {offset : Nat} {gap rest : Text} {t : Token} {ts : List Token} :
      IsGap (t.text ++ rest) gap → t.place.offset = offset + gap.byteSize → t.text ≠ [] →
      t.kind.Fits rest t.text → Tiles t.endOffset rest ts →
      Tiles offset (gap ++ (t.text ++ rest)) (t :: ts)

namespace Tiles

variable {offset : Nat} {s : Text} {ts : List Token}

theorem prepend {p : Piece} (hp : p.Stands s) (hw : p.word? = none)
    (h : Tiles (offset + p.text.byteSize) s ts) : Tiles offset (p.text ++ s) ts := by
  cases h with
  | nil hgap =>
    rw [← List.append_nil s] at hp
    exact .nil (hp.isGap_append hw hgap)
  | cons hgap hoffset hne hfits hrest =>
    rw [← List.append_assoc]
    refine .cons (hp.isGap_append hw hgap) ?_ hne hfits hrest
    rw [hoffset, Text.byteSize_append, Nat.add_assoc]

theorem of_reads {ps : List Piece} (h : Piece.Reads ps []) (lead : Text) (p : Place) :
    Tiles p.offset (Piece.textOf ps) (Piece.toTokens lead p ps) := by
  induction ps generalizing lead p with
  | nil => exact .nil .nil
  | cons q ps ih =>
    obtain ⟨hq, hps⟩ := h
    rw [List.append_nil] at hq
    cases q with
    | blank c => exact prepend hq rfl (p.advance_offset [c] ▸ ih hps _ _)
    | comment text => exact prepend hq rfl (p.advance_offset text ▸ ih hps _ _)
    | token kind text =>
      have hform : TokenForm (Piece.textOf ps) kind text := by
        cases hq with
        | token _ hread => exact .of_readToken hread
      have htail := ih hps [] (p.advance text)
      rw [Place.advance_offset] at htail
      exact .cons (t := ⟨⟨lead, kind, text⟩, p⟩) .nil rfl hq.text_ne_nil hform.fits htail

theorem offset_le (h : Tiles offset s ts) : ∀ t ∈ ts, offset ≤ t.place.offset := by
  induction h with
  | nil => simp
  | @cons offset gap rest t ts _ hoffset _ _ _ ih =>
    intro u hu
    obtain rfl | hu := List.mem_cons.1 hu
    · omega
    · have := ih u hu
      rw [Token.endOffset] at this
      omega

theorem pairwise (h : Tiles offset s ts) :
    ts.Pairwise fun t u => t.endOffset ≤ u.place.offset := by
  induction h with
  | nil => exact .nil
  | cons _ _ _ _ hrest ih => exact .cons hrest.offset_le ih

theorem exists_before (h : Tiles offset s ts) :
    ∀ t ∈ ts, t.text ≠ [] ∧ ∃ before behind, s = before ++ (t.text ++ behind) ∧
      t.place.offset = offset + Text.byteSize before := by
  induction h with
  | nil => simp
  | @cons offset gap rest t ts _ hoffset hne _ _ ih =>
    intro u hu
    obtain rfl | hu := List.mem_cons.1 hu
    · exact ⟨hne, gap, rest, rfl, hoffset⟩
    obtain ⟨hne, before, behind, rfl, hbefore⟩ := ih u hu
    refine ⟨hne, gap ++ (t.text ++ before), behind, by simp, ?_⟩
    rw [hbefore, Token.endOffset, hoffset]
    simp [Nat.add_assoc]

end Tiles

/-- The tokens of a source and the blanks and comments between them make it up without a loss. Each
token begins and ends between two characters, in front of the next one. -/
theorem tokenize_tiles {src : Text} {ts : List Token} (h : tokenize src = .ok ts) :
    Tiles 0 src ts ∧ ts.Pairwise (fun t u => t.endOffset ≤ u.place.offset) ∧
      ∀ t ∈ ts, t.place.offset < t.endOffset ∧
        ∃ before behind, src = before ++ (t.text ++ behind) ∧
          t.place.offset = Text.byteSize before ∧
              t.endOffset = Text.byteSize (before ++ t.text) := by
  obtain ⟨ps, rfl, hps, rfl⟩ := Piece.exists_of_tokenize h
  have htiles := Tiles.of_reads hps [] .start
  refine ⟨htiles, htiles.pairwise, fun t ht => ?_⟩
  obtain ⟨hne, before, behind, hsrc, hoffset⟩ := htiles.exists_before t ht
  have hpos : 0 < t.text.byteSize := Nat.pos_of_ne_zero (mt Text.byteSize_eq_zero_iff.1 hne)
  rw [Place.start, Nat.zero_add] at hoffset
  rw [Token.endOffset, hoffset]
  exact ⟨by omega, before, behind, hsrc, rfl, (Text.byteSize_append before t.text).symm⟩

theorem tokenize_tiles_commented :
    ∃ ts, tokenize "é/*/**/*/ -> `a\n#\"s\"#.\x0c// \"".toList = .ok ts ∧
      ts.map (fun t => (t.kind, t.place.offset, t.endOffset)) =
        [(.ident, 0, 2), (.arrow, 11, 13), (.ident, 14, 16), (.literal, 17, 22),
          (.punct '.', 22, 23)] ∧
      Tiles 0 "é/*/**/*/ -> `a\n#\"s\"#.\x0c// \"".toList ts := by
  have hread : (tokenize "é/*/**/*/ -> `a\n#\"s\"#.\x0c// \"".toList).toOption.map
      (fun ts => ts.map fun t => (t.kind, t.place.offset, t.endOffset)) =
        some [(.ident, 0, 2), (.arrow, 11, 13), (.ident, 14, 16), (.literal, 17, 22),
          (.punct '.', 22, 23)] := by decide +kernel
  obtain ⟨ts, hts, hplaces⟩ := Option.map_eq_some_iff.1 hread
  have htokens := eq_ok_of_toOption hts
  exact ⟨ts, htokens, hplaces, (tokenize_tiles htokens).1⟩

end CaseAccessors
