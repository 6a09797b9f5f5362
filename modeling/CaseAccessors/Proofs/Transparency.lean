import CaseAccessors.Proofs.Hunk

/-! Insertions do not disturb tokens. The tokens of a completed source are those of the source with
the tokens of what is inserted between them: no token is lost, cut, joined with another one, or
taken into a comment or string. -/
namespace CaseAccessors

def wordsOf (s : Text) : List Word :=
  match tokenize s with
  | .ok ts => ts.map Token.word
  | .error _ => []

/-- The words of tokens, with further words in front of the first token that begins at an offset or
behind it. The offsets are in ascending order. -/
def spliceWords : List Token → List (Nat × List Word) → List Word
  | ts, [] => ts.map Token.word
  | ts, (offset, ws) :: more =>
    let isBefore (t : Token) : Bool := decide (t.place.offset < offset)
    (ts.takeWhile isBefore).map Token.word ++ ws ++ spliceWords (ts.dropWhile isBefore) more

namespace Piece

theorem wordsOf_textOf {ps : List Piece} (h : Reads ps []) :
    wordsOf (textOf ps) = ps.filterMap word? := by
  rw [wordsOf, tokenize_textOf h]
  exact map_word_toTokens ps [] .start

theorem Reads.text_ne_nil {ps : List Piece} {rest : Text} (h : Reads ps rest) :
    ∀ p ∈ ps, p.text ≠ [] := by
  induction ps with
  | nil => simp
  | cons p ps ih =>
    rintro q (_ | ⟨_, hq⟩)
    · exact h.1.text_ne_nil
    · exact ih h.2 q hq

theorem offset_mem_toTokens {ps : List Piece} (hps : ∀ p ∈ ps, p.text ≠ []) {lead : Text}
    {p : Place} {t : Token} (ht : t ∈ toTokens lead p ps) :
    p.offset ≤ t.place.offset ∧ t.place.offset < p.offset + Text.byteSize (textOf ps) := by
  obtain ⟨before, behind, heq⟩ := List.append_of_mem ht
  obtain ⟨as, bs, rfl, -, hplace⟩ := exists_of_toTokens_eq heq
  have hne : t.text ≠ [] := hps (.token t.kind t.text) (by simp)
  have hpos : 0 < Text.byteSize t.text := by
    cases htext : t.text with
    | nil => exact absurd htext hne
    | cons c s =>
      have := c.utf8Size_pos
      rw [Text.byteSize]
      omega
  rw [hplace, Place.advance_offset]
  simp only [textOf_append, textOf_cons, Text.byteSize_append, Piece.text]
  omega

end Piece

open Piece

theorem spliceWords_append {ps qs : List Piece} (hps : ∀ p ∈ ps, p.text ≠ [])
    (hqs : ∀ q ∈ qs, q.text ≠ []) (lead : Text) (p : Place) (ws : List Word)
    (more : List (Nat × List Word)) :
    ∃ lead', spliceWords (toTokens lead p (ps ++ qs))
      ((p.offset + Text.byteSize (textOf ps), ws) :: more) =
      ps.filterMap word? ++ ws ++ spliceWords (toTokens lead' (p.advance (textOf ps)) qs) more := by
  obtain ⟨lead', happend⟩ := toTokens_append ps qs lead p
  refine ⟨lead', ?_⟩
  have hfront : ∀ t ∈ toTokens lead p ps,
      decide (t.place.offset < p.offset + Text.byteSize (textOf ps)) = true := fun t ht =>
    decide_eq_true (offset_mem_toTokens hps ht).2
  have hback : ∀ t ∈ toTokens lead' (p.advance (textOf ps)) qs,
      ¬decide (t.place.offset < p.offset + Text.byteSize (textOf ps)) = true := fun t ht => by
    have := (offset_mem_toTokens hqs ht).1
    rw [Place.advance_offset] at this
    simpa using this
  have hnone : (toTokens lead' (p.advance (textOf ps)) qs).takeWhile
      (fun t => decide (t.place.offset < p.offset + Text.byteSize (textOf ps))) = [] ∧
      (toTokens lead' (p.advance (textOf ps)) qs).dropWhile
        (fun t => decide (t.place.offset < p.offset + Text.byteSize (textOf ps))) =
          toTokens lead' (p.advance (textOf ps)) qs := by
    cases hts : toTokens lead' (p.advance (textOf ps)) qs with
    | nil => exact ⟨rfl, rfl⟩
    | cons t ts =>
      have ht := hback t (hts ▸ List.mem_cons_self)
      exact ⟨List.takeWhile_cons_of_neg ht, List.dropWhile_cons_of_neg ht⟩
  rw [spliceWords, happend, List.takeWhile_append_of_pos hfront,
    List.dropWhile_append_of_pos hfront, hnone.1, hnone.2, List.append_nil, map_word_toTokens]

theorem spliceWords_insertions {seg : List Piece} {hs : List Hunk}
    (hps : ∀ p ∈ seg ++ Hunk.pieces hs, p.text ≠ [])
    (hdropped : ∀ h ∈ hs, h.dropped.filterMap word? = []) (lead : Text) (p : Place)
    (words : Text → List Word) :
    spliceWords (toTokens lead p (seg ++ Hunk.pieces hs))
      ((Edit.insertions (p.offset + Text.byteSize (textOf seg)) (hs.flatMap Hunk.edits)).map
        fun i =>
        (i.start, words i.text)) =
      seg.filterMap word? ++ hs.flatMap fun h => words h.inserted ++ h.kept.filterMap word? := by
  induction hs generalizing seg lead p with
  | nil => simp [spliceWords, Edit.insertions, map_word_toTokens]
  | cons h hs ih =>
    have hrest : ∀ p ∈ h.dropped ++ h.kept ++ Hunk.pieces hs, p.text ≠ [] := fun p hp =>
      hps p (List.mem_append_right seg hp)
    obtain ⟨lead', hsplice⟩ :=
      spliceWords_append (fun p hp => hps p (List.mem_append_left _ hp)) hrest
      lead p (words h.inserted) ((Edit.insertions (p.offset + Text.byteSize (textOf seg) +
        Text.byteSize (textOf h.dropped) + Text.byteSize (textOf h.kept))
          (hs.flatMap Hunk.edits)).map
          fun i => (i.start, words i.text))
    have hnext := ih hrest (fun h' hh' => hdropped h' (List.mem_cons_of_mem h hh')) lead'
      (p.advance (textOf seg))
    rw [Place.advance_offset, textOf_append, Text.byteSize_append, ← Nat.add_assoc,
      List.filterMap_append, hdropped h List.mem_cons_self, List.nil_append] at hnext
    rw [hnext] at hsplice
    rw [List.flatMap_cons, Hunk.pieces_cons]
    refine hsplice.trans ?_
    rw [List.flatMap_cons]
    simp

namespace Hunk

theorem alike_of_isIndent {dropped behind : List Piece}
    (hdropped : ∀ p ∈ dropped, ∃ c, p = .blank c ∧ Text.isIndent c = true) {s t : Text} {c : Char}
    (hc : c ∈ s.head?) (hbreak : c = '\n' ∨ c = '\r') :
    Alike (textOf (dropped ++ .closingBrace :: behind) ++ t) s := by
  obtain ⟨v, rfl⟩ := List.head?_eq_some_iff.1 hc
  have hedge : isEdge c = true := by obtain rfl | rfl := hbreak <;> rfl
  cases dropped with
  | nil => exact .edge rfl hedge fun h => absurd h (by decide)
  | cons p ps =>
    obtain ⟨d, rfl, hd⟩ := hdropped p List.mem_cons_self
    obtain rfl | rfl := Text.isIndent_iff.1 hd
    · exact .edge rfl hedge fun h => absurd h (by decide)
    · exact .edge rfl hedge fun h => absurd h (by decide)

/-- The pieces of a completed source, where the pieces of each insertion are known. -/
theorem Placed.exists_output {before seg : List Piece} {hs : List Hunk}
    (hplaced : Placed (before ++ seg) hs) (hread : Reads (seg ++ pieces hs) [])
    (hlex : ∀ h ∈ hs, ∃ qs, textOf qs = h.inserted ∧ Reads qs []) :
    ∃ out, textOf out = output seg hs ∧ Reads out [] ∧ out.filterMap word? =
      seg.filterMap word? ++ hs.flatMap fun h => wordsOf h.inserted ++ h.kept.filterMap word? := by
  induction hs generalizing before seg with
  | nil => exact ⟨seg, by simp [output], by simpa using hread, by simp⟩
  | cons h hs ih =>
    obtain ⟨⟨blanks, behind, i, hpieces, -, hfits, hi⟩, hlater⟩ := hplaced
    obtain ⟨qs, hqs, hqsread⟩ := hlex h List.mem_cons_self
    rw [pieces_cons] at hread
    obtain ⟨hseg, hbehind⟩ := reads_append.1 hread
    obtain ⟨hdropped, hkept⟩ := reads_append.1 (List.append_assoc .. ▸ hbehind)
    obtain ⟨out, hout, houtread, hwords⟩ := @ih
      (before ++ seg ++ h.dropped) h.kept (by simpa using hlater) hkept fun h' hh' =>
        hlex h' (List.mem_cons_of_mem h hh')
    refine ⟨seg ++ (qs ++ out), ?_, reads_append.2 ⟨?_, reads_append.2 ⟨?_, ?_⟩⟩, ?_⟩
    · simp [output, hout, hqs]
    · obtain ⟨-, hnewline⟩ | ⟨rfl, c, hc, hbreak⟩ := hfits.line_or_break
      · apply hseg.of_newline
        intro c hc
        apply hnewline
        rw [textOf_append, List.getLast?_append, Option.mem_def.1 hc]
        rfl
      · rw [List.append_assoc, hpieces, List.nil_append] at hseg
        apply hseg.congr
        refine alike_of_isIndent hfits.isIndent_dropped (c := c) ?_ hbreak
        rw [textOf_append, hqs, ← hi, List.append_assoc, List.head?_append, Option.mem_def.1 hc]
        rfl
    · apply hqsread.of_lastLine
      rw [hqs, ← hi]
      exact hfits.isIndent_lastLine
    · exact houtread
    · simp [hwords, ← hqs, wordsOf_textOf hqsread]

theorem Placed.filterMap_dropped {before : List Piece} {hs : List Hunk}
    (hplaced : Placed before hs) :
    ∀ h ∈ hs, h.dropped.filterMap word? = [] := by
  induction hs generalizing before with
  | nil => simp
  | cons h hs ih =>
    obtain ⟨⟨blanks, behind, i, -, -, hfits, -⟩, hlater⟩ := hplaced
    rintro h' (_ | ⟨_, hmem⟩)
    · rw [List.filterMap_eq_nil_iff]
      intro p hp
      obtain ⟨c, rfl, -⟩ := hfits.isIndent_dropped p hp
      rfl
    · exact ih hlater h' hmem

end Hunk

theorem Hunk.map_text_insertions (offset : Nat) (hs : List Hunk) :
    (Edit.insertions offset (hs.flatMap edits)).map Insertion.text = hs.map Hunk.inserted := by
  induction hs generalizing offset with
  | nil => rfl
  | cons h hs ih => simp [edits, Edit.insertions, ih]

/-- If what is inserted can be lexed on its own, the completed source can be lexed, and its tokens
are those of the source with those of every insertion at the place of that insertion. -/
theorem tokenize_output_of_complete (o : Options) (src : Text) {enums : List Enumeration}
    (h : readEnumerations src = .ok enums) (hdistinct : (enums.map Enumeration.closeOffset).Nodup)
    (hlex : ∀ i ∈ enums.filterMap (·.insertion? o src), ∃ ts, tokenize i.text = .ok ts) :
    ∃ (ts : List Token) (is : List Insertion) (output : Text) (ts' : List Token),
      tokenize src = .ok ts ∧
      is.Perm (enums.filterMap (·.insertion? o src)) ∧
      is.Pairwise (fun i j => i.start < j.start) ∧
      complete o src = .ok ⟨output, enums.map Enumeration.change⟩ ∧
      tokenize output = .ok ts' ∧
      ts'.map Token.word = spliceWords ts (is.map fun i => (i.start, wordsOf i.text)) := by
  obtain ⟨first, hs, rfl, hps, -, -, hplaced, hperm, hsorted, hout⟩ :=
    exists_hunks_of_readEnumerations o h hdistinct
  have hlexed : ∀ h ∈ hs, ∃ qs, textOf qs = h.inserted ∧ Reads qs [] := fun h hh => by
    have htext : h.inserted ∈ (Edit.insertions (Text.byteSize (textOf first))
        (hs.flatMap Hunk.edits)).map Insertion.text := by
      rw [Hunk.map_text_insertions]
      exact List.mem_map_of_mem hh
    obtain ⟨i, hi, hinserted⟩ := List.mem_map.1 htext
    obtain ⟨ts, hts⟩ := hlex i (hperm.mem_iff.2 hi)
    obtain ⟨qs, hqs, hread, -⟩ := exists_of_tokenize hts
    exact ⟨qs, hqs.trans hinserted, hread⟩
  obtain ⟨out, houtput, hread, hwords⟩ :=
    Hunk.Placed.exists_output (List.nil_append first ▸ hplaced) hps hlexed
  refine ⟨_, _, _, _, tokenize_textOf hps, hperm.symm, hsorted, hout,
    houtput ▸ tokenize_textOf hread, ?_⟩
  have hsplice := spliceWords_insertions hps.text_ne_nil hplaced.filterMap_dropped [] .start wordsOf
  rw [Place.start, Nat.zero_add] at hsplice
  rw [map_word_toTokens, hwords]
  exact hsplice.symm

/-- Two enums that end on one line, both of which gain an accessor. -/
theorem tokenize_output_of_complete_nested :
    ∃ enums, readEnumerations "enum A \x7bcase a; enum B \x7bcase b\x7d \x7d".toList = .ok enums ∧
      (enums.map Enumeration.closeOffset).Nodup ∧
      (∀ i ∈ enums.filterMap
        (·.insertion? .default "enum A \x7bcase a; enum B \x7bcase b\x7d \x7d".toList),
        ∃ ts, tokenize i.text = .ok ts) ∧
      ∃ (ts : List Token) (is : List Insertion) (output : Text) (ts' : List Token),
        tokenize "enum A \x7bcase a; enum B \x7bcase b\x7d \x7d".toList = .ok ts ∧
        complete .default "enum A \x7bcase a; enum B \x7bcase b\x7d \x7d".toList =
          .ok ⟨output, enums.map Enumeration.change⟩ ∧
        tokenize output = .ok ts' ∧
        ts'.map Token.word = spliceWords ts (is.map fun i => (i.start, wordsOf i.text)) := by
  have hread :
    (readEnumerations "enum A \x7bcase a; enum B \x7bcase b\x7d \x7d".toList).toOption.map
      (fun es => (es.map Enumeration.closeOffset, (es.filterMap
        (·.insertion? .default "enum A \x7bcase a; enum B \x7bcase b\x7d \x7d".toList)).all fun i =>
          (tokenize i.text).toOption.isSome)) = some ([32, 30], true) := by decide +kernel
  obtain ⟨enums, henums, hfacts⟩ := Option.map_eq_some_iff.1 hread
  obtain ⟨hoffsets, hlexed⟩ := Prod.mk.inj hfacts
  have h := eq_ok_of_toOption henums
  have hdistinct : (enums.map Enumeration.closeOffset).Nodup := by
    rw [hoffsets]
    decide
  have hlex : ∀ i ∈ enums.filterMap
      (·.insertion? .default "enum A \x7bcase a; enum B \x7bcase b\x7d \x7d".toList),
      ∃ ts, tokenize i.text = .ok ts := fun i hi => by
    obtain ⟨ts, hts⟩ := Option.isSome_iff_exists.1 (List.all_eq_true.1 hlexed i hi)
    exact ⟨ts, eq_ok_of_toOption hts⟩
  obtain ⟨ts, is, output, ts', hts, -, -, hout, hts', hwords⟩ :=
    tokenize_output_of_complete .default _ h hdistinct hlex
  exact ⟨enums, h, hdistinct, hlex, ts, is, output, ts', hts, hout, hts', hwords⟩

end CaseAccessors
