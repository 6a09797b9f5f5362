import CaseAccessors.Proofs.Hunk

/-! Completing a source only inserts. The blanks that give way are spaces and tabs in front of a
closing brace; all the rest of the source stays, and no insertion falls into a token or a comment.
-/
namespace CaseAccessors

open Piece

namespace Hunk

/-- From the insertion on there are only blanks in front of the brace that closes the enum. -/
def EndsBody (before : List Piece) (h : Hunk) (later : List Hunk) : Prop :=
  ∃ blanks behind, h.dropped ++ h.kept ++ pieces later = blanks ++ .closingBrace :: behind ∧
    (∀ c ∈ textOf blanks, isBlank c = true) ∧
    h.enum.closeOffset = Text.byteSize (textOf (before ++ blanks))

theorem isIndent_of_mem_textOf {ps : List Piece}
    (h : ∀ p ∈ ps, ∃ c, p = .blank c ∧ Text.isIndent c = true) :
    ∀ c ∈ textOf ps, Text.isIndent c = true := by
  intro c hc
  obtain ⟨p, hp, hcp⟩ := List.mem_flatMap.1 hc
  obtain ⟨d, rfl, hd⟩ := h p hp
  rwa [List.mem_singleton.1 hcp]

theorem Placed.isIndent_dropped {before : List Piece} {hs : List Hunk}
    (hplaced : Placed before hs) :
    ∀ h ∈ hs, ∀ p ∈ h.dropped, ∃ c, p = .blank c ∧ Text.isIndent c = true := by
  induction hs generalizing before with
  | nil => simp
  | cons h hs ih =>
    obtain ⟨⟨blanks, behind, i, -, -, hfits, -⟩, hlater⟩ := hplaced
    rintro h' (_ | ⟨_, hmem⟩)
    · exact hfits.isIndent_dropped
    · exact ih hlater h' hmem

theorem Placed.endsBody {before : List Piece} {earlier later : List Hunk} {h : Hunk}
    (hplaced : Placed before (earlier ++ h :: later)) :
    h.EndsBody (before ++ pieces earlier) later := by
  induction earlier generalizing before with
  | nil =>
    obtain ⟨⟨blanks, behind, i, hpieces, hclose, hfits, -⟩, -⟩ := hplaced
    refine ⟨h.dropped ++ blanks, behind, ?_, ?_, ?_⟩
    · rw [List.append_assoc, hpieces, List.append_assoc]
    · intro c hc
      rw [textOf_append] at hc
      rcases List.mem_append.1 hc with hc | hc
      · exact Text.isBlank_of_isIndent (isIndent_of_mem_textOf hfits.isIndent_dropped c hc)
      · exact hfits.isBlank_blanks c hc
    · rw [hclose, pieces_nil, List.append_nil]
  | cons h' earlier ih =>
    have hlater := ih hplaced.2
    rwa [List.append_assoc] at hlater

/-- Every insertion adds opening braces, and nothing that gives way is one. -/
theorem Placed.length_add_count_le {before : List Piece} {hs : List Hunk}
    (hplaced : Placed before hs) :
    hs.length + (textOf (pieces hs)).count '\x7b' ≤
      (hs.flatMap fun h => h.inserted ++ textOf h.kept).count '\x7b' := by
  induction hs generalizing before with
  | nil => simp
  | cons h hs ih =>
    obtain ⟨⟨blanks, behind, i, -, -, hfits, hi⟩, hlater⟩ := hplaced
    have hih := ih hlater
    have hdropped : (textOf h.dropped).count '\x7b' = 0 := by
      rw [List.count_eq_zero]
      intro hmem
      exact absurd (isIndent_of_mem_textOf hfits.isIndent_dropped _ hmem) (by decide)
    have hinserted : 0 < h.inserted.count '\x7b' := by
      rw [List.count_pos_iff, ← hi]
      exact hfits.brace_mem
    simp only [pieces_cons, textOf_append, List.flatMap_cons, List.count_append,
      List.length_cons] at hih ⊢
    omega

theorem Placed.output_eq_iff {first : List Piece} {hs : List Hunk} (hplaced : Placed first hs) :
    output first hs = textOf (first ++ pieces hs) ↔ hs = [] := by
  constructor
  · intro h
    have hcount := congrArg (List.count '\x7b') h
    have hle := hplaced.length_add_count_le
    rw [output, textOf_append, List.count_append, List.count_append] at hcount
    exact List.length_eq_zero_iff.1 (by omega)
  · rintro rfl
    simp [output]

end Hunk

/-- Completing a source in which no two bodies share their end only inserts. The source is cut into
`first` and a hunk for each enum that gains accessors, in the order of their closing braces; each
hunk gives its `dropped` for its `inserted` and stays otherwise. The cuts are between pieces, so
that none is inside a token or a comment, and what is dropped consists of spaces and tabs in front
of the brace. -/
theorem complete_only_inserts (o : Options) (src : Text) {enums : List Enumeration}
    (h : readEnumerations src = .ok enums) (hdistinct : (enums.map Enumeration.closeOffset).Nodup) :
    ∃ first hs, src = textOf (first ++ Hunk.pieces hs) ∧
      Reads (first ++ Hunk.pieces hs) [] ∧
      tokenize src = .ok (toTokens [] .start (first ++ Hunk.pieces hs)) ∧
      complete o src = .ok ⟨Hunk.output first hs, enums.map Enumeration.change⟩ ∧
      (hs.map Hunk.enum).Perm (enums.filter fun e => !e.change.added.isEmpty) ∧
      ((hs.map Hunk.enum).Pairwise fun e e' => e.closeOffset < e'.closeOffset) ∧
      (∀ h ∈ hs, ∀ p ∈ h.dropped, p = .blank ' ' ∨ p = .blank '\t') ∧
      (∀ earlier h later, hs = earlier ++ h :: later →
        h.EndsBody (first ++ Hunk.pieces earlier) later) ∧
      (Hunk.output first hs = src ↔ ∀ e ∈ enums, e.change.added = []) := by
  obtain ⟨first, hs, hsrc, hps, hperm, hsorted, hplaced, -, -, hout⟩ :=
    exists_hunks_of_readEnumerations o h hdistinct
  refine ⟨first, hs, hsrc, hps, hsrc ▸ tokenize_textOf hps, hout, hperm, hsorted, ?_, ?_, ?_⟩
  · intro h hh p hp
    obtain ⟨c, rfl, hc⟩ := hplaced.isIndent_dropped h hh p hp
    simpa [Text.isIndent] using hc
  · rintro earlier h later rfl
    exact hplaced.endsBody
  · have hgain : hs = [] ↔ enums.filter Enumeration.gains = [] := by
      rw [← List.map_eq_nil_iff (f := Hunk.enum)]
      exact ⟨fun h => (h ▸ hperm).nil_eq.symm, fun h => (h ▸ hperm).eq_nil⟩
    rw [hsrc, hplaced.output_eq_iff, hgain, List.filter_eq_nil_iff]
    simp [Enumeration.gains]

/-- Two enums that end on one line, both of which gain an accessor. -/
theorem complete_only_inserts_nested :
    ∃ enums first hs,
      readEnumerations "enum A \x7bcase a; enum B \x7bcase b\x7d \x7d".toList = .ok enums ∧
      (enums.map Enumeration.closeOffset).Nodup ∧
      complete .default "enum A \x7bcase a; enum B \x7bcase b\x7d \x7d".toList =
        .ok ⟨Hunk.output first hs, enums.map Enumeration.change⟩ ∧
      Hunk.output first hs ≠ "enum A \x7bcase a; enum B \x7bcase b\x7d \x7d".toList := by
  have hread :
      (readEnumerations "enum A \x7bcase a; enum B \x7bcase b\x7d \x7d".toList).toOption.map
        (fun es => (es.map Enumeration.closeOffset, es.map fun e => e.change.added)) =
          some ([32, 30], [[['a']], [['b']]]) := by decide +kernel
  obtain ⟨enums, henums, hfacts⟩ := Option.map_eq_some_iff.1 hread
  obtain ⟨hoffsets, hadded⟩ := Prod.mk.inj hfacts
  have h := eq_ok_of_toOption henums
  have hdistinct : (enums.map Enumeration.closeOffset).Nodup := by
    rw [hoffsets]
    decide
  obtain ⟨first, hs, -, -, -, hout, -, -, -, -, hsame⟩ :=
    complete_only_inserts .default _ h hdistinct
  refine ⟨enums, first, hs, h, hdistinct, hout, ?_⟩
  rw [ne_eq, hsame]
  intro hnone
  have : [['a']] ∈ enums.map fun e => e.change.added := by
    rw [hadded]
    decide
  obtain ⟨e, he, hea⟩ := List.mem_map.1 this
  rw [hnone e he] at hea
  cases hea

end CaseAccessors
