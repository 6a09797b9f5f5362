import CaseAccessors.Proofs.BodyEnd
import CaseAccessors.Proofs.Boundary
import CaseAccessors.Proofs.InsertedText

/-! Where the insertion for an enum goes. The pieces in front of the closing brace part into those
that stay, the blanks that give way, and the blanks that stay in front of the brace. -/
namespace CaseAccessors

/-- How an insertion fits between pieces: `dropped` gives way to it between `kept` and `blanks`, and
what stands on either side of it does not run into it. -/
structure Fits (kept dropped blanks : List Piece) (i : Insertion) : Prop where
  start_eq : i.start = Text.byteSize (Piece.textOf kept)
  stop_eq : i.stop = i.start + Text.byteSize (Piece.textOf dropped)
  isIndent_dropped : ∀ p ∈ dropped, ∃ c, p = .blank c ∧ Text.isIndent c = true
  isBlank_blanks : ∀ c ∈ Piece.textOf blanks, isBlank c = true
  line_or_break : (dropped = [] ∧ ∀ c ∈ (Piece.textOf kept).getLast?, c = '\n') ∨
    (blanks = [] ∧ ∃ c ∈ i.text.head?, c = '\n' ∨ c = '\r')
  isIndent_lastLine : ∀ c ∈ Text.lastLine i.text, Text.isIndent c = true
  brace_mem : '\x7b' ∈ i.text

theorem Fits.insertion_eq {kept dropped blanks : List Piece} {i : Insertion}
    (h : Fits kept dropped blanks i) :
    i = ⟨Text.byteSize (Piece.textOf kept),
      Text.byteSize (Piece.textOf kept) + Text.byteSize (Piece.textOf dropped), i.text⟩ := by
  rw [← h.start_eq, ← h.stop_eq]

namespace Layout

theorem surround_withNewline {l : Layout} {o : Style} {as : List Accessor} (has : as ≠ [])
    (htrail : ∀ c ∈ l.trail, Text.isIndent c = true) {newline : Text}
    (hnewline : newline = ['\n'] ∨ newline = ['\r', '\n']) :
    (∀ c ∈ Text.lastLine ((l.surround (Accessor.printAll o as)).withNewline newline),
      Text.isIndent c = true) ∧
      '\x7b' ∈ (l.surround (Accessor.printAll o as)).withNewline newline ∧
      (l.lead.head? = some '\n' → ∃ c ∈ ((l.surround (Accessor.printAll o as)).withNewline
        newline).head?, c = '\n' ∨ c = '\r') := by
  obtain ⟨s, hs, hbrace⟩ := Accessor.exists_printAll o has
  have htrail' : '\n' ∉ l.trail := fun h => absurd (htrail _ h) (by decide)
  have hend : Text.lastLine (Text.withNewline ['\n'] newline) = [] := by
    obtain rfl | rfl := hnewline <;> rfl
  have hmem : '\n' ∈ Text.withNewline ['\n'] newline := by
    obtain rfl | rfl := hnewline <;> decide
  rw [surround, hs]
  refine ⟨?_, ?_, fun hlead => ?_⟩
  · simp only [Text.withNewline_append, Text.withNewline_of_not_mem htrail']
    rw [Text.lastLine_append_of_not_mem htrail', ← List.append_assoc,
      Text.lastLine_append_of_mem hmem, hend]
    exact htrail
  · exact Text.mem_withNewline (by simp [hbrace]) (by decide) newline
  · obtain ⟨t, ht⟩ := List.head?_eq_some_iff.1 hlead
    rw [ht]
    obtain rfl | rfl := hnewline
    · exact ⟨'\n', rfl, .inl rfl⟩
    · exact ⟨'\r', rfl, .inr rfl⟩

end Layout

namespace Enumeration

theorem added_eq {e : Enumeration} (h : e.decl.accessors = []) :
    e.change.added = e.decl.missing.map Accessor.name := by
  rw [change, Decl.accessors_complete, h, List.nil_append]

theorem insertion?_eq_none_iff {o : Options} {src : Text} {e : Enumeration} :
    e.insertion? o src = none ↔ e.decl.missing = [] := by
  have hchanged := Decl.complete_snd_iff (d := e.decl)
  rw [insertion?]
  dsimp only
  split
  · next h => simp [hchanged.1 h]
  · next h => simp [not_not.1 (mt hchanged.2 h)]

theorem insertion?_eq_some_iff {o : Options} {before behind : Text} {e : Enumeration}
    (hclose : e.closeOffset = Text.byteSize before) {i : Insertion} :
    e.insertion? o (before ++ behind) = some i ↔ e.decl.missing ≠ [] ∧
      ∃ layout newline, layout = Layout.ofBefore o e.memberIndent e.indent before ∧
        (newline = if (before ++ behind).hasCrlf then ['\r', '\n'] else ['\n']) ∧
        i = ⟨Text.byteSize layout.kept, Text.byteSize layout.kept + Text.byteSize layout.dropped,
          (layout.surround (Accessor.printAll ⟨layout.indent, o.unit, o.showAccess⟩
            (e.decl.accessors ++ e.decl.missing))).withNewline newline⟩ := by
  rw [← Decl.complete_snd_iff, ← Decl.accessors_complete, insertion?, hclose,
    Text.cutAt?_byteSize]
  dsimp only
  split
  · next h =>
    constructor
    · rintro ⟨⟩
      exact ⟨h, _, _, rfl, rfl, rfl⟩
    · rintro ⟨-, layout, newline, rfl, rfl, rfl⟩
      rfl
  · next h => simp [h]

end Enumeration

open Piece in
/-- The insertion for an enum fits among the pieces before its closing brace. -/
theorem exists_fits {o : Options} {as bs : List Piece} {e : Enumeration} {i : Insertion}
    (hps : Reads (as ++ .closingBrace :: bs) [])
    (hclose : e.closeOffset = Text.byteSize (textOf as))
    (hindent : ∀ c ∈ e.indent, Text.isIndent c = true)
    (hi : e.insertion? o (textOf (as ++ .closingBrace :: bs)) = some i) :
    ∃ kept dropped blanks, as = kept ++ (dropped ++ blanks) ∧ Fits kept dropped blanks i := by
  obtain ⟨has, -⟩ := reads_append.1 hps
  rw [textOf_append, Enumeration.insertion?_eq_some_iff hclose] at hi
  obtain ⟨hmissing, layout, newline, hlayout, hnewline, rfl⟩ := hi
  have haccessors : e.decl.accessors ++ e.decl.missing ≠ [] := by simp [hmissing]
  have hnewline' : newline = ['\n'] ∨ newline = ['\r', '\n'] := by
    rw [hnewline]
    split <;> simp
  unfold Layout.ofBefore at hlayout
  by_cases hline : (Text.lastLine (textOf as)).trim.isEmpty = true
  · -- the brace has its line to itself: nothing gives way in front of that line
    rw [if_pos hline] at hlayout
    have hblank := Text.trim_eq_nil_iff.1 (List.isEmpty_iff.1 hline)
    obtain ⟨kept, blanks, rfl, hkept, hblanks⟩ := has.exists_lineStart hblank
    obtain ⟨hlast, hbrace, -⟩ := Layout.surround_withNewline (l := layout)
      (o := ⟨layout.indent, o.unit, o.showAccess⟩) haccessors (by simp [hlayout]) hnewline'
    refine ⟨kept, [], blanks, rfl, ?_, ?_, by simp, ?_, .inl ⟨rfl, ?_⟩, hlast, hbrace⟩
    · rw [hlayout, hkept]
    · rw [hlayout]
      rfl
    · rw [hblanks]
      exact hblank
    · rw [hkept]
      exact Layout.getLast?_beforeLastLine _
  · -- the brace is moved to a line of its own: the indentation in front of it gives way
    rw [if_neg hline] at hlayout
    obtain ⟨kept, dropped, rfl, hkept, hdropped⟩ :=
      has.exists_indentEnd ⟨'\x7d', rfl, by decide⟩
    have hdrop : (textOf (kept ++ dropped)).drop (textOf kept).length = textOf dropped := by
      rw [textOf_append, List.drop_left]
    dsimp only at hlayout
    rw [← hkept, hdrop] at hlayout
    obtain ⟨hlast, hbrace, hhead⟩ := Layout.surround_withNewline (l := layout)
      (o := ⟨layout.indent, o.unit, o.showAccess⟩) haccessors (by simpa [hlayout] using hindent)
      hnewline'
    refine ⟨kept, dropped, [], by simp, ?_, ?_, hdropped, by simp, .inr ⟨rfl, hhead ?_⟩, hlast,
      hbrace⟩
    · rw [hlayout]
    · rw [hlayout]
    · rw [hlayout]
      rfl

end CaseAccessors
