import CaseAccessors.Proofs.AppendCompletion
import CaseAccessors.Proofs.InsertOnly

/-! A completion that adds accessors changes the text, however the insertions meet. The one at the
first place is carried out last, into a text that is still the source up to there. From there on the
source shows a closing brace first, and the accessors show a word. -/
namespace CaseAccessors

namespace Text

def firstVisible? (s : Text) : Option Char := s.find? (!isBlank ·)

theorem firstVisible?_append {s : Text} (h : ∀ c ∈ s, isBlank c = true) (t : Text) :
    firstVisible? (s ++ t) = firstVisible? t := by
  have hnone : s.find? (!isBlank ·) = none := List.find?_eq_none.2 (by simpa using h)
  rw [firstVisible?, List.find?_append, hnone, Option.none_or, firstVisible?]

theorem firstVisible?_append_of_some {s : Text} {c : Char} (h : firstVisible? s = some c)
    (t : Text) :
    firstVisible? (s ++ t) = some c := by
  rw [firstVisible?, List.find?_append, ← firstVisible?, h, Option.some_or]

theorem firstVisible?_withNewline {newline : Text} (h : ∀ c ∈ newline, isBlank c = true)
    (s : Text) :
    firstVisible? (withNewline s newline) = firstVisible? s := by
  induction s with
  | nil => rfl
  | cons c s ih =>
    by_cases hc : c = '\n'
    · subst hc
      rw [withNewline_newline, firstVisible?_append h, ih]
      rfl
    · rw [withNewline_cons_of_ne hc, firstVisible?, List.find?_cons, ← firstVisible?, ih]
      rfl

end Text

open Text (firstVisible? firstVisible?_append firstVisible?_append_of_some)

namespace Accessor

theorem firstVisible?_header (st : Style) (a : Accessor) :
    ∃ c, firstVisible? (a.header st) = some c ∧ c ≠ '\x7d' := by
  unfold header
  cases a.access with
  | none => exact ⟨'v', rfl, by decide⟩
  | some level =>
    cases st.showAccess with
    | false => exact ⟨'v', rfl, by decide⟩
    | true => cases level <;> exact ⟨_, rfl, by decide⟩

theorem firstVisible?_printAll (st : Style) (hindent : ∀ c ∈ st.indent, isBlank c = true)
    {as : List Accessor} (has : as ≠ []) :
    ∃ c, firstVisible? (printAll st as) = some c ∧ c ≠ '\x7d' := by
  obtain ⟨a, as, rfl⟩ := List.exists_cons_of_ne_nil has
  obtain ⟨c, hc, hne⟩ := a.firstVisible?_header st
  obtain ⟨rest, hrest⟩ : ∃ rest, a.print st = st.indent ++ (a.header st ++ rest) :=
    ⟨_, by simp only [print, Style.line, List.replicate_zero, List.flatten_nil, List.append_nil,
      List.append_assoc]; rfl⟩
  have hone : firstVisible? (a.print st) = some c := by
    rw [hrest, firstVisible?_append hindent, firstVisible?_append_of_some hc]
  refine ⟨c, ?_, hne⟩
  cases as with
  | nil => exact hone
  | cons b as =>
    rw [printAll, List.map_cons, List.map_cons, Text.joinWith_cons_cons, List.append_assoc,
      firstVisible?_append_of_some hone]

end Accessor

namespace Layout

theorem isIndent_of_mem_indent {o : Options} {m : Option Text} {d before : Text}
    (hm : ∀ s ∈ m, ∀ c ∈ s, Text.isIndent c = true) (hd : ∀ c ∈ d, Text.isIndent c = true) :
    ∀ c ∈ (ofBefore o m d before).indent, Text.isIndent c = true := by
  have hline : ∀ c ∈ (Text.lastLine before).takeWhile Text.isIndent, Text.isIndent c = true :=
    List.all_eq_true.1 List.all_takeWhile
  have hget : ∀ s : Text, (∀ c ∈ s, Text.isIndent c = true) →
      ∀ c ∈ m.getD (s ++ o.unit), Text.isIndent c = true := by
    intro s hs c hc
    cases m with
    | some t => exact hm t rfl c hc
    | none => exact (List.mem_append.1 hc).elim (hs c) (o.isIndent_of_mem_unit c)
  unfold ofBefore
  dsimp only
  split
  · exact hget _ hline
  · exact hget d hd

theorem isBlank_lead (o : Options) (m : Option Text) (d before : Text) :
    ∀ c ∈ (ofBefore o m d before).lead, isBlank c = true := by
  unfold ofBefore
  dsimp only
  split
  · dsimp only
    split <;> simp [isBlank]
  · simp [isBlank]

end Layout

namespace Insertion

theorem exists_of_carryOut? {i : Insertion} {before rest s : Text}
    (hle : Text.byteSize before ≤ i.start)
    (h : i.carryOut? (before ++ rest) = some s) : ∃ rest', s = before ++ rest' := by
  obtain ⟨⟨front, behind⟩, hstart, h⟩ := Option.bind_eq_some_iff.1 h
  obtain ⟨⟨dropped, after⟩, -, h⟩ := Option.bind_eq_some_iff.1 h
  obtain rfl := Option.some.inj h
  obtain ⟨n, hn⟩ := Nat.exists_eq_add_of_le hle
  rw [hn, Text.cutAt?_add] at hstart
  obtain ⟨⟨front', behind'⟩, -, heq⟩ := Option.map_eq_some_iff.1 hstart
  obtain ⟨rfl, rfl⟩ := Prod.mk.inj heq
  exact ⟨front' ++ (i.text ++ after), by simp⟩

theorem exists_of_carryOut?_at {i : Insertion} {before rest s : Text}
    (hstart : Text.byteSize before = i.start)
    (h : i.carryOut? (before ++ rest) = some s) : ∃ rest', s = before ++ (i.text ++ rest') := by
  obtain ⟨⟨front, behind⟩, hcut, hrest⟩ := Option.bind_eq_some_iff.1 h
  obtain ⟨⟨dropped, after⟩, -, hs⟩ := Option.bind_eq_some_iff.1 hrest
  rw [← hstart, Text.cutAt?_byteSize] at hcut
  obtain ⟨rfl, rfl⟩ := Prod.mk.inj (Option.some.inj hcut)
  exact ⟨after, by rw [← List.append_assoc]; exact (Option.some.inj hs).symm⟩

theorem exists_of_foldlM_carryOut? {is : List Insertion} {before rest s : Text}
    (hle : ∀ i ∈ is, Text.byteSize before ≤ i.start)
    (h : is.foldlM (fun s (i : Insertion) => i.carryOut? s) (before ++ rest) = some s) :
    ∃ rest', s = before ++ rest' := by
  induction is generalizing rest with
  | nil => exact ⟨rest, (Option.some.inj h).symm⟩
  | cons i is ih =>
    rw [List.foldlM_cons] at h
    obtain ⟨s', hfirst, h⟩ := Option.bind_eq_some_iff.1 h
    obtain ⟨rest', rfl⟩ := exists_of_carryOut? (hle i List.mem_cons_self) hfirst
    exact ih (fun j hj => hle j (List.mem_cons_of_mem i hj)) h

theorem exists_of_carryOutAll? {is : List Insertion} (his : is ≠ []) {src output : Text}
    (hplaces : ∀ i ∈ is, ∃ before rest, src = before ++ rest ∧ Text.byteSize before = i.start)
    (h : carryOutAll? is src = some output) :
    ∃ i ∈ is, ∃ before rest rest', src = before ++ rest ∧ Text.byteSize before = i.start ∧
      output = before ++ (i.text ++ rest') := by
  have hperm := latestFirst_perm is
  have hsorted := pairwise_latestFirst is
  obtain heq | ⟨front, i, heq⟩ := List.eq_nil_or_concat (latestFirst is)
  · rw [heq] at hperm
    exact absurd hperm.symm.eq_nil his
  · rw [List.concat_eq_append] at heq
    have hi : i ∈ is := hperm.mem_iff.1 (by simp [heq])
    obtain ⟨before, rest, rfl, hsize⟩ := hplaces i hi
    rw [heq, List.pairwise_append] at hsorted
    obtain ⟨-, -, hfront⟩ := hsorted
    rw [carryOutAll?, heq, List.foldlM_append] at h
    obtain ⟨s, hs, hlast⟩ := Option.bind_eq_some_iff.1 h
    obtain ⟨rest₁, rfl⟩ := exists_of_foldlM_carryOut?
      (fun j hj => hsize ▸ hfront j hj i (List.mem_singleton.2 rfl)) hs
    rw [List.foldlM_cons, Option.bind_eq_bind] at hlast
    obtain ⟨s', hi', heq'⟩ := Option.bind_eq_some_iff.1 hlast
    obtain rfl := Option.some.inj heq'
    obtain ⟨rest', rfl⟩ := exists_of_carryOut?_at hsize hi'
    exact ⟨i, hi, before, rest, rest', rfl, hsize, rfl⟩

end Insertion

open Piece in
theorem Spot.exists_firstVisible? {o : Options} {ps : List Piece} {e : Enumeration}
    (s : Spot o ps e) :
    ∃ before rest, textOf ps = before ++ rest ∧ Text.byteSize before = s.insertion.start ∧
      firstVisible? rest = some '\x7d' := by
  refine ⟨textOf s.kept, textOf s.dropped ++ (textOf s.blanks ++ '\x7d' :: textOf s.behind), ?_,
    s.fits.start_eq.symm, ?_⟩
  · exact (congrArg textOf s.pieces_eq).trans (by simp [textOf, Piece.text])
  · rw [firstVisible?_append fun c hc =>
        Text.isBlank_of_isIndent (Hunk.isIndent_of_mem_textOf s.fits.isIndent_dropped c hc),
      firstVisible?_append s.fits.isBlank_blanks]
    rfl

namespace Enumeration

/-- What is inserted for an enum shows a word first. -/
theorem firstVisible?_insertion {o : Options} {e : Enumeration} {before behind : Text}
    (hclose : e.closeOffset = Text.byteSize before)
    (hmember : ∀ m ∈ e.memberIndent, ∀ c ∈ m, Text.isIndent c = true)
    (hindent : ∀ c ∈ e.indent, Text.isIndent c = true) {i : Insertion}
    (hi : e.insertion? o (before ++ behind) = some i) :
    ∃ c, firstVisible? i.text = some c ∧ c ≠ '\x7d' := by
  obtain ⟨hmissing, layout, newline, rfl, hnewline, rfl⟩ := (insertion?_eq_some_iff hclose).1 hi
  have haccessors : e.decl.accessors ++ e.decl.missing ≠ [] := by simp [hmissing]
  have hblank : ∀ c ∈ newline, isBlank c = true := by
    rw [hnewline]
    split <;> simp [isBlank]
  have hstyle : ∀ c ∈ (Layout.ofBefore o e.memberIndent e.indent before).indent, isBlank c = true :=
    fun c hc => Text.isBlank_of_isIndent (Layout.isIndent_of_mem_indent hmember hindent c hc)
  obtain ⟨c, hc, hne⟩ := Accessor.firstVisible?_printAll
    ⟨(Layout.ofBefore o e.memberIndent e.indent before).indent, o.unit, o.showAccess⟩ hstyle
      haccessors
  refine ⟨c, ?_, hne⟩
  dsimp only
  rw [Text.firstVisible?_withNewline hblank, Layout.surround, List.append_assoc,
    firstVisible?_append (Layout.isBlank_lead o _ _ _), firstVisible?_append_of_some hc]

end Enumeration

theorem Site.isIndent_memberIndent_of_enumeration {s : Site} {src : Text} {e : Enumeration}
    (h : s.enumeration src = .ok e) : ∀ m ∈ e.memberIndent, ∀ c ∈ m, Text.isIndent c = true := by
  obtain ⟨brace, g, b, -, -, rfl⟩ := enumeration_eq_ok_iff.1 h
  intro m hm c hc
  obtain ⟨t, -, rfl⟩ := Option.map_eq_some_iff.1 hm
  exact Text.isIndent_of_mem_lineIndent? hc

namespace Spot

variable {o : Options} {ps : List Piece} {e : Enumeration}

theorem firstVisible?_text (s : Spot o ps e)
    (he : ∃ s ∈ Site.among [] (Piece.toTokens [] .start ps),
      s.enumeration (Piece.textOf ps) = .ok e) :
    ∃ c, firstVisible? s.insertion.text = some c ∧ c ≠ '\x7d' := by
  obtain ⟨site, -, hsite⟩ := he
  have hsrc := (congrArg Piece.textOf s.pieces_eq).trans (Piece.textOf_append _ _)
  have hi := s.insertion?_eq
  rw [hsrc] at hi
  exact Enumeration.firstVisible?_insertion s.closeOffset_eq
    (Site.isIndent_memberIndent_of_enumeration hsite)
    (Site.accessors_and_indent_of_enumeration hsite).2 hi

end Spot

/-- A completion that adds accessors gives another text. -/
theorem output_ne_of_changed {o : Options} {src : Text} {c : Completion}
    (h : complete o src = .ok c) (hchanged : c.changed = true) : c.output ≠ src := by
  obtain ⟨enums, hread, hout, hchanges⟩ := exists_of_complete h
  obtain ⟨ps, rfl, hps, hbalanced, hsites⟩ := exists_of_readEnumerations hread
  have his : enums.filterMap (·.insertion? o (Piece.textOf ps)) ≠ [] := by
    obtain ⟨e, he, hgains⟩ : ∃ e ∈ enums, e.gains = true := by
      rw [Completion.changed, hchanges, List.any_map, List.any_eq_true] at hchanged
      exact hchanged
    obtain ⟨s⟩ := Spot.nonempty (o := o) hps hbalanced (hsites e he) hgains
    exact List.ne_nil_of_mem (List.mem_filterMap.2 ⟨e, he, s.insertion?_eq⟩)
  -- the last insertion to be carried out begins where the source shows a closing brace
  obtain ⟨i, hi, before, rest, rest', hsrc, hsize, houtput⟩ :=
    Insertion.exists_of_carryOutAll? his (fun i hi => by
      obtain ⟨e, -, s, rfl⟩ := Spot.exists_of_mem_insertions hps hbalanced hsites hi
      obtain ⟨before, rest, hsrc, hsize, -⟩ := s.exists_firstVisible?
      exact ⟨before, rest, hsrc, hsize⟩) hout
  obtain ⟨e, he, s, rfl⟩ := Spot.exists_of_mem_insertions hps hbalanced hsites hi
  obtain ⟨before', behind, hsrc', hsize', hbrace⟩ := s.exists_firstVisible?
  obtain ⟨c', hc', hne⟩ := s.firstVisible?_text (hsites e he)
  intro heq
  have hcut := (Text.cutAt?_byteSize before' behind).symm
  rw [← hsrc', ← heq, houtput, hsize', ← hsize, Text.cutAt?_byteSize] at hcut
  obtain ⟨-, rfl⟩ := Prod.mk.inj (Option.some.inj hcut)
  rw [firstVisible?_append_of_some hc'] at hbrace
  exact hne (Option.some.inj hbrace)

end CaseAccessors
