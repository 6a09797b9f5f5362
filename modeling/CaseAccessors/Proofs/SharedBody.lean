import CaseAccessors.Proofs.BoundedCompletion

/-! Enums that share a body, as two `enum` words in front of one name do. Their insertions have one
place, and the one carried out first moves what the other is to replace. Where nothing gives way at
a place, every insertion replaces whole characters of the source and stays clear of the others. -/
namespace CaseAccessors

namespace Insertion

/-- The insertion replaces whole characters of a text. -/
def FitsIn (i : Insertion) (s : Text) : Prop :=
  ∃ before dropped after, s = before ++ (dropped ++ after) ∧ i.start = Text.byteSize before ∧
    i.stop = i.start + Text.byteSize dropped

/-- Insertions at one place replace nothing there. -/
def Apart (i j : Insertion) : Prop := i.start = j.start → i.stop = i.start ∧ j.stop = j.start

instance : DecidableRel Apart := fun i j => by
  unfold Apart
  infer_instance

theorem FitsIn.of_stop_le {i : Insertion} {before after : Text} (h : i.FitsIn (before ++ after))
    (hle : i.stop ≤ Text.byteSize before) (after' : Text) : i.FitsIn (before ++ after') := by
  obtain ⟨b, d, a, heq, hstart, hstop⟩ := h
  rw [← List.append_assoc] at heq
  obtain ⟨t, hbd, -⟩ | ⟨t, rfl, -⟩ := List.append_eq_append_iff.1 heq
  · -- the place ends behind the first part unless it ends with it
    have hsize := congrArg Text.byteSize hbd
    rw [Text.byteSize_append, Text.byteSize_append] at hsize
    obtain rfl : t = [] := Text.byteSize_eq_zero_iff.1 (by omega)
    rw [List.append_nil] at hbd
    exact ⟨b, d, after', by rw [← hbd, List.append_assoc], hstart, hstop⟩
  · exact ⟨b, d, t ++ after', by simp, hstart, hstop⟩

/-- Insertions that are carried out from the last to the first never meet a cut character. -/
theorem exists_carriedOut {is : List Insertion} (hclear : is.Pairwise fun i j => j.stop ≤ i.start)
    {s : Text} (hfits : ∀ i ∈ is, i.FitsIn s) :
    ∃ s', is.foldlM (fun s i => i.carryOut? s) s = some s' := by
  induction is generalizing s with
  | nil => exact ⟨s, rfl⟩
  | cons i is ih =>
    obtain ⟨hlater, hclear⟩ := List.pairwise_cons.1 hclear
    obtain ⟨before, dropped, after, rfl, hstart, hstop⟩ := hfits i List.mem_cons_self
    have hi : i = ⟨Text.byteSize before, Text.byteSize before + Text.byteSize dropped, i.text⟩ := by
      rw [← hstart, ← hstop]
    obtain ⟨s', hs'⟩ := ih hclear (s := before ++ (i.text ++ after)) fun j hj =>
      (hfits j (List.mem_cons_of_mem i hj)).of_stop_le (hstart ▸ hlater j hj) _
    refine ⟨s', ?_⟩
    rw [List.foldlM_cons, hi, carryOut?_append, List.append_assoc]
    exact hs'

end Insertion

namespace Layout

theorem ofBefore_place (o : Options) (m m' : Option Text) (d d' before : Text) :
    (ofBefore o m d before).kept = (ofBefore o m' d' before).kept ∧
      (ofBefore o m d before).dropped = (ofBefore o m' d' before).dropped := by
  dsimp only [ofBefore]
  split <;> exact ⟨rfl, rfl⟩

end Layout

namespace Spot

variable {o : Options} {ps : List Piece} {e e' : Enumeration}

theorem fitsIn (s : Spot o ps e) : s.insertion.FitsIn (Piece.textOf ps) := by
  refine ⟨Piece.textOf s.kept, Piece.textOf s.dropped,
    Piece.textOf (s.blanks ++ .closingBrace :: s.behind), ?_, s.fits.start_eq, s.fits.stop_eq⟩
  rw [← Piece.textOf_append, ← Piece.textOf_append]
  exact congrArg Piece.textOf (s.pieces_eq.trans (by simp))

theorem stop_le (s : Spot o ps e) (s' : Spot o ps e') (h : e.closeOffset < e'.closeOffset) :
    s.insertion.stop ≤ s'.insertion.start := by
  obtain ⟨rest, hrest⟩ := s.prefix_kept s' h
  rw [s.fits.stop_eq, s.fits.start_eq, s'.fits.start_eq, ← hrest]
  simp only [Piece.textOf_append, Text.byteSize_append]
  omega

theorem start_eq (s : Spot o ps e) (s' : Spot o ps e') (h : e.closeOffset = e'.closeOffset) :
    s.insertion.start = s'.insertion.start := by
  have hsrc := congrArg Piece.textOf s.pieces_eq
  have hi := s.insertion?_eq
  have hj := s'.insertion?_eq
  rw [Piece.textOf_append] at hsrc
  rw [hsrc, Enumeration.insertion?_eq_some_iff s.closeOffset_eq] at hi
  rw [hsrc, Enumeration.insertion?_eq_some_iff (h ▸ s.closeOffset_eq)] at hj
  obtain ⟨-, layout, _, hlayout, -, hi⟩ := hi
  obtain ⟨-, layout', _, hlayout', -, hj⟩ := hj
  rw [hi, hj, hlayout, hlayout', (Layout.ofBefore_place o e.memberIndent e'.memberIndent e.indent
    e'.indent _).1]

theorem stop_le_of_start_le (s : Spot o ps e) (s' : Spot o ps e')
    (hapart : s.insertion.Apart s'.insertion) (h : s.insertion.start ≤ s'.insertion.start) :
    s.insertion.stop ≤ s'.insertion.start := by
  rcases Nat.lt_trichotomy e.closeOffset e'.closeOffset with hlt | heq | hgt
  · exact s.stop_le s' hlt
  · have hstart := s.start_eq s' heq
    rw [(hapart hstart).1]
    exact h
  · exact absurd (s'.start_lt s hgt) (Nat.not_lt.2 h)

end Spot

theorem Insertion.pairwise_stop_le {o : Options} {ps : List Piece} {is : List Insertion}
    {enums : List Enumeration} (hapart : is.Pairwise Apart)
    (hspot : ∀ i ∈ is, ∃ e ∈ enums, ∃ s : Spot o ps e, s.insertion = i) :
    (latestFirst is).Pairwise fun i j => j.stop ≤ i.start := by
  have hperm := latestFirst_perm is
  have hsymm : ∀ {i j : Insertion}, i.Apart j → j.Apart i := fun h hstart => (h hstart.symm).symm
  have hapart : (latestFirst is).Pairwise Apart := (hperm.pairwise_iff hsymm).2 hapart
  refine ((pairwise_latestFirst is).and hapart).imp_of_mem fun hi hj ⟨hle, hij⟩ => ?_
  obtain ⟨e, -, s, rfl⟩ := hspot _ (hperm.mem_iff.1 hi)
  obtain ⟨e', -, s', rfl⟩ := hspot _ (hperm.mem_iff.1 hj)
  exact s'.stop_le_of_start_le s (hsymm hij) hle

/-- Unless blanks give way at a place that enums share, completing fails for an unreadable source
and for an output with too many bytes only: what the insertions for the enums replace are whole
characters of the source, no two of them overlap, and all of them are carried out. -/
theorem completeBounded_of_apart (o : Options) (src : Text)
    (hapart : ∀ enums, readEnumerations src = .ok enums →
      (enums.filterMap (·.insertion? o src)).Pairwise Insertion.Apart) :
    (∃ e, readEnumerations src = .error e ∧ completeBounded o src = .error (.source e)) ∨
    ∃ enums output, readEnumerations src = .ok enums ∧
      complete o src = .ok ⟨output, enums.map Enumeration.change⟩ ∧
      completeBounded o src =
        (if Text.byteSize output ≤ Text.maxSize then .ok ⟨output, enums.map Enumeration.change⟩
        else .error (.panic .capacity)) ∧
      (∀ i ∈ enums.filterMap (·.insertion? o src), i.FitsIn src) ∧
      (enums.filterMap (·.insertion? o src)).Pairwise
        fun i j => i.stop ≤ j.start ∨ j.stop ≤ i.start := by
  cases hread : readEnumerations src with
  | error e => exact .inl ⟨e, rfl, completeBounded_of_source_error hread⟩
  | ok enums =>
    have hapart := hapart enums hread
    obtain ⟨ps, rfl, hps, hbalanced, hsites⟩ := exists_of_readEnumerations hread
    have hspot : ∀ i ∈ enums.filterMap (·.insertion? o (Piece.textOf ps)),
        ∃ e ∈ enums, ∃ s : Spot o ps e, s.insertion = i :=
      fun i hi => Spot.exists_of_mem_insertions hps hbalanced hsites hi
    have hfits : ∀ i ∈ enums.filterMap (·.insertion? o (Piece.textOf ps)),
        i.FitsIn (Piece.textOf ps) := fun i hi => by
      obtain ⟨e, -, s, rfl⟩ := hspot i hi
      exact s.fitsIn
    have hclear := Insertion.pairwise_stop_le hapart hspot
    have hperm := Insertion.latestFirst_perm (enums.filterMap (·.insertion? o (Piece.textOf ps)))
    obtain ⟨output, hout⟩ := Insertion.exists_carriedOut hclear fun i hi =>
      hfits i (hperm.mem_iff.1 hi)
    have hcomplete := complete_eq_ok hread hout
    refine .inr ⟨enums, output, rfl, hcomplete, completeBounded_eq hcomplete, hfits, ?_⟩
    exact (hperm.pairwise_iff Or.symm).1 (hclear.imp Or.inr)

/-- Two enums that share a body whose brace has a line to itself. -/
theorem completeBounded_of_apart_shared :
    let src : Text := "enum enum A \x7b\n    case é\n\x7d".toList
    (∀ enums, readEnumerations src = .ok enums →
      (enums.filterMap (·.insertion? .default src)).Pairwise Insertion.Apart) ∧
    ∃ c, completeBounded .default src = .ok c ∧
        c.changes.map Change.added = [[['é']], [['é']]] := by
  intro src
  have hread : (readEnumerations src).toOption.map (fun enums =>
      decide ((enums.filterMap (·.insertion? .default src)).Pairwise Insertion.Apart)) =
        some true := by decide +kernel
  have hchanges : (complete .default src).toOption.map (fun c =>
      (decide (Text.byteSize c.output ≤ Text.maxSize), c.changes.map Change.added)) =
        some (true, [[['é']], [['é']]]) := by decide +kernel
  have hapart : ∀ enums, readEnumerations src = .ok enums →
      (enums.filterMap (·.insertion? .default src)).Pairwise Insertion.Apart := fun enums h => by
    rw [h] at hread
    exact of_decide_eq_true (Option.some.inj hread)
  obtain ⟨e, he, -⟩ | ⟨enums, output, -, hout, hbounded, -⟩ :=
    completeBounded_of_apart .default src hapart
  · rw [he] at hread
    cases hread
  · rw [hout] at hchanges
    obtain ⟨hroom, hadded⟩ := Prod.mk.inj (Option.some.inj hchanges)
    exact ⟨hapart, _, hbounded.trans (if_pos (of_decide_eq_true hroom)), hadded⟩

/-- Blanks give way where two enums share the end of their body: the second insertion is to replace
a part of what the first one put there, and that part ends inside a character. -/
theorem overlap_of_shared :
    completeBounded .default "enum enum A \x7b case é           \x7d".toList =
      .error (.panic .overlap) := by
  decide +kernel

end CaseAccessors
