import CaseAccessors.Proofs.InsertionPlace
import CaseAccessors.Proofs.Splice

/-! A source as a row of hunks, one for each enum that gains accessors, in the order of their
closing braces. Enums whose closing braces differ have hunks that do not overlap, since what gives
way to an insertion lies between its closing brace and any brace before that. -/
namespace CaseAccessors

open Piece

/-- The pieces behind an insertion up to the next one, and those that give way to it. -/
structure Hunk where
  enum : Enumeration
  dropped : List Piece
  inserted : Text
  kept : List Piece

namespace Hunk

def pieces (hs : List Hunk) : List Piece := hs.flatMap fun h => h.dropped ++ h.kept

def edits (h : Hunk) : List Edit :=
  [.replace (textOf h.dropped) h.inserted, .keep (textOf h.kept)]

/-- The text that the pieces `first` and the hunks behind them turn into. -/
def output (first : List Piece) (hs : List Hunk) : Text :=
  textOf first ++ hs.flatMap fun h => h.inserted ++ textOf h.kept

/-- Every hunk stands in front of the brace that closes its enum, with nothing but blanks between,
and its insertion fits there. -/
def Placed (before : List Piece) : List Hunk → Prop
  | [] => True
  | h :: hs =>
    (∃ blanks behind i, h.kept ++ pieces hs = blanks ++ .closingBrace :: behind ∧
      h.enum.closeOffset = Text.byteSize (textOf (before ++ (h.dropped ++ blanks))) ∧
      Fits before h.dropped blanks i ∧ i.text = h.inserted) ∧
    Placed (before ++ (h.dropped ++ h.kept)) hs

@[simp] theorem pieces_nil : pieces [] = [] := rfl

@[simp] theorem pieces_cons (h : Hunk) (hs : List Hunk) :
    pieces (h :: hs) = h.dropped ++ h.kept ++ pieces hs := rfl

theorem source_edits (hs : List Hunk) : Edit.source (hs.flatMap edits) = textOf (pieces hs) := by
  induction hs with
  | nil => rfl
  | cons h hs ih => simp [Edit.source, ih, edits]

theorem target_edits (first : List Piece) (hs : List Hunk) :
    textOf first ++ Edit.target (hs.flatMap edits) = output first hs := by
  rw [output, List.append_cancel_left_eq]
  induction hs with
  | nil => rfl
  | cons h hs ih => simp [Edit.target, ih, edits]

end Hunk

/-- The insertion for an enum among the pieces of the source. -/
structure Spot (o : Options) (ps : List Piece) (e : Enumeration) where
  kept : List Piece
  dropped : List Piece
  blanks : List Piece
  behind : List Piece
  insertion : Insertion
  pieces_eq : ps = kept ++ (dropped ++ blanks) ++ .closingBrace :: behind
  closeOffset_eq : e.closeOffset = Text.byteSize (textOf (kept ++ (dropped ++ blanks)))
  insertion?_eq : e.insertion? o (textOf ps) = some insertion
  fits : Fits kept dropped blanks insertion

theorem prefix_of_append_eq {α : Type} {kept blanks as mid : List α} {b : α}
    (h : kept ++ blanks = as ++ b :: mid) (hb : b ∉ blanks) : as ++ [b] <+: kept := by
  rw [List.append_cons] at h
  obtain ⟨t, ht, hblanks⟩ | ⟨t, rfl, -⟩ := List.append_eq_append_iff.1 h
  · cases t using List.reverseRecOn with
    | nil => exact ⟨[], by rw [ht]; simp⟩
    | append_singleton t c =>
      rw [← List.append_assoc] at ht
      obtain ⟨-, hc⟩ := List.append_inj' ht rfl
      rw [hblanks, (List.cons.inj hc).1] at hb
      simp at hb
  · exact List.prefix_append _ t

namespace Spot

variable {o : Options} {ps : List Piece} {e e' : Enumeration}

theorem closingBrace_not_mem (s : Spot o ps e) : .closingBrace ∉ s.dropped ++ s.blanks := by
  intro hmem
  rcases List.mem_append.1 hmem with h | h
  · obtain ⟨c, hc, -⟩ := s.fits.isIndent_dropped _ h
    cases hc
  · have hbrace : '\x7d' ∈ textOf s.blanks := List.mem_flatMap.2 ⟨_, h, List.mem_cons_self⟩
    exact absurd (s.fits.isBlank_blanks _ hbrace) (by decide)

/-- What an enum keeps begins with everything up to a brace that closes another enum before it. -/
theorem prefix_kept (s : Spot o ps e) (s' : Spot o ps e') (h : e.closeOffset < e'.closeOffset) :
    s.kept ++ (s.dropped ++ s.blanks) ++ [.closingBrace] <+: s'.kept := by
  have heq := s.pieces_eq.symm.trans s'.pieces_eq
  rw [s.closeOffset_eq, s'.closeOffset_eq] at h
  generalize s.kept ++ (s.dropped ++ s.blanks) = as at heq h ⊢
  obtain ⟨mid, hmid, htail⟩ | ⟨mid, rfl, -⟩ := List.append_eq_append_iff.1 heq
  · cases mid with
    | nil =>
      rw [List.append_nil] at hmid
      rw [hmid] at h
      omega
    | cons p mid =>
      obtain ⟨rfl, -⟩ := List.cons.inj htail
      exact prefix_of_append_eq hmid s'.closingBrace_not_mem
  · rw [textOf_append, Text.byteSize_append] at h
    omega

theorem start_lt (s : Spot o ps e) (s' : Spot o ps e') (h : e.closeOffset < e'.closeOffset) :
    s.insertion.start < s'.insertion.start := by
  obtain ⟨rest, hrest⟩ := s.prefix_kept s' h
  have hbrace : Text.byteSize (textOf [.closingBrace]) = 1 := rfl
  rw [s.fits.start_eq, s'.fits.start_eq, ← hrest]
  simp only [textOf_append, Text.byteSize_append, hbrace]
  omega

/-- Spots whose braces follow each other cut the source into hunks. -/
theorem exists_hunks {es : List Enumeration}
    (hes : es.Pairwise fun e e' => e.closeOffset < e'.closeOffset)
    (spot : ∀ e ∈ es, Nonempty (Spot o ps e)) {before rest : List Piece} (hps : ps = before ++ rest)
    (hbefore : ∀ e ∈ es, ∀ s : Spot o ps e, before <+: s.kept) :
    ∃ first hs, rest = first ++ Hunk.pieces hs ∧ hs.map Hunk.enum = es ∧
      Hunk.Placed (before ++ first) hs ∧
      Edit.insertions (Text.byteSize (textOf (before ++ first))) (hs.flatMap Hunk.edits) =
        es.filterMap (·.insertion? o (textOf ps)) := by
  induction es generalizing before rest with
  | nil => exact ⟨rest, [], by simp, rfl, trivial, rfl⟩
  | cons e es ih =>
    obtain ⟨hlater, hes⟩ := List.pairwise_cons.1 hes
    obtain ⟨s⟩ := spot e List.mem_cons_self
    obtain ⟨first, hfirst⟩ := hbefore e List.mem_cons_self s
    have hsplit := hps.symm.trans s.pieces_eq
    rw [← hfirst] at hsplit
    simp only [List.append_assoc, List.append_cancel_left_eq] at hsplit
    have hnext : ps = before ++ first ++ s.dropped ++ (s.blanks ++ .closingBrace :: s.behind) := by
      refine hps.trans ?_
      rw [hsplit]
      simp
    have hnext' : ∀ e' ∈ es, ∀ s' : Spot o ps e', before ++ first ++ s.dropped <+: s'.kept :=
      fun e' he' s' => by
        refine .trans ⟨s.blanks ++ [.closingBrace], ?_⟩ (s.prefix_kept s' (hlater e' he'))
        rw [hfirst]
        simp
    obtain ⟨kept, hs, hkept, henums, hplaced, hinsertions⟩ :=
      ih hes (fun e' he' => spot e' (List.mem_cons_of_mem e he')) hnext hnext'
    refine ⟨first, ⟨e, s.dropped, s.insertion.text, kept⟩ :: hs, ?_, ?_, ⟨?_, ?_⟩, ?_⟩
    · rw [hsplit, hkept]
      simp
    · rw [List.map_cons, henums]
    · refine ⟨s.blanks, s.behind, s.insertion, hkept.symm, ?_, ?_, rfl⟩
      · rw [s.closeOffset_eq, hfirst]
      · rw [hfirst]
        exact s.fits
    · simpa using hplaced
    · rw [List.filterMap_cons_some s.insertion?_eq, ← hinsertions, hfirst, List.flatMap_cons,
        s.fits.insertion_eq]
      simp [Hunk.edits, Edit.insertions, Nat.add_assoc]

end Spot

namespace Enumeration

def gains (e : Enumeration) : Bool := !e.change.added.isEmpty

theorem gains_iff {e : Enumeration} (h : e.decl.accessors = []) :
    e.gains = true ↔ e.decl.missing ≠ [] := by
  simp [gains, added_eq h]

theorem insertion?_of_not_gains {o : Options} {src : Text} {e : Enumeration}
    (h : e.decl.accessors = []) (hgains : e.gains = false) : e.insertion? o src = none := by
  rw [insertion?_eq_none_iff, ← not_not (a := e.decl.missing = []), ← ne_eq, ← gains_iff h, hgains]
  exact Bool.false_ne_true

end Enumeration

theorem filterMap_filter_of_none {α β : Type} {p : α → Bool} {f : α → Option β} {as : List α}
    (h : ∀ a ∈ as, p a = false → f a = none) : (as.filter p).filterMap f = as.filterMap f := by
  induction as with
  | nil => rfl
  | cons a as ih =>
    have ih := ih fun b hb => h b (List.mem_cons_of_mem a hb)
    cases hp : p a with
    | true => rw [List.filter_cons_of_pos hp, List.filterMap_cons, List.filterMap_cons, ih]
    | false =>
      rw [List.filter_cons_of_neg (by simp [hp]), ih,
        List.filterMap_cons_none (h a List.mem_cons_self hp)]

theorem exists_sorted_by_closeOffset {es : List Enumeration}
    (h : (es.map Enumeration.closeOffset).Nodup) :
    ∃ es' : List Enumeration, es'.Perm es ∧
      es'.Pairwise fun e e' => e.closeOffset < e'.closeOffset := by
  let le (e e' : Enumeration) : Bool := decide (e.closeOffset ≤ e'.closeOffset)
  have hperm : (es.mergeSort le).Perm es := List.mergeSort_perm es le
  have hle : (es.mergeSort le).Pairwise fun e e' => le e e' = true := by
    apply List.pairwise_mergeSort
    · intro _ _ _ hab hbc
      exact decide_eq_true (Nat.le_trans (of_decide_eq_true hab) (of_decide_eq_true hbc))
    · intro e e'
      simpa [le] using Nat.le_total e.closeOffset e'.closeOffset
  have hne : (es.mergeSort le).Pairwise fun e e' => e.closeOffset ≠ e'.closeOffset :=
    (hperm.pairwise_iff Ne.symm).2 (List.pairwise_map.1 h)
  exact ⟨_, hperm, (hle.and hne).imp fun ⟨hle, hne⟩ =>
    Nat.lt_of_le_of_ne (of_decide_eq_true hle) hne⟩

namespace Spot

theorem nonempty {o : Options} {ps : List Piece} {e : Enumeration} (hps : Reads ps [])
    (hbalanced : Balanced ((toTokens [] .start ps).map (·.kind)))
    (he : ∃ s ∈ Site.among [] (toTokens [] .start ps), s.enumeration (textOf ps) = .ok e)
    (hgains : e.gains = true) : Nonempty (Spot o ps e) := by
  obtain ⟨s, hs, hse⟩ := he
  obtain ⟨haccessors, hindent⟩ := Site.accessors_and_indent_of_enumeration hse
  obtain ⟨as, bs, rfl, -, hclose⟩ := exists_closingBrace hps hbalanced hs hse
  obtain ⟨i, hi⟩ : ∃ i, e.insertion? o (textOf (as ++ .closingBrace :: bs)) = some i := by
    simp only [textOf_append, Enumeration.insertion?_eq_some_iff hclose]
    exact ⟨_, (Enumeration.gains_iff haccessors).1 hgains, _, _, rfl, rfl, rfl⟩
  obtain ⟨kept, dropped, blanks, rfl, hfits⟩ := exists_fits hps hclose hindent hi
  exact ⟨kept, dropped, blanks, bs, i, rfl, hclose, hi, hfits⟩

theorem exists_of_mem_insertions {o : Options} {ps : List Piece} {enums : List Enumeration}
    (hps : Reads ps []) (hbalanced : Balanced ((toTokens [] .start ps).map (·.kind)))
    (hsites : ∀ e ∈ enums, ∃ s ∈ Site.among [] (toTokens [] .start ps),
      s.enumeration (textOf ps) = .ok e) {i : Insertion}
    (hi : i ∈ enums.filterMap (·.insertion? o (textOf ps))) :
    ∃ e ∈ enums, ∃ s : Spot o ps e, s.insertion = i := by
  obtain ⟨e, he, hei⟩ := List.mem_filterMap.1 hi
  obtain ⟨site, -, hsite⟩ := hsites e he
  have haccessors := (Site.accessors_and_indent_of_enumeration hsite).1
  cases hgains : e.gains with
  | false =>
    rw [Enumeration.insertion?_of_not_gains haccessors hgains] at hei
    cases hei
  | true =>
    obtain ⟨s⟩ := Spot.nonempty (o := o) hps hbalanced (hsites e he) hgains
    exact ⟨e, he, s, Option.some.inj (s.insertion?_eq.symm.trans hei)⟩

theorem pairwise_start {o : Options} {ps : List Piece} {es : List Enumeration}
    (hes : es.Pairwise fun e e' => e.closeOffset < e'.closeOffset)
    (hspot : ∀ e ∈ es, Nonempty (Spot o ps e)) :
    (es.filterMap (·.insertion? o (textOf ps))).Pairwise fun i j => i.start < j.start := by
  rw [List.pairwise_filterMap]
  refine hes.imp_of_mem fun he he' hlt i hi j hj => ?_
  obtain ⟨s⟩ := hspot _ he
  obtain ⟨s'⟩ := hspot _ he'
  obtain rfl := Option.some.inj (s.insertion?_eq.symm.trans hi)
  obtain rfl := Option.some.inj (s'.insertion?_eq.symm.trans hj)
  exact s.start_lt s' hlt

end Spot

theorem complete_eq_ok {o : Options} {src output : Text} {enums : List Enumeration}
    (h : readEnumerations src = .ok enums)
    (hout : Insertion.carryOutAll? (enums.filterMap (·.insertion? o src)) src = some output) :
    complete o src = .ok ⟨output, enums.map Enumeration.change⟩ := by
  rw [complete, h]
  change completeEnums o src enums = _
  rw [completeEnums, hout]

theorem exists_of_complete {o : Options} {src : Text} {c : Completion}
    (h : complete o src = .ok c) :
    ∃ enums, readEnumerations src = .ok enums ∧
      Insertion.carryOutAll? (enums.filterMap (·.insertion? o src)) src = some c.output ∧
      c.changes = enums.map Enumeration.change := by
  obtain ⟨enums, henums, h⟩ := exists_of_bind_eq_ok h
  cases hread : readEnumerations src with
  | error e =>
    rw [hread] at henums
    cases henums
  | ok es =>
    rw [hread] at henums
    obtain rfl := Except.ok.inj henums
    unfold completeEnums at h
    split at h
    · next output hout =>
      cases h
      exact ⟨es, rfl, hout, rfl⟩
    · cases h

/-- Completing a source in which no two bodies share their end, in terms of hunks. -/
theorem exists_hunks_of_readEnumerations (o : Options) {src : Text} {enums : List Enumeration}
    (h : readEnumerations src = .ok enums) (hdistinct : (enums.map Enumeration.closeOffset).Nodup) :
    ∃ first hs, src = textOf (first ++ Hunk.pieces hs) ∧ Reads (first ++ Hunk.pieces hs) [] ∧
      (hs.map Hunk.enum).Perm (enums.filter Enumeration.gains) ∧
      ((hs.map Hunk.enum).Pairwise fun e e' => e.closeOffset < e'.closeOffset) ∧
      Hunk.Placed first hs ∧
      (enums.filterMap (·.insertion? o src)).Perm
        (Edit.insertions (Text.byteSize (textOf first)) (hs.flatMap Hunk.edits)) ∧
      (Edit.insertions (Text.byteSize (textOf first)) (hs.flatMap Hunk.edits)).Pairwise
        (fun i j => i.start < j.start) ∧
      complete o src = .ok ⟨Hunk.output first hs, enums.map Enumeration.change⟩ := by
  obtain ⟨ps, rfl, hps, hbalanced, hread⟩ := exists_of_readEnumerations h
  obtain ⟨es, hperm, hsorted⟩ := exists_sorted_by_closeOffset
    (hdistinct.sublist ((List.filter_sublist (p := Enumeration.gains)).map _))
  have hspot : ∀ e ∈ es, Nonempty (Spot o ps e) := fun e he => by
    obtain ⟨he, hgains⟩ := List.mem_filter.1 (hperm.mem_iff.1 he)
    exact Spot.nonempty hps hbalanced (hread e he) hgains
  obtain ⟨first, hs, rfl, henums, hplaced, hinsertions⟩ := Spot.exists_hunks hsorted hspot
    (List.nil_append ps).symm fun _ _ _ => List.nil_prefix
  have hstarts := Spot.pairwise_start hsorted hspot
  rw [List.nil_append] at hplaced hinsertions
  rw [← hinsertions] at hstarts
  have hall : (enums.filterMap (·.insertion? o (textOf (first ++ Hunk.pieces hs)))).Perm
      (Edit.insertions (Text.byteSize (textOf first)) (hs.flatMap Hunk.edits)) := by
    rw [hinsertions, ← filterMap_filter_of_none fun e he => ?_]
    · exact hperm.symm.filterMap _
    · obtain ⟨s, -, hs⟩ := hread e he
      exact Enumeration.insertion?_of_not_gains (Site.accessors_and_indent_of_enumeration hs).1
  have hfirst : Edit.insertions 0 (.keep (textOf first) :: hs.flatMap Hunk.edits) =
      Edit.insertions (Text.byteSize (textOf first)) (hs.flatMap Hunk.edits) := by
    rw [Edit.insertions, Nat.zero_add]
  have hout := Insertion.carryOutAll?_eq (hfirst ▸ hall) (hfirst ▸ hstarts)
  rw [Edit.source, Edit.target, Hunk.source_edits, Hunk.target_edits, ← textOf_append] at hout
  exact ⟨first, hs, rfl, hps, henums ▸ hperm, henums ▸ hsorted, hplaced, hall, hstarts,
    complete_eq_ok h hout⟩

end CaseAccessors
