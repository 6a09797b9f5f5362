import CaseAccessors.Proofs.Evaluation
import CaseAccessors.Proofs.TypeText
import CaseAccessors.Proofs.VisibleChange

/-! Line ends. A source whose line feeds all follow carriage returns is completed to such a text:
nothing is inserted between the two, and what is inserted has line ends of that kind. A source
without carriage returns is completed to a text without them, since what is printed takes all but
its own marks from names and types of the source. -/
namespace CaseAccessors

namespace Text

/-- Every line feed follows a carriage return. -/
def IsCrlf (s : Text) : Prop :=
  ∀ before after, s = before ++ '\n' :: after → before.getLast? = some '\r'

theorem isCrlf_of_not_mem {s : Text} (h : '\n' ∉ s) : IsCrlf s := by
  rintro before after rfl
  exact absurd (List.mem_append_right before List.mem_cons_self) h

namespace IsCrlf

variable {s t : Text}

theorem append (hs : IsCrlf s) (ht : IsCrlf t) : IsCrlf (s ++ t) := by
  intro before after h
  obtain ⟨m, rfl, rfl⟩ | ⟨m, rfl, hm⟩ := List.append_eq_append_iff.1 h
  · have hm := ht m after rfl
    rw [List.getLast?_append, hm, Option.some_or]
  · obtain ⟨rfl, rfl⟩ | ⟨m, rfl, -⟩ := List.cons_eq_append_iff.1 hm
    · have := ht [] after rfl
      cases this
    · exact hs before m rfl

theorem of_append_left (h : IsCrlf (s ++ t)) : IsCrlf s := by
  rintro before after rfl
  exact h before (after ++ t) (by simp)

theorem of_append_right (h : IsCrlf (s ++ t)) (ht : t.head? ≠ some '\n') : IsCrlf t := by
  rintro before after rfl
  have hbefore : before ≠ [] := by
    rintro rfl
    exact ht rfl
  have hlast := h (s ++ before) after (by simp)
  rwa [List.getLast?_append_of_ne_nil _ hbefore] at hlast

end IsCrlf

theorem isCrlf_withNewline (s : Text) : IsCrlf (s.withNewline ['\r', '\n']) := by
  induction s with
  | nil => exact isCrlf_of_not_mem (by simp [withNewline])
  | cons c s ih =>
    by_cases hc : c = '\n'
    · have hbreak : IsCrlf ['\r', '\n'] := by
        rintro (_ | ⟨b, _ | ⟨c, before⟩⟩) after h
        · cases h
        · cases h
          rfl
        · simp at h
      rw [hc, withNewline_newline]
      exact hbreak.append ih
    · rw [withNewline_cons_of_ne hc]
      exact (isCrlf_of_not_mem (s := [c]) (by simpa using Ne.symm hc)).append ih

theorem notMem_withNewline {c : Char} {s newline : Text} (hs : c ∉ s) (hnewline : c ∉ newline) :
    c ∉ s.withNewline newline := by
  intro h
  obtain ⟨d, hd, h⟩ := List.mem_flatMap.1 h
  split at h
  · exact hnewline h
  · exact hs (List.mem_singleton.1 h ▸ hd)

theorem hasCrlf_iff {s : Text} : s.hasCrlf = true ↔ ['\r', '\n'] <:+: s := by
  fun_induction hasCrlf s with
  | case1 s => exact iff_of_true rfl ⟨[], s, rfl⟩
  | case2 c s hno ih =>
    rw [ih, List.infix_cons_iff]
    refine ⟨.inr, fun h => h.resolve_left ?_⟩
    rintro ⟨t, ht⟩
    obtain ⟨rfl, rfl⟩ := List.cons.inj ht
    exact hno t rfl rfl
  | case3 => simp

theorem IsCrlf.hasCrlf {s : Text} (h : IsCrlf s) (hmem : '\n' ∈ s) : s.hasCrlf = true := by
  obtain ⟨before, after, rfl⟩ := List.append_of_mem hmem
  obtain ⟨front, rfl⟩ := List.getLast?_eq_some_iff.1 (h before after rfl)
  exact hasCrlf_iff.2 ⟨front, after, by simp⟩

theorem hasCrlf_of_not_mem {s : Text} (h : '\r' ∉ s) : s.hasCrlf = false := by
  rw [Bool.eq_false_iff, ne_eq, hasCrlf_iff]
  exact fun hbreak => h (hbreak.subset List.mem_cons_self)

end Text

namespace Hunk

open Piece Text

theorem head?_kept {before behind : List Piece} {h : Hunk} {hs : List Hunk} {blanks : List Piece}
    {i : Insertion} (hkept : h.kept ++ pieces hs = blanks ++ .closingBrace :: behind)
    (hfits : Fits before h.dropped blanks i)
    (hsrc : IsCrlf (textOf (before ++ (h.dropped ++ h.kept)))) :
    (textOf h.kept).head? ≠ some '\n' := by
  intro hhead
  obtain ⟨rest, hrest⟩ := List.head?_eq_some_iff.1 hhead
  obtain ⟨hdropped, hline⟩ | ⟨rfl, -⟩ := hfits.line_or_break
  · -- a line feed behind a line end would follow no carriage return
    have hreturn : (textOf before).getLast? = some '\r' := by
      refine hsrc _ rest ?_
      rw [hdropped, List.nil_append, textOf_append, hrest]
    exact absurd (hline '\r' hreturn) (by decide)
  · obtain ⟨hnil, -⟩ | ⟨k, hk, -⟩ := List.append_eq_cons_iff.1 hkept
    · rw [hnil] at hrest
      cases hrest
    · rw [hk] at hrest
      cases hrest

theorem Placed.isCrlf {before : List Piece} {hs : List Hunk} (h : Placed before hs)
    (hsrc : IsCrlf (textOf (before ++ pieces hs))) (hinserted : ∀ h ∈ hs, IsCrlf h.inserted) :
    IsCrlf (hs.flatMap fun h => h.inserted ++ textOf h.kept) := by
  induction hs generalizing before with
  | nil => exact isCrlf_of_not_mem (by simp)
  | cons h' hs ih =>
    obtain ⟨⟨blanks, behind, i, hkept, -, hfits, -⟩, hlater⟩ := h
    obtain ⟨hfirst, hinserted⟩ := List.forall_mem_cons.1 hinserted
    have hsrc' : IsCrlf (textOf (before ++ (h'.dropped ++ h'.kept) ++ pieces hs)) := by
      simpa using hsrc
    have hbefore : IsCrlf (textOf (before ++ (h'.dropped ++ h'.kept))) := by
      rw [textOf_append] at hsrc'
      exact hsrc'.of_append_left
    have hkept' : IsCrlf (textOf h'.kept) := by
      refine IsCrlf.of_append_right (s := textOf (before ++ h'.dropped)) ?_
        (head?_kept hkept hfits hbefore)
      simpa using hbefore
    rw [List.flatMap_cons]
    exact (hfirst.append hkept').append (ih hlater hsrc' hinserted)

theorem mem_output {c : Char} {first : List Piece} {hs : List Hunk} (h : c ∈ output first hs) :
    c ∈ textOf (first ++ pieces hs) ∨ ∃ h ∈ hs, c ∈ h.inserted := by
  rw [output, List.mem_append] at h
  rw [textOf_append, List.mem_append]
  obtain h | h := h
  · exact .inl (.inl h)
  · obtain ⟨h', hmem, h⟩ := List.mem_flatMap.1 h
    obtain h | h := List.mem_append.1 h
    · exact .inr ⟨h', hmem, h⟩
    · obtain ⟨p, hp, h⟩ := List.mem_flatMap.1 h
      have hp : p ∈ pieces hs := List.mem_flatMap.2 ⟨h', hmem, List.mem_append_right _ hp⟩
      exact .inl (.inr (List.mem_flatMap.2 ⟨p, hp, h⟩))

end Hunk

theorem Edit.exists_of_mem_edits {hs : List Hunk} {h : Hunk} (hmem : h ∈ hs) (offset : Nat) :
    ∃ i ∈ Edit.insertions offset (hs.flatMap Hunk.edits), i.text = h.inserted := by
  induction hs generalizing offset with
  | nil => cases hmem
  | cons h' hs ih =>
    rw [List.flatMap_cons, Edit.insertions_append]
    obtain rfl | hmem := List.mem_cons.1 hmem
    · exact ⟨_, List.mem_append_left _ List.mem_cons_self, rfl⟩
    · obtain ⟨i, hi, htext⟩ := ih hmem _
      exact ⟨i, List.mem_append_right _ hi, htext⟩

def Field.Unreturned (f : Field) : Prop := (∀ l ∈ f.label, '\r' ∉ l) ∧ '\r' ∉ f.type

theorem notMem_joinWith {c : Char} {separator : Text} (hsep : c ∉ separator) {parts : List Text}
    (h : ∀ s ∈ parts, c ∉ s) : c ∉ Text.joinWith separator parts := by
  induction parts with
  | nil => exact List.not_mem_nil
  | cons s parts ih =>
    obtain ⟨hs, hparts⟩ := List.forall_mem_cons.1 h
    cases parts with
    | nil => exact hs
    | cons t parts =>
      rw [Text.joinWith_cons_cons, List.mem_append, List.mem_append]
      exact not_or.2 ⟨not_or.2 ⟨hs, hsep⟩, ih hparts⟩

theorem return_notMem_collapse (s : Text) : '\r' ∉ s.collapse := by
  refine notMem_joinWith (by decide) fun w hw h => ?_
  have := (Text.unblank_of_mem_words hw).2 _ h
  revert this
  decide

theorem return_notMem_escaped {n : Text} (h : '\r' ∉ n) : '\r' ∉ escaped n := by
  rw [escaped]
  split
  · simpa using h
  · exact h

theorem return_notMem_labelled {label : Option Text} (hlabel : ∀ l ∈ label, '\r' ∉ l) {s : Text}
    (hs : '\r' ∉ s) : '\r' ∉ labelled label s := by
  cases label with
  | none => exact hs
  | some l =>
    simp only [labelled, List.mem_append, not_or]
    exact ⟨⟨hlabel l rfl, by decide⟩, hs⟩

theorem return_notMem_parenthesized {parts : List Text} (h : ∀ s ∈ parts, '\r' ∉ s) :
    '\r' ∉ parenthesized parts := by
  simp only [parenthesized, List.mem_append, not_or]
  exact ⟨⟨by decide, notMem_joinWith (by decide) h⟩, by decide⟩

theorem return_notMem_toDigits (n : Nat) : '\r' ∉ Nat.toDigits 10 n := by
  intro h
  have := Nat.isDigit_of_mem_toDigits (by decide) (by decide) h
  revert this
  decide

theorem return_notMem_optionalType {t : Text} (h : '\r' ∉ t) : '\r' ∉ optionalType t := by
  rw [optionalType]
  split
  · simp only [List.cons_append, List.mem_cons, List.mem_append, not_or]
    exact ⟨by decide, h, by decide⟩
  · simp only [List.mem_append, not_or]
    exact ⟨h, by decide⟩

theorem Text.return_notMem_of_isIndent {s : Text} (h : ∀ c ∈ s, isIndent c = true) : '\r' ∉ s :=
  fun hmem => absurd (h _ hmem) (by decide)

theorem Style.return_notMem_line {st : Style} (hst : st.IsBlank) (level : Nat) {s : Text}
    (h : '\r' ∉ s) :
    '\r' ∉ st.line level s := by
  have hindent := Text.return_notMem_of_isIndent hst.indent
  have hunit := Text.return_notMem_of_isIndent hst.unit
  simp only [line, List.mem_append, not_or]
  refine ⟨⟨⟨hindent, fun hmem => ?_⟩, h⟩, by decide⟩
  obtain ⟨u, hu, hmem⟩ := List.mem_flatten.1 hmem
  rw [List.eq_of_mem_replicate hu] at hmem
  exact hunit hmem

theorem Getter.return_notMem_print {st : Style} (hst : st.IsBlank) {g : Getter}
    (hname : '\r' ∉ g.caseName)
    (hbindings : ∀ n ∈ g.bindings, '\r' ∉ n) (hresult : '\r' ∉ g.result.source) :
    '\r' ∉ g.print st := by
  have hpattern : '\r' ∉ g.pattern := by
    have hname := return_notMem_escaped hname
    rw [pattern]
    split
    · simp only [List.mem_append, not_or]
      exact ⟨by decide, hname⟩
    · simp only [List.mem_append, not_or]
      exact ⟨⟨by decide, hname⟩, return_notMem_parenthesized fun s hs => by
        obtain ⟨n, hn, rfl⟩ := List.mem_map.1 hs
        exact return_notMem_escaped (hbindings n hn)⟩
  rw [print, List.mem_append]
  refine not_or.2 ⟨Style.return_notMem_line hst 2 ?_, Style.return_notMem_line hst 2 ?_⟩
  · simp only [List.mem_append, not_or]
    exact ⟨⟨by decide, hpattern⟩, by decide⟩
  · simp only [List.mem_append, not_or]
    exact ⟨by decide, hresult⟩

theorem Source.return_notMem_text (s : Source) : '\r' ∉ s.text := by
  cases s with
  | whole => decide
  | element index =>
    have htext : (element index).text = "newValue.".toList ++ Nat.toDigits 10 index := rfl
    rw [htext, List.mem_append]
    exact not_or.2 ⟨by decide, return_notMem_toDigits index⟩

theorem Setter.return_notMem_print {st : Style} (hst : st.IsBlank) {s : Setter}
    (hname : '\r' ∉ s.caseName)
    (hlabels : ∀ a ∈ s.arguments, ∀ l ∈ a.label, '\r' ∉ l) : '\r' ∉ s.print st := by
  have hname := return_notMem_escaped hname
  rw [print]
  split
  · rw [List.mem_append]
    refine not_or.2 ⟨Style.return_notMem_line hst 2 (by decide), Style.return_notMem_line hst 2 ?_⟩
    simp only [List.mem_append, not_or]
    exact ⟨by decide, hname⟩
  · rw [List.mem_append]
    refine not_or.2 ⟨Style.return_notMem_line hst 2 (by decide), Style.return_notMem_line hst 2 ?_⟩
    simp only [List.mem_append, not_or]
    refine ⟨⟨by decide, hname⟩, return_notMem_parenthesized fun t ht => ?_⟩
    obtain ⟨a, ha, rfl⟩ := List.mem_map.1 ht
    exact return_notMem_labelled (hlabels a ha) a.source.return_notMem_text

namespace Shape

variable {fields : List Field}

theorem return_notMem_elementName (index : Nat) : '\r' ∉ elementName index := by
  rw [elementName, List.mem_cons]
  exact not_or.2 ⟨by decide, return_notMem_toDigits index⟩

theorem return_notMem_valueType (h : ∀ f ∈ fields, f.Unreturned) :
    '\r' ∉ (ofFields fields).valueType := by
  match fields with
  | [] =>
    rw [ofFields, valueType]
    decide
  | [f] => exact (h f List.mem_cons_self).2
  | f :: g :: fields =>
    have htuple :
        '\r' ∉ parenthesized ((f :: g :: fields).map fun f => labelled f.label f.type) := by
      refine return_notMem_parenthesized fun s hs => ?_
      obtain ⟨f, hf, rfl⟩ := List.mem_map.1 hs
      exact return_notMem_labelled (h f hf).1 (h f hf).2
    exact htuple

theorem return_notMem_getter {st : Style} (hst : st.IsBlank) {name : Text} (hname : '\r' ∉ name)
    (h : ∀ f ∈ fields, f.Unreturned) : '\r' ∉ ((ofFields fields).getter name).print st := by
  match fields with
  | [] =>
    refine Getter.return_notMem_print hst hname (fun _ hn => nomatch hn) ?_
    rw [ofFields, getter, Result.source]
    decide
  | [f] =>
    have hvalue : '\r' ∉ "value".toList := by decide
    exact Getter.return_notMem_print hst hname (List.forall_mem_singleton.2 hvalue)
      (return_notMem_escaped hvalue)
  | f :: g :: fields =>
    have hnames : ∀ n ∈ (List.range (f :: g :: fields).length).map elementName,
        '\r' ∉ n := fun n hn => by
      obtain ⟨i, -, rfl⟩ := List.mem_map.1 hn
      exact return_notMem_elementName i
    refine Getter.return_notMem_print hst hname hnames ?_
    refine return_notMem_parenthesized fun s hs => ?_
    obtain ⟨⟨label, n⟩, hmem, rfl⟩ := List.mem_map.1 hs
    obtain ⟨hlabel, hn⟩ := List.of_mem_zip hmem
    obtain ⟨f', hf', rfl⟩ := List.mem_map.1 hlabel
    exact return_notMem_labelled (h f' hf').1 (return_notMem_escaped (hnames n hn))

theorem return_notMem_setter {st : Style} (hst : st.IsBlank) {name : Text} (hname : '\r' ∉ name)
    (h : ∀ f ∈ fields, f.Unreturned) : '\r' ∉ ((ofFields fields).setter name).print st := by
  match fields with
  | [] => exact Setter.return_notMem_print hst hname (by simp [ofFields, setter])
  | [f] =>
    exact Setter.return_notMem_print hst hname (by simpa [ofFields, setter] using (h f (by simp)).1)
  | f :: g :: fields =>
    refine Setter.return_notMem_print hst hname fun a ha => ?_
    obtain ⟨i, hi, rfl⟩ := List.mem_mapIdx.1 ha
    exact (h _ (List.getElem_mem hi)).1

end Shape

namespace Accessor

/-- What is printed for a case has a carriage return only if its name has one, or one of its fields.
-/
theorem return_notMem_print {st : Style} (hst : st.IsBlank) {name : Text} (hname : '\r' ∉ name)
    {fields : List Field} (hfields : ∀ f ∈ fields, f.Unreturned) (access : Option Access) :
    '\r' ∉ print st { ofCase name fields with access } := by
  have hlevel : ∀ level : Access, '\r' ∉ level.keyword := fun level => by cases level <;> decide
  have htype := return_notMem_optionalType (Shape.return_notMem_valueType hfields)
  have hheader : '\r' ∉ header st { ofCase name fields with access } := by
    simp only [header, ofCase, List.mem_append, not_or]
    refine ⟨⟨⟨⟨⟨?_, by decide⟩, return_notMem_escaped hname⟩, by decide⟩, htype⟩, by decide⟩
    cases access with
    | none => exact List.not_mem_nil
    | some level =>
      dsimp only
      split
      · rw [List.mem_append]
        exact not_or.2 ⟨hlevel level, by decide⟩
      · exact List.not_mem_nil
  have hgetter := Shape.return_notMem_getter hst hname hfields
  have hsetter := Shape.return_notMem_setter hst hname hfields
  have hline := fun level {s} => Style.return_notMem_line hst level (s := s)
  simp only [print, ofCase, List.mem_append, not_or]
  exact ⟨⟨⟨⟨⟨hline 0 hheader, hline 1 (by decide)⟩, hgetter⟩, hline 1 (by decide)⟩,
    ⟨⟨hline 1 (by decide), hsetter⟩, hline 1 (by decide)⟩⟩, hline 0 (by decide)⟩

end Accessor

theorem text_subset_of_tokenize {s : Text} {ts : List Token} (h : tokenize s = .ok ts) {t : Token}
    (ht : t ∈ ts) :
    t.text ⊆ s := by
  intro c hc
  obtain ⟨tail, rfl, -⟩ := exists_standTogether h
  exact List.mem_append_left _ (List.mem_flatMap.2 ⟨t, ht, List.mem_append_right _ hc⟩)

theorem unquoted_subset (n : Text) : unquoted n ⊆ n := by
  intro c hc
  unfold unquoted at hc
  split at hc
  · next s =>
    split at hc
    · exact List.mem_cons_of_mem _ (List.dropLast_subset s hc)
    · exact hc
  · exact hc

theorem exists_of_fieldLabel? {ts : List Token} {l : Text} (h : fieldLabel? ts = some l) :
    ∃ t ∈ ts, l = t.name := by
  obtain ⟨⟨name, rest⟩, hsplit, h⟩ := Option.bind_eq_some_iff.1 h
  obtain rfl : name = l := by
    dsimp only at h
    split at h <;> cases h
    rfl
  unfold splitLabel? at hsplit
  split at hsplit
  · next t c more =>
    refine ⟨t, List.mem_cons_self, ?_⟩
    split at hsplit
    · split at hsplit
      · cases hsplit
        rfl
      · split at hsplit
        · split at hsplit
          · split at hsplit <;> cases hsplit
            rfl
          · cases hsplit
        · cases hsplit
    · cases hsplit
  · cases hsplit

theorem exists_of_mem_forall₂ {α β : Type} {R : α → β → Prop} {as : List α} {bs : List β}
    (h : List.Forall₂ R as bs) {b : β} (hb : b ∈ bs) : ∃ a ∈ as, R a b := by
  induction h with
  | nil => cases hb
  | cons hr _ ih =>
    obtain rfl | hb := List.mem_cons.1 hb
    · exact ⟨_, List.mem_cons_self, hr⟩
    · obtain ⟨a, ha, hr⟩ := ih hb
      exact ⟨a, List.mem_cons_of_mem _ ha, hr⟩

theorem Case.DeclaredIn.unreturned {ts : List Token} {c : Case} (h : c.DeclaredIn ts)
    (hts : ∀ t ∈ ts, '\r' ∉ t.name) : '\r' ∉ c.name ∧ ∀ f ∈ c.fields, f.Unreturned := by
  obtain ⟨before, name, behind, rfl, -, hname, hfields⟩ := h
  refine ⟨hname ▸ hts name (by simp), fun f hf => ?_⟩
  obtain ⟨range, hrange, -, rfl⟩ := exists_of_mem_forall₂ (readFields_eq_ok_iff.1 hfields) hf
  -- a type is collapsed, so it has no blanks but spaces
  refine ⟨fun l hl => ?_, return_notMem_collapse _⟩
  obtain ⟨t, ht, rfl⟩ := exists_of_fieldLabel? hl
  have hbehind :=
    (isInfix_of_mem_splitFields (List.mem_filter.1 hrange).1).trans (isInfix_payloadTokens behind)
  exact hts t (by simp [hbehind.subset ht])

theorem unreturned_of_readEnumerations {src : Text} {enums : List Enumeration}
    (h : readEnumerations src = .ok enums) (hsrc : '\r' ∉ src) :
    ∀ e ∈ enums, ∀ c ∈ e.decl.cases, '\r' ∉ c.name ∧ ∀ f ∈ c.fields, f.Unreturned := by
  obtain ⟨tokens, htokens, hcases⟩ := exists_declaredIn_of_readEnumerations h
  exact fun e he c hc => (hcases e he c hc).unreturned fun t ht hmem =>
    hsrc (text_subset_of_tokenize htokens ht (unquoted_subset _ hmem))

theorem Layout.return_notMem_surround {o : Options} {m : Option Text} {d before : Text}
    (hd : ∀ c ∈ d, Text.isIndent c = true) {block : Text} (hblock : '\r' ∉ block) :
    '\r' ∉ (ofBefore o m d before).surround block := by
  simp only [surround, List.mem_append, not_or]
  refine ⟨⟨?_, hblock⟩, ?_⟩
  · unfold ofBefore
    dsimp only
    split
    · dsimp only
      split <;> simp
    · simp
  · unfold ofBefore
    dsimp only
    split
    · simp
    · exact Text.return_notMem_of_isIndent hd

theorem Enumeration.text_of_insertion? {o : Options} {src : Text} {enums : List Enumeration}
    (hread : readEnumerations src = .ok enums) {e : Enumeration} (he : e ∈ enums) {i : Insertion}
    (h : e.insertion? o src = some i) :
    ∃ before layout, layout = Layout.ofBefore o e.memberIndent e.indent before ∧
      i.text = (layout.surround (Accessor.printAll ⟨layout.indent, o.unit, o.showAccess⟩
        (e.decl.accessors ++ e.decl.missing))).withNewline
            (if src.hasCrlf then ['\r', '\n'] else ['\n']) := by
  obtain ⟨before, behind, rfl, -, hclose⟩ := exists_braces_of_mem hread he
  obtain ⟨-, layout, newline, hlayout, rfl, rfl⟩ := (insertion?_eq_some_iff hclose).1 h
  exact ⟨before, layout, hlayout, rfl⟩

theorem Enumeration.return_notMem_insertion {o : Options} {src : Text} {enums : List Enumeration}
    (hread : readEnumerations src = .ok enums) (hsrc : '\r' ∉ src) {e : Enumeration}
    (he : e ∈ enums) {i : Insertion} (h : e.insertion? o src = some i) : '\r' ∉ i.text := by
  have hcases := unreturned_of_readEnumerations hread hsrc e he
  obtain ⟨before, layout, hlayout, htext⟩ := text_of_insertion? hread he h
  obtain ⟨ps, rfl, -, -, hsites⟩ := exists_of_readEnumerations hread
  obtain ⟨s, -, hs⟩ := hsites e he
  obtain ⟨haccessors, hindent⟩ := Site.accessors_and_indent_of_enumeration hs
  have hmember := Site.isIndent_memberIndent_of_enumeration hs
  have hstyle : Style.IsBlank ⟨layout.indent, o.unit, o.showAccess⟩ :=
    ⟨hlayout ▸ Layout.isIndent_of_mem_indent hmember hindent, o.isIndent_of_mem_unit⟩
  have hblock : '\r' ∉ Accessor.printAll ⟨layout.indent, o.unit, o.showAccess⟩ e.decl.missing := by
    refine notMem_joinWith (by decide) fun s hs => ?_
    obtain ⟨a, ha, rfl⟩ := List.mem_map.1 hs
    obtain ⟨c, hc, -, rfl⟩ := Decl.mem_missing.1 ha
    exact Accessor.return_notMem_print hstyle (hcases c hc).1 (hcases c hc).2 _
  rw [htext, Text.hasCrlf_of_not_mem hsrc, haccessors, List.nil_append]
  refine Text.notMem_withNewline ?_ (by decide)
  rw [hlayout] at hblock ⊢
  exact Layout.return_notMem_surround hindent hblock

/-- Completing a source in which no two bodies share their end keeps its line ends: where every line
feed follows a carriage return it still does, and where there are no carriage returns there are
none. -/
theorem complete_lineEndings (o : Options) {src : Text} {enums : List Enumeration}
    (h : readEnumerations src = .ok enums) (hdistinct : (enums.map Enumeration.closeOffset).Nodup) :
    ∃ output, complete o src = .ok ⟨output, enums.map Enumeration.change⟩ ∧
      ('\n' ∈ src → Text.IsCrlf src → Text.IsCrlf output) ∧ ('\r' ∉ src → '\r' ∉ output) := by
  obtain ⟨first, hs, hsource, -, -, -, hplaced, hperm, -, hcomplete⟩ :=
    exists_hunks_of_readEnumerations o h hdistinct
  have hinserted : ∀ h ∈ hs, ∃ e ∈ enums, ∃ i, e.insertion? o src = some i ∧
      i.text = h.inserted := by
    intro h hmem
    obtain ⟨i, hi, htext⟩ := Edit.exists_of_mem_edits hmem (Text.byteSize (Piece.textOf first))
    obtain ⟨e, he, hi⟩ := List.mem_filterMap.1 (hperm.mem_iff.2 hi)
    exact ⟨e, he, i, hi, htext⟩
  refine ⟨_, hcomplete, fun hmem hcrlf => ?_, fun hreturn hmem => ?_⟩
  · rw [hsource] at hcrlf
    have hfirst : Text.IsCrlf (Piece.textOf first) := by
      rw [Piece.textOf_append] at hcrlf
      exact hcrlf.of_append_left
    refine hfirst.append (hplaced.isCrlf hcrlf fun h' hh => ?_)
    obtain ⟨e, he, i, hi, htext⟩ := hinserted h' hh
    obtain ⟨-, layout, -, hi⟩ := Enumeration.text_of_insertion? h he hi
    rw [← hsource] at hcrlf
    rw [← htext, hi, hcrlf.hasCrlf hmem]
    exact Text.isCrlf_withNewline _
  · obtain hsrc | ⟨h', hh, hmem⟩ := Hunk.mem_output hmem
    · exact hreturn (hsource ▸ hsrc)
    · obtain ⟨e, he, i, hi, htext⟩ := hinserted h' hh
      rw [← htext] at hmem
      exact Enumeration.return_notMem_insertion h hreturn he hi hmem

/-- An enum that ends in the middle of a line, within one whose brace has a line to itself. -/
def crlfSource : Text :=
  "enum A \x7b\r\n    case a\r\n    enum B \x7b case b \x7d\r\n\x7d\r\n".toList

theorem complete_lineEndings_nested :
    ∃ c, complete .default crlfSource = .ok c ∧ Text.IsCrlf crlfSource ∧ Text.IsCrlf c.output ∧
      c.changes.map Change.added = [[['a']], [['b']]] := by
  have hread : (readEnumerations crlfSource).toOption.map
      (fun es => (es.map Enumeration.closeOffset, (es.map Enumeration.change).map Change.added)) =
        some ([45, 42], [[['a']], [['b']]]) := by decide +kernel
  obtain ⟨enums, henums, hfacts⟩ := Option.map_eq_some_iff.1 hread
  obtain ⟨hoffsets, hadded⟩ := Prod.mk.inj hfacts
  have hdistinct : (enums.map Enumeration.closeOffset).Nodup := by
    rw [hoffsets]
    decide
  have hcrlf : Text.IsCrlf crlfSource := by
    have heq : crlfSource = Text.withNewline
        "enum A \x7b\n    case a\n    enum B \x7b case b \x7d\n\x7d\n".toList ['\r', '\n'] := by
      decide +kernel
    rw [heq]
    exact Text.isCrlf_withNewline _
  obtain ⟨output, hc, hout, -⟩ := complete_lineEndings .default (eq_ok_of_toOption henums) hdistinct
  exact ⟨_, hc, hcrlf, hout (by decide) hcrlf, hadded⟩

end CaseAccessors
