import CaseAccessors.Proofs.AppendReading
import CaseAccessors.Proofs.Hunk
import Mathlib.Data.List.TakeWhile

/-! Completing two texts one behind the other. Each of them is completed as if it stood alone:
nothing that is inserted, and no place where it is, depends on the other text. -/
namespace CaseAccessors

namespace Insertion

def moved (n : Nat) (i : Insertion) : Insertion := ⟨i.start + n, i.stop + n, i.text⟩

theorem carryOut?_moved (a : Text) (i : Insertion) (s : Text) :
    (i.moved (Text.byteSize a)).carryOut? (a ++ s) = (i.carryOut? s).map (a ++ ·) := by
  unfold carryOut? moved
  rw [Nat.add_comm i.start, Text.cutAt?_add, Nat.add_comm _ i.start, Nat.add_sub_add_right]
  cases s.cutAt? i.start with
  | none => rfl
  | some r =>
    obtain ⟨before, rest⟩ := r
    cases hrest : rest.cutAt? (i.stop - i.start) with
    | none => simp [hrest]
    | some r => simp [hrest]

theorem carryOut?_append_right {i : Insertion} {s s' : Text} (h : i.carryOut? s = some s')
    (t : Text) :
    i.carryOut? (s ++ t) = some (s' ++ t) := by
  obtain ⟨⟨before, rest⟩, hstart, hrest⟩ := Option.bind_eq_some_iff.1 h
  obtain ⟨⟨dropped, after⟩, hstop, hresult⟩ := Option.bind_eq_some_iff.1 hrest
  obtain ⟨rfl, hbefore⟩ := Text.of_cutAt? hstart
  obtain ⟨rfl, hdropped⟩ := Text.of_cutAt? hstop
  obtain rfl : before ++ i.text ++ after = s' := Option.some.inj hresult
  unfold carryOut?
  rw [List.append_assoc, ← hbefore, Text.cutAt?_byteSize]
  simp only [Option.bind_eq_bind, Option.bind_some]
  rw [hbefore, List.append_assoc, ← hdropped, Text.cutAt?_byteSize]
  simp

theorem foldlM_carryOut?_moved (a : Text) (is : List Insertion) (s : Text) :
    (is.map (moved (Text.byteSize a))).foldlM (fun s (i : Insertion) => i.carryOut? s) (a ++ s) =
      (is.foldlM (fun s (i : Insertion) => i.carryOut? s) s).map (a ++ ·) := by
  induction is generalizing s with
  | nil => rfl
  | cons i is ih =>
    rw [List.map_cons, List.foldlM_cons, List.foldlM_cons, carryOut?_moved]
    cases i.carryOut? s with
    | none => rfl
    | some s' => exact ih s'

theorem foldlM_carryOut?_append_right {is : List Insertion} {s s' : Text}
    (h : is.foldlM (fun s (i : Insertion) => i.carryOut? s) s = some s') (t : Text) :
    is.foldlM (fun s (i : Insertion) => i.carryOut? s) (s ++ t) = some (s' ++ t) := by
  induction is generalizing s with
  | nil =>
    obtain rfl := Option.some.inj h
    rfl
  | cons i is ih =>
    rw [List.foldlM_cons] at h ⊢
    obtain ⟨s₁, hfirst, h⟩ := Option.bind_eq_some_iff.1 h
    rw [carryOut?_append_right hfirst]
    exact ih h

theorem insertByStart_moved (n : Nat) (i : Insertion) (is : List Insertion) :
    insertByStart (i.moved n) (is.map (moved n)) = (insertByStart i is).map (moved n) := by
  induction is with
  | nil => rfl
  | cons j is ih =>
    have hle : (j.moved n).start ≤ (i.moved n).start ↔ j.start ≤ i.start := Nat.add_le_add_iff_right
    rw [List.map_cons, insertByStart, insertByStart, ih]
    by_cases h : j.start ≤ i.start
    · rw [if_pos h, if_pos (hle.2 h)]
      rfl
    · rw [if_neg h, if_neg (h ∘ hle.1)]
      rfl

theorem latestFirst_moved (n : Nat) (is : List Insertion) :
    latestFirst (is.map (moved n)) = (latestFirst is).map (moved n) := by
  induction is with
  | nil => rfl
  | cons i is ih =>
    change insertByStart (i.moved n) (latestFirst (is.map (moved n))) = _
    rw [ih, insertByStart_moved]
    rfl

theorem insertByStart_append {i : Insertion} {js : List Insertion} (h : ∀ j ∈ js, i.start < j.start)
    (ks : List Insertion) : insertByStart i (js ++ ks) = js ++ insertByStart i ks := by
  induction js with
  | nil => rfl
  | cons j js ih =>
    have hj := h j List.mem_cons_self
    rw [List.cons_append, insertByStart, if_neg (Nat.not_le.2 hj),
      ih fun k hk => h k (List.mem_cons_of_mem j hk)]
    rfl

theorem latestFirst_append {is js : List Insertion} (h : ∀ i ∈ is, ∀ j ∈ js, i.start < j.start) :
    latestFirst (is ++ js) = latestFirst js ++ latestFirst is := by
  induction is with
  | nil => exact (List.append_nil _).symm
  | cons i is ih =>
    change insertByStart i (latestFirst (is ++ js)) = _
    rw [ih fun k hk => h k (List.mem_cons_of_mem i hk), insertByStart_append]
    · rfl
    · intro j hj
      exact h i List.mem_cons_self j ((latestFirst_perm js).mem_iff.1 hj)

theorem carryOutAll?_append {is js : List Insertion} {a b a' b' : Text}
    (hstart : ∀ i ∈ is, i.start < Text.byteSize a) (ha : carryOutAll? is a = some a')
    (hb : carryOutAll? js b = some b') :
    carryOutAll? (is ++ js.map (moved (Text.byteSize a))) (a ++ b) = some (a' ++ b') := by
  have hlater : ∀ i ∈ is, ∀ j ∈ js.map (moved (Text.byteSize a)), i.start < j.start := by
    intro i hi j hj
    obtain ⟨k, -, rfl⟩ := List.mem_map.1 hj
    exact Nat.lt_of_lt_of_le (hstart i hi) (Nat.le_add_left _ k.start)
  unfold carryOutAll? at ha hb ⊢
  rw [latestFirst_append hlater, latestFirst_moved, List.foldlM_append, foldlM_carryOut?_moved, hb]
  exact foldlM_carryOut?_append_right ha b'

end Insertion

theorem Text.hasCrlf_append_of_lines {a : Text} (ha : ∀ c ∈ a.getLast?, c = '\n') (b : Text) :
    (a ++ b).hasCrlf = (a.hasCrlf || b.hasCrlf) := by
  fun_induction hasCrlf a with
  | case1 s => rfl
  | case2 c s hno ih =>
    cases s with
    | nil =>
      obtain rfl : c = '\n' := ha c rfl
      rfl
    | cons d s =>
      have hskip : hasCrlf (c :: d :: s ++ b) = hasCrlf (d :: s ++ b) := by
        apply hasCrlf.eq_2
        rintro t rfl ⟨⟩
        exact hno s rfl rfl
      rw [hskip, ih (by simpa using ha)]
  | case3 => rfl

theorem Text.dropIndentEnd_append {c : Char} {s : Text} (hc : c ∈ s) (hindent : isIndent c = false)
    (a : Text) : dropIndentEnd (a ++ s) = a ++ dropIndentEnd s := by
  have hne : (s.reverse.dropWhile isIndent).isEmpty = false := by
    rw [Bool.eq_false_iff, ne_eq, List.isEmpty_iff, List.dropWhile_eq_nil_iff]
    intro hall
    rw [hall c (List.mem_reverse.2 hc)] at hindent
    cases hindent
  unfold dropIndentEnd
  rw [List.reverse_append, List.dropWhile_append, hne]
  simp

namespace Layout

variable {a : Text}

theorem beforeLastLine_append_of_lines (ha : ∀ c ∈ a.getLast?, c = '\n') (s : Text) :
    beforeLastLine (a ++ s) = a ++ beforeLastLine s := by
  have hall := beforeLastLine_append_lastLine (a ++ s)
  have hboth :
      beforeLastLine (a ++ s) ++ Text.lastLine s = a ++ beforeLastLine s ++ Text.lastLine s := by
    rw [List.append_assoc, beforeLastLine_append_lastLine, ← Text.lastLine_append_of_lines ha, hall]
  exact List.append_cancel_right hboth

theorem needsNoGap_append_of_lines (ha : ∀ c ∈ a.getLast?, c = '\n') {s : Text} (hs : s ≠ []) :
    needsNoGap (a ++ s) = needsNoGap s := by
  unfold needsNoGap
  rw [List.dropLast_append_of_ne_nil hs, Text.lastLine_append_of_lines ha]

theorem ofBefore_append (ha : ∀ c ∈ a.getLast?, c = '\n') {c : Char} {before : Text}
    (hc : c ∈ before) (hblank : isBlank c = false) (o : Options) (m : Option Text) (d : Text) :
    ofBefore o m d (a ++ before) =
      { ofBefore o m d before with kept := a ++ (ofBefore o m d before).kept } := by
  unfold ofBefore
  rw [Text.lastLine_append_of_lines ha]
  by_cases hline : (Text.lastLine before).trim.isEmpty = true
  · have hkept : beforeLastLine before ≠ [] := fun hnil => by
      have hall := beforeLastLine_append_lastLine before
      rw [hnil, List.nil_append] at hall
      rw [← hall] at hc
      rw [Text.trim_eq_nil_iff.1 (List.isEmpty_iff.1 hline) c hc] at hblank
      cases hblank
    simp only [hline, if_true, beforeLastLine_append_of_lines ha,
      needsNoGap_append_of_lines ha hkept]
  · have hindent : Text.isIndent c = false := Bool.eq_false_iff.2 fun h => by
      rw [Text.isBlank_of_isIndent h] at hblank
      cases hblank
    have hdropped : (a ++ before).drop (a ++ before.dropIndentEnd).length =
        before.drop before.dropIndentEnd.length := by
      rw [List.length_append, List.drop_append]
      simp
    simp only [hline, Bool.false_eq_true, if_false, Text.dropIndentEnd_append hc hindent, hdropped]

theorem kept_prefix (o : Options) (m : Option Text) (d before : Text) :
    (ofBefore o m d before).kept <+: before := by
  dsimp only [ofBefore]
  split
  · exact ⟨_, beforeLastLine_append_lastLine before⟩
  · rw [← List.reverse_suffix, Text.dropIndentEnd, List.reverse_reverse]
    exact List.dropWhile_suffix _

end Layout

theorem exists_braces_of_mem {src : Text} {enums : List Enumeration}
    (h : readEnumerations src = .ok enums) {e : Enumeration} (he : e ∈ enums) :
    ∃ before behind, src = before ++ '\x7d' :: behind ∧ '\x7b' ∈ before ∧
      e.closeOffset = Text.byteSize before := by
  obtain ⟨ps, rfl, hps, hbalanced, hread⟩ := exists_of_readEnumerations h
  obtain ⟨s, hs, hse⟩ := hread e he
  obtain ⟨as, bs, rfl, hopen, hclose⟩ := exists_closingBrace hps hbalanced hs hse
  exact ⟨Piece.textOf as, Piece.textOf bs, Piece.textOf_append _ _, hopen, hclose⟩

namespace Enumeration

variable {o : Options} {before behind : Text} {e : Enumeration}

theorem insertion?_append_right (hclose : e.closeOffset = Text.byteSize before) {b : Text}
    (hcrlf : (before ++ behind ++ b).hasCrlf = (before ++ behind).hasCrlf) :
    e.insertion? o (before ++ behind ++ b) = e.insertion? o (before ++ behind) := by
  unfold insertion?
  rw [hcrlf, hclose, Text.cutAt?_byteSize, List.append_assoc, Text.cutAt?_byteSize]

theorem insertion?_moved {a : Text} (ha : ∀ c ∈ a.getLast?, c = '\n')
    (hclose : e.closeOffset = Text.byteSize before) (hopen : '\x7b' ∈ before)
    (hcrlf : (a ++ (before ++ behind)).hasCrlf = (before ++ behind).hasCrlf) :
    (e.moved (Text.byteSize a)).insertion? o (a ++ (before ++ behind)) =
      (e.insertion? o (before ++ behind)).map (·.moved (Text.byteSize a)) := by
  have hcut : (a ++ (before ++ behind)).cutAt? (e.closeOffset + Text.byteSize a) =
      some (a ++ before, behind) := by
    rw [Nat.add_comm, Text.cutAt?_add, hclose, Text.cutAt?_byteSize]
    rfl
  unfold insertion? moved
  dsimp only
  rw [hcut, hcrlf, hclose, Text.cutAt?_byteSize]
  dsimp only
  rw [Layout.ofBefore_append ha hopen (by decide)]
  split
  · simp only [Option.map_some, Insertion.moved, Layout.surround, Text.byteSize_append,
      Option.some.injEq, Insertion.mk.injEq, and_true]
    omega
  · rfl

theorem start_le_closeOffset (hclose : e.closeOffset = Text.byteSize before) {i : Insertion}
    (hi : e.insertion? o (before ++ behind) = some i) : i.start ≤ e.closeOffset := by
  obtain ⟨-, layout, newline, rfl, -, rfl⟩ := (insertion?_eq_some_iff hclose).1 hi
  obtain ⟨rest, hrest⟩ := Layout.kept_prefix o e.memberIndent e.indent before
  have hsize := congrArg Text.byteSize hrest
  rw [Text.byteSize_append] at hsize
  rw [hclose]
  dsimp only
  omega

end Enumeration

/-- Texts are completed one after the other: where whole lines, in which no token follows the last
closing brace, and another text with line ends of the same kind can both be completed, the two
together turn into the one output with the other behind it. -/
theorem complete_append (o : Options) {a b : Text} (ha : ∀ c ∈ a.getLast?, c = '\n')
    (hlast : ∀ ts, tokenize a = .ok ts → ∀ t ∈ ts.getLast?, t.kind = .punct '\x7d')
    (hcrlf : a.hasCrlf = b.hasCrlf) {ca cb : Completion} (hca : complete o a = .ok ca)
    (hcb : complete o b = .ok cb) :
    complete o (a ++ b) = .ok ⟨ca.output ++ cb.output, ca.changes ++ cb.changes⟩ := by
  obtain ⟨enums, hread, hout, hchanges⟩ := exists_of_complete hca
  obtain ⟨enums', hread', hout', hchanges'⟩ := exists_of_complete hcb
  have hall : (a ++ b).hasCrlf = b.hasCrlf := by
    rw [Text.hasCrlf_append_of_lines ha, hcrlf, Bool.or_self]
  have hfirst : enums.filterMap (·.insertion? o (a ++ b)) = enums.filterMap (·.insertion? o a) := by
    apply List.filterMap_congr
    intro e he
    obtain ⟨before, behind, rfl, -, hclose⟩ := exists_braces_of_mem hread he
    exact Enumeration.insertion?_append_right hclose (hall.trans hcrlf.symm)
  have hsecond : (enums'.map (·.moved (Text.byteSize a))).filterMap (·.insertion? o (a ++ b)) =
      (enums'.filterMap (·.insertion? o b)).map (·.moved (Text.byteSize a)) := by
    rw [List.filterMap_map, List.map_filterMap]
    apply List.filterMap_congr
    intro e he
    obtain ⟨before, behind, rfl, hopen, hclose⟩ := exists_braces_of_mem hread' he
    exact Enumeration.insertion?_moved ha hclose hopen hall
  have hstart : ∀ i ∈ enums.filterMap (·.insertion? o a), i.start < Text.byteSize a := by
    intro i hi
    obtain ⟨e, he, hei⟩ := List.mem_filterMap.1 hi
    obtain ⟨before, behind, rfl, -, hclose⟩ := exists_braces_of_mem hread he
    have hle := Enumeration.start_le_closeOffset hclose hei
    have hbrace : '\x7d'.utf8Size = 1 := rfl
    rw [Text.byteSize_append, Text.byteSize]
    omega
  have hboth := Insertion.carryOutAll?_append hstart hout hout'
  rw [← hfirst, ← hsecond, ← List.filterMap_append] at hboth
  have hchange : (enums'.map (·.moved (Text.byteSize a))).map Enumeration.change =
      enums'.map Enumeration.change := by
    rw [List.map_map]
    rfl
  rw [complete_eq_ok (readEnumerations_append ha hlast hread hread') hboth, List.map_append,
    hchange, hchanges, hchanges']

/-- Two enums, the first one behind a comment. -/
theorem complete_append_comment :
    let a : Text := "// one \x7d\nenum A \x7b\n  case x(Int)\n\x7d // A\n".toList
    let b : Text := "public enum B \x7b case y \x7d".toList
    ∃ ca cb, complete .default a = .ok ca ∧ ca.changed = true ∧ complete .default b = .ok cb ∧
      cb.changed = true ∧
      complete .default (a ++ b) = .ok ⟨ca.output ++ cb.output, ca.changes ++ cb.changes⟩ := by
  intro a b
  have ha : (complete .default a).toOption.map Completion.changed = some true := by decide +kernel
  have hb : (complete .default b).toOption.map Completion.changed = some true := by decide +kernel
  obtain ⟨ca, hca, hchanged⟩ := Option.map_eq_some_iff.1 ha
  obtain ⟨cb, hcb, hchanged'⟩ := Option.map_eq_some_iff.1 hb
  have htokens :
      (tokenize a).toOption.map (fun ts => decide (∀ t ∈ ts.getLast?, t.kind = .punct '\x7d')) =
        some true := by decide +kernel
  have hlast : ∀ ts, tokenize a = .ok ts →
      ∀ t ∈ ts.getLast?, t.kind = .punct '\x7d' := fun ts h => by
    rw [h] at htokens
    exact of_decide_eq_true (Option.some.inj htokens)
  have hget : a.getLast? = some '\n' := by decide +kernel
  have hend : ∀ c ∈ a.getLast?, c = '\n' := fun c hc => (Option.some.inj (hget.symm.trans hc)).symm
  have hcrlf : a.hasCrlf = b.hasCrlf := by decide +kernel
  refine ⟨ca, cb, eq_ok_of_toOption hca, hchanged, eq_ok_of_toOption hcb, hchanged', ?_⟩
  exact complete_append .default hend hlast hcrlf (eq_ok_of_toOption hca) (eq_ok_of_toOption hcb)

end CaseAccessors
