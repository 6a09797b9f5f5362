import CaseAccessors.Proofs.ElementReading
import CaseAccessors.Proofs.EnumTree
import CaseAccessors.Proofs.Expression

/-! Payloads whose fields have default values. The marks `<` and `>` count as brackets in a default
value as they do in a type, so a comparison there takes the fields behind it with it, up to the
comma at which the brackets are even again. -/
namespace CaseAccessors

open Piece

/-- Balanced, and without a comma outside of groups. -/
inductive Undivided : List Kind → Prop where
  | nil : Undivided []
  | other {k : Kind} {ks : List Kind} : k.opener? = none → k.closer? = none → k ≠ .punct ',' →
      Undivided ks → Undivided (k :: ks)
  | group {o k : Kind} {c : Char} {inside ks : List Kind} : o.opener? = some c →
      k.closer? = some (closerOf c) → Balanced inside → Undivided ks →
        Undivided (o :: (inside ++ k :: ks))

theorem Undivided.balanced {ks : List Kind} (h : Undivided ks) : Balanced ks := by
  induction h with
  | nil => exact .nil
  | other ho hc _ _ ih => exact .other ho hc ih
  | group ho hk hinside _ ih => exact .group ho hk hinside ih

/-- How many angle brackets are open behind the kinds, if `angles` are open in front of them. Only
those outside of groups count, and none of them closes more than there are. -/
def openAngles (depth angles : Nat) : List Kind → Nat
  | [] => angles
  | k :: ks =>
    if k.opener?.isSome then openAngles (depth + 1) angles ks
    else if k.closer?.isSome then openAngles (depth - 1) angles ks
    else if depth = 0 ∧ k = .punct '<' then openAngles depth (angles + 1) ks
    else if depth = 0 ∧ k = .punct '>' then openAngles depth (angles - 1) ks
    else openAngles depth angles ks

theorem openAngles_inside {ks : List Kind} (h : Balanced ks) (depth angles : Nat) (ls : List Kind) :
    openAngles (depth + 1) angles (ks ++ ls) = openAngles (depth + 1) angles ls := by
  induction h generalizing depth ls with
  | nil => rfl
  | other ho hc _ ih => simp [openAngles, ho, hc, ih]
  | group ho hk _ _ ihi ih =>
    have hk' := Kind.opener?_of_closer? hk
    simp [openAngles, ho, hk, hk', ihi, ih]

theorem openAngles_group {o k : Kind} {c d : Char} {inside : List Kind} (ho : o.opener? = some c)
    (hk : k.closer? = some d) (hinside : Balanced inside) (angles : Nat) (ks : List Kind) :
    openAngles 0 angles (o :: (inside ++ k :: ks)) = openAngles 0 angles ks := by
  have hk' := Kind.opener?_of_closer? hk
  simp [openAngles, ho, hk, hk', openAngles_inside hinside]

/-- A comparison leaves one open, but none in a group. -/
example : openAngles 0 0 [.literal, .punct '<', .literal] = 1 ∧
    openAngles 0 0 [.punct '(', .literal, .punct '<', .literal, .punct ')'] = 0 := by decide

/-- Splitting at commas passes over the words, with `m` angle brackets open behind them if `n` are
open in front of them. -/
def SplitsTo (n m : Nat) (ws : List Word) : Prop :=
  ∀ ts, ts.map Token.word = ws → ∀ more,
    splitItems n (items ts ++ more) = (items ts).foldr consItem (splitItems m more)

theorem Unsplit.splitsTo {angles n : Nat} {ws : List Word} (h : Unsplit angles ws)
    (hn : angles ≤ n) :
    SplitsTo n n ws :=
  fun ts hts more => h ts hts n hn more

namespace SplitsTo

theorem append {n m k : Nat} {ws us : List Word} (hbalanced : Balanced (ws.map Prod.fst))
    (hw : SplitsTo n m ws) (hu : SplitsTo m k us) : SplitsTo n k (ws ++ us) := by
  intro ts hts more
  obtain ⟨ts₁, ts₂, rfl, h₁, h₂⟩ := List.map_eq_append_iff.1 hts
  rw [items_append hbalanced (Token.map_kind_of_map_word h₁), List.append_assoc, hw ts₁ h₁,
    hu ts₂ h₂, List.foldr_append]

end SplitsTo

theorem Undivided.splitItems_append {ks : List Kind} (h : Undivided ks) {ts : List Token}
    (hts : ts.map (·.kind) = ks) (n : Nat) (more : List Item) :
    splitItems n (items ts ++ more) =
      (items ts).foldr consItem (splitItems (openAngles 0 n ks) more) := by
  induction h generalizing ts n with
  | nil =>
    rw [List.map_eq_nil_iff.1 hts, items]
    rfl
  | @other k ks ho hc hcomma _ ih =>
    obtain ⟨t, us, rfl, rfl, hus⟩ := List.map_eq_cons_iff.1 hts
    have hnone : t.opener? = none := ho
    rw [items_cons hnone, List.cons_append, splitItems, List.foldr_cons]
    by_cases hopen : t.kind = .punct '<'
    · simp [Item.isPunct, Lexeme.isPunct, hopen, openAngles, Kind.opener?, Kind.closer?, isOpener,
        isCloser, ih hus]
    by_cases hclose : t.kind = .punct '>'
    · simp [Item.isPunct, Lexeme.isPunct, hclose, openAngles, Kind.opener?, Kind.closer?, isOpener,
        isCloser, ih hus]
    · simp [Item.isPunct, Lexeme.isPunct, hopen, hclose, hcomma, openAngles, ho, hc, ih hus]
  | group ho hk hinside _ ih =>
    obtain ⟨o, us, rfl, rfl, hus⟩ := List.map_eq_cons_iff.1 hts
    obtain ⟨ins, vs, rfl, rfl, hvs⟩ := List.map_eq_append_iff.1 hus
    obtain ⟨k, xs, rfl, rfl, hxs⟩ := List.map_eq_cons_iff.1 hvs
    rw [items_group ho hk hinside, List.cons_append, splitItems, List.foldr_cons,
      openAngles_group ho hk hinside]
    simp [Item.isPunct, ih hxs]

theorem Undivided.splitsTo {ws : List Word} (h : Undivided (ws.map Prod.fst)) (n : Nat) :
    SplitsTo n (openAngles 0 n (ws.map Prod.fst)) ws :=
  fun _ hts more => h.splitItems_append (Token.map_kind_of_map_word hts) n more

/-- A default value: balanced tokens, without the word `enum` and without a comma outside of groups.
-/
structure DefaultValue extends Expr where
  undivided : Undivided toExpr.kinds
  enumless : (.ident, "enum".toList) ∉ toExpr.words

/-- A field of a payload, `l: T` or `l: T = e`. -/
structure DefaultedField where
  label : Label
  type : PlainType
  default : Option DefaultValue

namespace DefaultedField

def value (f : DefaultedField) : Option Expr := f.default.map DefaultValue.toExpr

def text (f : DefaultedField) : Text :=
  f.label.1 ++ ": ".toList ++ f.type.text ++ Expr.valueText f.value

def field (f : DefaultedField) : Field := ⟨some f.label.1, f.type.text⟩

def anglesBehind (f : DefaultedField) (angles : Nat) : Nat :=
  match f.default with
  | some e => openAngles 0 angles e.kinds
  | none => angles

/-- The fields that are found: those in front of which no angle bracket is open. -/
def found (angles : Nat) : List DefaultedField → List Field
  | [] => []
  | f :: fs => (if angles = 0 then [f.field] else []) ++ found (f.anglesBehind angles) fs

theorem length_found_le (angles : Nat) (fs : List DefaultedField) :
    (found angles fs).length ≤ fs.length := by
  induction fs generalizing angles with
  | nil => exact Nat.le_refl 0
  | cons f fs ih =>
    have := ih (f.anglesBehind angles)
    rw [found]
    split <;> simp <;> omega

theorem found_eq_map_iff (f : DefaultedField) (fs : List DefaultedField) :
    found 0 (f :: fs) = (f :: fs).map field ↔ ∀ g ∈ (f :: fs).dropLast, g.anglesBehind 0 = 0 := by
  induction fs generalizing f with
  | nil => simp [found]
  | cons g gs ih =>
    have hfirst : found 0 (f :: g :: gs) = f.field :: found (f.anglesBehind 0) (g :: gs) := rfl
    rw [hfirst, List.map_cons, List.cons_inj_right,
      List.dropLast_cons_of_ne_nil (List.cons_ne_nil g gs), List.forall_mem_cons]
    by_cases hangles : f.anglesBehind 0 = 0
    · rw [hangles, ih g]
      simp
    · refine iff_of_false (fun heq => ?_) (fun h => hangles h.1)
      have hlen := length_found_le (g.anglesBehind (f.anglesBehind 0)) gs
      rw [found, if_neg hangles, List.nil_append] at heq
      rw [heq, List.length_map, List.length_cons] at hlen
      omega

def words (f : DefaultedField) : List Word :=
  (.ident, f.label.1) :: sign ':' :: (f.type.words ++ Expr.valueWords f.value)

theorem balanced (f : DefaultedField) : Balanced (f.words.map Prod.fst) := by
  refine .name (.mark rfl rfl (f.type.balanced.append_words ?_))
  rw [value]
  cases f.default with
  | none => exact .nil
  | some e => exact .mark rfl rfl e.undivided.balanced

theorem splitsTo (f : DefaultedField) (n : Nat) : SplitsTo n (f.anglesBehind n) f.words := by
  have hcolon : Unsplit 0 (sign ':' :: f.type.words) :=
    .cons rfl (by simp) (.inl (by simp)) f.type.unsplit
  have hfront : Unsplit 0 ((.ident, f.label.1) :: sign ':' :: f.type.words) :=
    .cons rfl (by simp) (.inl (by simp)) hcolon
  have hbalanced : Balanced (((.ident, f.label.1) :: sign ':' :: f.type.words).map Prod.fst) :=
    .name (.mark rfl rfl f.type.balanced)
  refine (hfront.splitsTo (Nat.zero_le n)).append hbalanced ?_
  rw [anglesBehind, value]
  cases f.default with
  | none => exact (Unsplit.nil n).splitsTo (Nat.le_refl n)
  | some e =>
    have hdefault : Undivided ((sign '=' :: e.words).map Prod.fst) :=
      .other rfl rfl (by simp) e.undivided
    exact hdefault.splitsTo n

theorem enumFree_append (f : DefaultedField) {ws : List Word} (hnext : Nameless ws) (hne : ws ≠ [])
    (h : EnumFree ws) : EnumFree (f.words ++ ws) := by
  have hlabel := ne_enum_of_not_keyword f.label.2.2.2
  rw [words, List.cons_append, List.cons_append, List.append_assoc, value]
  refine .cons hlabel (.mark ?_)
  cases f.default with
  | none => exact f.type.enumFree_append hnext hne h
  | some e =>
    have hdefault : EnumFree e.words := .of_forall_ne fun w hw he => e.enumless (he ▸ hw)
    exact f.type.enumFree_append (nameless_cons (by simp) _) (List.cons_ne_nil _ _)
      (.mark (hdefault.append h))

theorem head?_value (f : DefaultedField) (lead : Text) (p : Place) {more : List Token}
    (hmore : more = [] ∨ f.default.isSome) :
    ∀ t ∈ (toTokens lead p (Expr.valuePieces f.value) ++ more).head?, t.kind = .punct '=' := by
  rw [value]
  cases hdefault : f.default with
  | none =>
    obtain rfl := hmore.resolve_right (by simp [hdefault])
    simp [Expr.valuePieces, toTokens]
  | some e =>
    rintro _ ⟨⟩
    rfl

theorem exists_pieces (f : DefaultedField) :
    ∃ ps, textOf ps = f.text ∧ ps.filterMap word? = f.words ∧
      (∀ c rest, isEdge c = true → Reads ps (c :: rest) ∧ Reads ps (',' :: c :: rest)) ∧
      ∀ lead p more, more = [] ∨ f.default.isSome →
          IsField (toTokens lead p ps ++ more) f.field := by
  obtain ⟨ps, htext, hwords, hread, htokens⟩ := f.type.exists_pieces
  have hplain := f.label.2.1
  refine ⟨.token .ident f.label.1 :: .token (.punct ':') [':'] :: .blank ' ' ::
    (ps ++ Expr.valuePieces f.value), ?_, ?_, ?_, ?_⟩
  · simp [textOf_append, htext, text, Piece.text, Expr.textOf_valuePieces]
  · change (.ident, f.label.1) :: sign ':' :: (ps ++ Expr.valuePieces f.value).filterMap word? = _
    rw [List.filterMap_append, hwords, Expr.filterMap_valuePieces]
    rfl
  · intro c rest hc
    have hfront : ∀ t, Stops t → Reads (Expr.valuePieces f.value) t →
        Reads (.token .ident f.label.1 :: .token (.punct ':') [':'] :: .blank ' ' ::
          (ps ++ Expr.valuePieces f.value)) t := fun t ht hvalue =>
      ⟨Spells.stands_name hplain (by rintro _ ⟨⟩; rfl), Spells.stands_mark (by decide) _,
        .blank (by decide), reads_append.2 ⟨hread _ (Expr.stops_valuePieces _ ht), hvalue⟩⟩
    obtain ⟨hvalue, hcomma⟩ := Expr.reads_valuePieces f.value hc rest
    exact ⟨hfront _ (stops_of_isEdge hc rest) hvalue, hfront _ (stops_cons (by decide) _) hcomma⟩
  · intro lead p more hmore
    obtain ⟨lead', happend⟩ := toTokens_append ps (Expr.valuePieces f.value) [' ']
      (((p.advance f.label.1).advance [':']).advance [' '])
    obtain ⟨u, us, hbefore, hcollapse⟩ := htokens [' '] _ _ (f.head?_value lead' _ hmore)
    rw [← List.append_assoc, ← happend] at hbefore
    have hfield : f.field = ⟨if f.label.1 = ['_'] then none else some f.label.1,
        (Token.sourceOf (u :: us)).collapse⟩ := by rw [if_neg f.label.2.2.1, hcollapse]; rfl
    rw [hfield]
    refine .of_splitLabel? ?_ hbefore
    simp [toTokens, splitLabel?, Lexeme.isPunct, Lexeme.name, unquoted_of_isPlainName hplain]

/-- Fields with commas between them, and the ranges that these are split into with angle brackets
open. -/
theorem exists_pieces_joined (f : DefaultedField) (fs : List DefaultedField) :
    ∃ ps, textOf ps = Text.joinWith ", ".toList ((f :: fs).map text) ∧
      (∀ rest, Reads ps (')' :: rest)) ∧
      Balanced ((ps.filterMap word?).map Prod.fst) ∧ EnumFree (ps.filterMap word? ++ [sign ')']) ∧
      ∀ lead p n, ∃ range ranges, splitItems n (items (toTokens lead p ps)) = range :: ranges ∧
        (n = 0 → IsField (range.flatMap Item.tokens) f.field) ∧
        List.Forall₂ IsField (ranges.map (·.flatMap Item.tokens))
            (found (f.anglesBehind n) fs) := by
  induction fs generalizing f with
  | nil =>
    obtain ⟨ps, htext, hwords, hread, hfield⟩ := f.exists_pieces
    refine ⟨ps, htext, fun rest => (hread ')' rest (by decide)).1, hwords ▸ f.balanced, ?_,
      fun lead p n => ?_⟩
    · rw [hwords]
      exact f.enumFree_append (nameless_cons (by simp) _) (List.cons_ne_nil _ _) (.mark trivial)
    · have hsplit := f.splitsTo n (toTokens lead p ps) (by rw [map_word_toTokens, hwords]) []
      rw [List.append_nil, splitItems, foldr_consItem, List.append_nil] at hsplit
      refine ⟨_, _, hsplit, fun _ => ?_, .nil⟩
      have hfield := hfield lead p [] (.inl rfl)
      rwa [flatMap_items, ← List.append_nil (toTokens lead p ps)]
  | cons g gs ih =>
    obtain ⟨ps, htext, hwords, hread, hfield⟩ := f.exists_pieces
    obtain ⟨qs, hqtext, hqread, hqbalanced, hqfree, hqranges⟩ := ih g
    have hjoined : (ps ++ .token (.punct ',') [','] :: .blank ' ' :: qs).filterMap word? =
        f.words ++ sign ',' :: qs.filterMap word? := by
      rw [List.filterMap_append, hwords]
      rfl
    refine ⟨ps ++ .token (.punct ',') [','] :: .blank ' ' :: qs, ?_, ?_, ?_, ?_, fun lead p n => ?_⟩
    · rw [textOf_append, htext, textOf_cons, textOf_cons, hqtext]
      simp [Piece.text]
    · intro rest
      refine reads_append.2 ⟨(hread ' ' _ (by decide)).2, Spells.stands_mark (by decide) _, ?_⟩
      exact ⟨.blank (by decide), hqread rest⟩
    · rw [hjoined]
      exact f.balanced.append_words (.mark rfl rfl hqbalanced)
    · rw [hjoined, List.append_assoc]
      exact f.enumFree_append (nameless_cons (by simp) _) (List.cons_ne_nil _ _) (.mark hqfree)
    · obtain ⟨lead', htokens⟩ :=
        toTokens_append ps (.token (.punct ',') [','] :: .blank ' ' :: qs) lead p
      have hsplit := f.splitsTo n (toTokens lead p ps) (by rw [map_word_toTokens, hwords])
      obtain ⟨range, ranges, hranges, hfirst, hrest⟩ := hqranges [' ']
        (((p.advance (textOf ps)).advance [',']).advance [' ']) (f.anglesBehind n)
      rw [htokens,
        items_append (hwords ▸ f.balanced) (Token.map_kind_of_map_word (map_word_toTokens ps _ _)),
        hsplit, toTokens, toTokens, items_cons rfl, splitItems]
      simp only [Item.isPunct, Lexeme.isPunct]
      by_cases hangles : f.anglesBehind n = 0
      · -- the comma separates, and the range of the next field is one of its own
        rw [hangles] at hranges hfirst hrest ⊢
        refine ⟨items (toTokens lead p ps), range :: ranges, ?_, fun _ => ?_, ?_⟩
        · simp [foldr_consItem, hranges]
        · have hfield := hfield lead p [] (.inl rfl)
          rwa [flatMap_items, ← List.append_nil (toTokens lead p ps)]
        · exact .cons (hfirst rfl) hrest
      · -- the comma stays inside of the range, behind a default value
        refine ⟨items (toTokens lead p ps) ++
          .token ⟨⟨lead', .punct ',', [',']⟩, p.advance (textOf ps)⟩ :: range,
          ranges, ?_, fun hn => ?_, ?_⟩
        · simp [hangles, hranges, consItem, foldr_consItem]
        · have hdefault : f.default.isSome := by
            rw [Option.isSome_iff_ne_none]
            intro hnone
            rw [anglesBehind, hnone] at hangles
            exact hangles hn
          rw [List.flatMap_append, flatMap_items]
          exact hfield lead p _ (.inr hdefault)
        · rw [found, if_neg hangles]
          exact hrest

end DefaultedField

/-- Just those fields of a payload are found in front of which the default values leave no angle
bracket open. -/
theorem readEnumerations_defaults (access : Option Access) (name c : PlainName) (f : DefaultedField)
    (fs : List DefaultedField) :
    ∃ e, readEnumerations (enumHeader access name ++ " case ".toList ++ written c.1 ++
          parenthesized ((f :: fs).map DefaultedField.text) ++ " \x7d".toList) = .ok [e] ∧
      e.decl.name = name.1 ∧ e.decl.members = [] ∧
        e.decl.cases = [⟨c.1, DefaultedField.found 0 (f :: fs)⟩] ∧
      (DefaultedField.found 0 (f :: fs) = (f :: fs).map DefaultedField.field ↔
        ∀ g ∈ (f :: fs).dropLast, g.anglesBehind 0 = 0) := by
  obtain ⟨hs, hstext, hsreads, hsheader⟩ := exists_inline_header access name
  obtain ⟨as, has, haswords, hasreads, -⟩ := (spells_case c.2).exists_pieces
  obtain ⟨ps, hps, hpsreads, hpsbalanced, hpsfree, hpsranges⟩ :=
    DefaultedField.exists_pieces_joined f fs
  have hfields :
      ∀ lead p, readFields (toTokens lead p ps) = .ok (DefaultedField.found 0 (f :: fs)) :=
    fun lead p => by
      obtain ⟨range, ranges, hsplit, hfirst, hrest⟩ := hpsranges lead p 0
      apply readFields_eq_ok
      rw [splitFields, hsplit]
      exact .cons (hfirst rfl) hrest
  have hcase :=
    Part.of_payload c.2 haswords hasreads hpsreads (by decide : isSpace ' ' = true) hpsbalanced
    (.mark hpsfree) hfields
  have henum := Part.enum hsreads hsheader hcase 0
  obtain ⟨es, hes, hfound⟩ := henum.readEnumerations
  obtain ⟨e, rest, he, hrest, rfl⟩ := List.forall₂_cons_left_iff.1 hfound
  obtain rfl := List.forall₂_nil_left_iff.1 hrest
  refine ⟨e, ?_, ?_, ?_, ?_, DefaultedField.found_eq_map_iff f fs⟩
  · rw [← hes]
    simp [hstext, has, textOf_parens, hps, textOf_indentedBrace, parenthesized, Piece.text]
  · rw [he.name, unquoted_written name.2]
  · rw [he.members]
    rfl
  · exact he.cases

/-- The value `1 < 2`. -/
def DefaultValue.comparison : DefaultValue where
  pieces := [.token .literal ['1'], .blank ' ', .token (.punct '<') ['<'], .blank ' ',
    .token .literal ['2']]
  reads := ⟨Spells.stands_number rfl (by simp) (stops_cons (by decide) _), .blank rfl,
    Spells.stands_mark (by decide) _, .blank rfl,
    Spells.stands_number rfl (by simp) (stops_cons (by decide) _), trivial⟩
  undivided := .other rfl rfl (by simp) (.other rfl rfl (by simp) (.other rfl rfl (by simp) .nil))
  enumless := by decide

/-- In `a: Bool = 1 < 2, b: Int` the second field is not found. -/
theorem readEnumerations_defaults_comparison :
    ∃ e, readEnumerations "enum E \x7b case c(a: Bool = 1 < 2, b: Int) \x7d".toList = .ok [e] ∧
      e.decl.cases = [⟨"c".toList, [⟨some "a".toList, "Bool".toList⟩]⟩] := by
  obtain ⟨e, he, -, -, hcases, -⟩ := readEnumerations_defaults none ⟨"E".toList, by decide⟩
    ⟨"c".toList, by decide⟩
    ⟨⟨"a".toList, by decide⟩, .named ⟨"Bool".toList, by decide, trivial⟩, some .comparison⟩
    [⟨⟨"b".toList, by decide⟩, .named ⟨"Int".toList, by decide, trivial⟩, none⟩]
  exact ⟨e, he, hcases⟩

/-- A comparison in a default value takes the next field with it. -/
theorem fields_of_comparison :
    (readEnumerations "enum E \x7b case c(a: Bool = 1 < 2, b: Int) \x7d".toList).toOption.map
      (·.map (·.decl.cases)) = some [[⟨"c".toList, [⟨some "a".toList, "Bool".toList⟩]⟩]] := by
  decide +kernel

end CaseAccessors
