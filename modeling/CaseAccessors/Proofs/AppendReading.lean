import CaseAccessors.Proofs.Boundary
import CaseAccessors.Proofs.Moved

/-! Reading two texts one behind the other. If the first one is made of whole lines and its last
token closes a body, then what is read of either is what is read of it alone, but for the offsets in
the second. -/
namespace CaseAccessors

open Piece

namespace Text

theorem cutAt?_add (a b : Text) (n : Nat) :
    cutAt? (a ++ b) (byteSize a + n) =
      (cutAt? b n).map fun (before, after) => (a ++ before, after) := by
  induction a with
  | nil => simp [byteSize]
  | cons c a ih =>
    have hpos := c.utf8Size_pos
    obtain ⟨m, hm⟩ : ∃ m, byteSize (c :: a) + n = m + 1 := ⟨byteSize (c :: a) + n - 1, by
      simp only [byteSize]
      omega⟩
    have hrest : m + 1 - c.utf8Size = byteSize a + n := by
      simp only [byteSize] at hm
      omega
    have hfits : c.utf8Size ≤ m + 1 := by
      simp only [byteSize] at hm
      omega
    rw [hm, List.cons_append, cutAt?, if_pos hfits, hrest, ih, Option.map_map]
    rfl

variable {a : Text}

theorem lastLine_append_of_lines (ha : ∀ c ∈ a.getLast?, c = '\n') (s : Text) :
    lastLine (a ++ s) = lastLine s := by
  have hnone : a.reverse.takeWhile (· != '\n') = [] := by
    rw [List.getLast?_eq_head?_reverse] at ha
    cases hrev : a.reverse with
    | nil => rfl
    | cons c t =>
      rw [hrev] at ha
      rw [ha c rfl]
      rfl
  unfold lastLine
  rw [List.reverse_append, List.takeWhile_append, hnone, List.append_nil]
  split
  · next hlen => rw [(List.takeWhile_prefix _).eq_of_length hlen]
  · rfl

theorem lineIndent?_append_right (ha : ∀ c ∈ a.getLast?, c = '\n') (b : Text) (n : Nat) :
    lineIndent? (a ++ b) (byteSize a + n) = lineIndent? b n := by
  rw [lineIndent?, cutAt?_add, lineIndent?, Option.map_map]
  cases cutAt? b n with
  | none => rfl
  | some r =>
    exact congrArg (fun s => some (List.takeWhile isIndent (s ++ r.2)))
      (lastLine_append_of_lines ha r.1)

theorem indentAt_append {before after : Text} {c : Char} (hc : c ∈ after)
    (hindent : isIndent c = false)
    (rest : Text) : indentAt before (after ++ rest) = indentAt before after := by
  unfold indentAt
  rw [← List.append_assoc, List.takeWhile_append, if_neg]
  intro hlen
  have hall := List.all_takeWhile (p := isIndent) (l := lastLine before ++ after)
  rw [(List.takeWhile_prefix _).eq_of_length hlen, List.all_eq_true] at hall
  rw [hall c (List.mem_append_right _ hc)] at hindent
  cases hindent

end Text

theorem lineIndent?_of_mem_toTokens {ps : List Piece} (hps : Reads ps []) {t : Token}
    (ht : t ∈ toTokens [] .start ps) (b : Text) :
    (textOf ps ++ b).lineIndent? t.place.offset = (textOf ps).lineIndent? t.place.offset := by
  obtain ⟨front, back, hsplit⟩ := List.append_of_mem ht
  obtain ⟨as, bs, rfl, -, hplace⟩ := exists_of_toTokens_eq hsplit
  obtain ⟨-, hstands, -⟩ := reads_append.1 hps
  have hoffset : t.place.offset = Text.byteSize (textOf as) := by
    rw [hplace, Place.advance_offset, Place.start, Nat.zero_add]
  obtain ⟨c, hc, hindent⟩ : ∃ c ∈ t.text, Text.isIndent c = false := by
    generalize t.kind = kind, t.text = text at hstands
    obtain _ | _ | _ | ⟨⟨hspace, -⟩, -⟩ := hstands
    exact ⟨_, List.mem_cons_self, Bool.eq_false_iff.2 fun h => by
      rw [Text.isSpace_of_isIndent h] at hspace
      cases hspace⟩
  unfold Text.lineIndent?
  rw [hoffset, textOf_append, List.append_assoc, Text.cutAt?_byteSize, Text.cutAt?_byteSize,
    textOf_cons]
  exact congrArg some (Text.indentAt_append (List.mem_append_left _ hc) hindent b)

theorem Place.advance_of_lines {a : Text} (ha : ∀ c ∈ a.getLast?, c = '\n') :
    start.advance a = start.moved (Text.byteSize a) (a.count '\n') := by
  have hcolumn : (start.advance a).column = 1 := by
    cases a using List.reverseRecOn with
    | nil => rfl
    | append_singleton a c =>
      rw [ha c List.getLast?_concat, advance_append]
      rfl
  rw [show start.advance a =
    ⟨(start.advance a).offset, (start.advance a).line, (start.advance a).column⟩
    from rfl, advance_offset, advance_line, hcolumn]
  rfl

namespace Site

def extend (s : Site) (rest : List Token) : Site := { s with behind := s.behind ++ rest }

theorem body_extend {s : Site} {brace : Token} {g : Group} (h : s.body = .ok (brace, g))
    (rest : List Token) :
    (s.extend rest).body = .ok (brace, { g with behind := g.behind ++ rest }) := by
  unfold body extend at *
  rw [List.dropWhile_append]
  cases hdrop : s.behind.dropWhile fun t => !t.isPunct '{' with
  | nil =>
    rw [hdrop] at h
    cases h
  | cons t ts =>
    rw [hdrop] at h
    cases hg : group? 0 ts with
    | none =>
      simp only [hg] at h
      cases h
    | some g' =>
      simp only [hg] at h
      cases h
      simp [group?_append_right hg rest]

/-- Unless the first tokens end with the word `enum`, the ones behind them begin no site among them.
-/
theorem among_append_right {ts : List Token}
    (hlast : ∀ t ∈ ts.getLast?, t.word ≠ (.ident, "enum".toList)) (before rest : List Token) :
    among before (ts ++ rest) =
      (among before ts).map (·.extend rest) ++ among (ts.reverse ++ before) rest := by
  induction ts generalizing before with
  | nil => rfl
  | cons t ts ih =>
    cases ts with
    | nil => exact among_cons (fun ht => absurd ht (hlast t rfl)) before
    | cons u ts =>
      have hnext := ih (by simpa using hlast) (t :: before)
      rw [List.cons_append, List.cons_append, among, ← List.cons_append, hnext, among,
        List.reverse_cons (a := t)]
      split
      · simp [extend]
      · simp

theorem mem_tokens_of_body {s : Site} {brace : Token} {g : Group} (h : s.body = .ok (brace, g))
    {t : Token} (ht : t ∈ g.inside) : t ∈ s.behind := by
  obtain ⟨rest, hbehind, -, hg⟩ := exists_of_body h
  rw [hbehind, append_of_group? hg]
  simp [ht]

theorem enumeration_extend {ps : List Piece} (hps : Reads ps []) {s : Site}
    (hs : s ∈ among [] (toTokens [] .start ps)) {e : Enumeration}
    (h : s.enumeration (textOf ps) = .ok e) (rest : List Token) (text : Text) :
    (s.extend rest).enumeration (textOf ps ++ text) = .ok e := by
  obtain ⟨brace, g, b, hbody, hread, rfl⟩ := enumeration_eq_ok_iff.1 h
  obtain ⟨pre, htokens⟩ := exists_of_mem_among hs
  have hindent : ∀ t ∈ s.keyword :: g.inside,
      (textOf ps ++ text).lineIndent? t.place.offset = (textOf ps).lineIndent? t.place.offset := by
    intro t ht
    apply lineIndent?_of_mem_toTokens hps
    rw [htokens]
    rcases List.mem_cons.1 ht with rfl | ht
    · simp
    · simp [mem_tokens_of_body hbody ht]
  have hmember : (g.inside.find? fun t => brace.place.line < t.place.line).map
      (fun t => ((textOf ps ++ text).lineIndent? t.place.offset).getD []) =
        (g.inside.find? fun t => brace.place.line < t.place.line).map
          fun t => ((textOf ps).lineIndent? t.place.offset).getD [] := by
    apply Option.map_congr
    intro t ht
    rw [hindent t (List.mem_cons_of_mem _ (List.mem_of_find?_eq_some ht))]
  refine enumeration_eq_ok_iff.2 ⟨brace, _, b, body_extend hbody rest, hread, ?_⟩
  rw [hmember, extend, hindent s.keyword List.mem_cons_self]
  rfl

/-- The site is read as the other one is, with offsets that are `n` more. -/
structure Matches (n l : Nat) (s s' : Site) : Prop where
  access : s'.access = s.access
  offset : s'.keyword.place.offset = s.keyword.place.offset + n
  name : s'.name.name = s.name.name
  behind : s'.behind = s.behind.map (Token.moved n l)

/-- What stands in front of a site, nearest first: in the second text alone, and with tokens of the
first one behind, the nearest of which is a closing brace. -/
inductive SameFront : List Token → List Token → Prop where
  | closed {ts : List Token} : (∀ t ∈ ts.head?, t.kind = .punct '\x7d') → SameFront [] ts
  | cons {t t' : Token} {before before' : List Token} : t'.word = t.word →
    SameFront before before' →
      SameFront (t :: before) (t' :: before')

variable {n l : Nat} {before before' : List Token}

theorem SameFront.modifiers (h : SameFront before before') (f : Text → Option Access) :
    (before'.takeWhile (·.isWordIn modifierWords)).findSome? (fun t => f t.text) =
      (before.takeWhile (·.isWordIn modifierWords)).findSome? fun t => f t.text := by
  induction h with
  | @closed ts hts =>
    cases ts with
    | nil => rfl
    | cons t ts =>
      have hno : t.isWordIn modifierWords = false := by simp [Lexeme.isWordIn, hts t rfl]
      rw [List.takeWhile_cons_of_neg (by simp [hno])]
      rfl
  | @cons t t' _ _ ht _ ih =>
    obtain ⟨hkind, htext⟩ := Prod.mk.inj ht
    have hsame : t'.isWordIn modifierWords = t.isWordIn modifierWords := by
      rw [Lexeme.isWordIn, Lexeme.isWordIn, hkind, htext]
    rw [List.takeWhile_cons, List.takeWhile_cons, hsame]
    split
    · rw [List.findSome?_cons, List.findSome?_cons, htext, ih]
    · rfl

theorem SameFront.point (h : SameFront before before') :
    before'.head?.any (·.isPunct '.') = before.head?.any (·.isPunct '.') := by
  cases h with
  | closed hts =>
    cases before' with
    | nil => rfl
    | cons t ts => simp [Lexeme.isPunct, hts t rfl]
  | @cons t t' _ _ ht =>
    have hkind : t'.kind = t.kind := congrArg Prod.fst ht
    simp [Lexeme.isPunct, hkind]

theorem forall₂_among_moved {t t' : Token} (hword : t'.word = t.word)
    (hplace : t'.place = t.place.moved n l) (ts : List Token) (h : SameFront before before') :
    List.Forall₂ (Matches n l) (among before (t :: ts))
      (among before' (t' :: ts.map (Token.moved n l))) := by
  induction ts generalizing t t' before before' with
  | nil => exact .nil
  | cons u ts ih =>
    have hlater : List.Forall₂ (Matches n l) (among (t :: before) (u :: ts))
        (among (t' :: before') (u.moved n l :: ts.map (Token.moved n l))) :=
      ih u.word_moved u.place_moved (.cons hword h)
    have henum : t'.isWord "enum" = t.isWord "enum" := by
      rw [Bool.eq_iff_iff, Token.isWord_iff, Token.isWord_iff, hword]
    rw [List.map_cons, among, among, henum, h.point]
    by_cases hsite : (t.isWord "enum" && u.kind == .ident && !before.head?.any (·.isPunct '.')) =
      true
    · rw [if_pos hsite, if_pos (by exact hsite)]
      refine .cons ⟨?_, ?_, rfl, rfl⟩ hlater
      · exact h.modifiers Access.ofKeyword?
      · exact congrArg Place.offset hplace
    · rw [if_neg hsite, if_neg (by exact hsite)]
      exact hlater

/-- The first token of the second text has another lead, of which no site takes notice. -/
theorem forall₂_among_toTokens (ps : List Piece) (lead lead' : Text) (p : Place)
    (h : SameFront before before') :
    List.Forall₂ (Matches n l) (among before (toTokens lead p ps))
      (among before' (toTokens lead' (p.moved n l) ps)) := by
  induction ps generalizing lead lead' p with
  | nil => exact .nil
  | cons q ps ih =>
    cases q with
    | token kind text =>
      rw [toTokens, toTokens, Place.advance_moved, toTokens_moved]
      apply forall₂_among_moved _ _ _ h
      · rfl
      · rfl
    | blank c =>
      rw [toTokens, toTokens, Place.advance_moved]
      exact ih _ _ _
    | comment text =>
      rw [toTokens, toTokens, Place.advance_moved]
      exact ih _ _ _

end Site

def Enumeration.moved (n : Nat) (e : Enumeration) : Enumeration :=
  { e with closeOffset := e.closeOffset + n }

theorem Site.Matches.enumeration {a b : Text} (ha : ∀ c ∈ a.getLast?, c = '\n') {l : Nat}
    {s s' : Site}
    (h : Matches (Text.byteSize a) l s s') {e : Enumeration} (he : s.enumeration b = .ok e) :
    s'.enumeration (a ++ b) = .ok (e.moved (Text.byteSize a)) := by
  obtain ⟨brace, g, contents, hbody, hread, rfl⟩ := Site.enumeration_eq_ok_iff.1 he
  have hindent : ∀ k, (a ++ b).lineIndent? (k + Text.byteSize a) = b.lineIndent? k := fun k => by
    rw [Nat.add_comm, Text.lineIndent?_append_right ha]
  have hfirst : (g.inside.map (Token.moved (Text.byteSize a) l)).find?
      (fun t => (brace.moved (Text.byteSize a) l).place.line < t.place.line) =
        (g.inside.find? fun t => brace.place.line < t.place.line).map
            (Token.moved (Text.byteSize a) l) := by
    rw [List.find?_map]
    simp [Function.comp_def]
  have hline : (fun t : Token => ((a ++ b).lineIndent? t.place.offset).getD []) ∘
      Token.moved (Text.byteSize a) l = fun t => (b.lineIndent? t.place.offset).getD [] :=
    funext fun t => congrArg (·.getD []) (hindent t.place.offset)
  refine Site.enumeration_eq_ok_iff.2
    ⟨_, _, contents, body_moved hbody h.behind, Body.read_moved hread, ?_⟩
  simp only [Group.moved, hfirst, Option.map_map, hline, h.name, h.access, h.offset, hindent]
  rfl

theorem Site.forall₂_enumeration_append {a b : Text} (ha : ∀ c ∈ a.getLast?, c = '\n') {l : Nat}
    {sites sites' : List Site} (h : List.Forall₂ (Matches (Text.byteSize a) l) sites sites')
    {es : List Enumeration} (hes : List.Forall₂ (fun s e => s.enumeration b = .ok e) sites es) :
    List.Forall₂ (fun s e => s.enumeration (a ++ b) = .ok e) sites'
      (es.map (·.moved (Text.byteSize a))) := by
  induction h generalizing es with
  | nil =>
    cases hes
    exact .nil
  | cons hs _ ih =>
    cases hes with
    | cons he hes => exact .cons (hs.enumeration ha he) (ih hes)

theorem readEnumerations_append {a b : Text} (ha : ∀ c ∈ a.getLast?, c = '\n')
    (hlast : ∀ ts, tokenize a = .ok ts → ∀ t ∈ ts.getLast?, t.kind = .punct '\x7d')
    {enums enums' : List Enumeration} (h : readEnumerations a = .ok enums)
    (h' : readEnumerations b = .ok enums') :
    readEnumerations (a ++ b) = .ok (enums ++ enums'.map (·.moved (Text.byteSize a))) := by
  obtain ⟨ps, rfl, hps, hbalanced, hread⟩ := exists_pieces_of_readEnumerations h
  obtain ⟨qs, rfl, hqs, hbalanced', hread'⟩ := exists_pieces_of_readEnumerations h'
  have hlast := hlast _ (tokenize_textOf hps)
  have hall : Balanced ((toTokens [] .start (ps ++ qs)).map (·.kind)) := by
    rw [Token.map_kind_of_map_word (map_word_toTokens _ _ _)] at hbalanced hbalanced' ⊢
    rw [List.filterMap_append, List.map_append]
    exact hbalanced.append hbalanced'
  obtain ⟨lead, htokens⟩ := toTokens_append ps qs [] .start
  rw [Place.advance_of_lines ha] at htokens
  have hfront : Site.SameFront [] ((toTokens [] .start ps).reverse ++ []) := by
    apply Site.SameFront.closed
    rw [List.append_nil, List.head?_reverse]
    exact hlast
  have hmatches := Site.forall₂_among_toTokens (n := Text.byteSize (textOf ps))
    (l := (textOf ps).count '\n') qs [] lead .start hfront
  have hsecond := Site.forall₂_enumeration_append ha hmatches hread'
  generalize toTokens lead _ qs = rest at htokens hsecond
  have hfirst : List.Forall₂ (fun s e => s.enumeration (textOf ps ++ textOf qs) = .ok e)
      ((Site.among [] (toTokens [] .start ps)).map (·.extend rest)) enums := by
    rw [List.forall₂_map_left_iff]
    exact ((List.forall₂_and_left _ _).2 ⟨fun _ hs => hs, hread⟩).imp fun s e ⟨hs, he⟩ =>
      Site.enumeration_extend hps hs he rest _
  rw [← textOf_append, readEnumerations_textOf (reads_append.2 ⟨hps.of_newline ha _, hqs⟩) hall,
    htokens, Site.among_append_right, textOf_append, mapM_eq_ok_iff]
  · exact List.rel_append hfirst hsecond
  · intro t ht hword
    rw [Token.word, hlast t ht] at hword
    cases hword

end CaseAccessors
