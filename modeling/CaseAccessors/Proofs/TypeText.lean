import CaseAccessors.Proofs.ReaderSteps
import CaseAccessors.Proofs.SqueezedTrivia

/-! The text of a type is the source of its tokens with the blanks collapsed. Lexing it gives the
tokens back unless collapsing changes a token, or takes the line end behind a line comment or behind
a name whose backtick has no other end. -/
namespace CaseAccessors

open Piece

def LexesTo (s : Text) (ws : List Word) : Prop := ∃ ts, tokenize s = .ok ts ∧ ts.map Token.word = ws

/-- Whether nothing but the end of its line closes the backtick that a name begins with. -/
def Lexeme.isOpenName (t : Lexeme) : Bool :=
  match t.text with
  | '`' :: s => !s.contains '`'
  | _ => false

/-- Tokens whose source keeps its words when its blanks are collapsed. -/
structure Collapsible (ts : List Token) : Prop where
  unchanged : ∀ t ∈ ts, t.text.collapse = t.text
  closed : ∀ t ∈ ts.dropLast, t.isOpenName = false
  uncommented : ∀ t ∈ ts.tail, hasLineComment t.lead = false

def Lexeme.word (l : Lexeme) : Word := (l.kind, l.text)

theorem map_word_placed (ls : List Lexeme) (p : Place) :
    (Lexeme.placed p ls).map Token.word = ls.map Lexeme.word := by
  induction ls generalizing p with
  | nil => rfl
  | cons l ls ih => rw [Lexeme.placed, List.map_cons, ih]; rfl

theorem lexesTo_iff {s : Text} {ws : List Word} :
    LexesTo s ws ↔ (lexemes s).map (·.map Lexeme.word) = .ok ws := by
  unfold LexesTo tokenize
  cases lexemes s with
  | error u => simp [Except.map]
  | ok ls => simp [Except.map, map_word_placed]

theorem map_word_lexemes (s : Text) :
    (lexemes s).map (·.map Lexeme.word) =
      (afterTrivia s).bind fun
        | [] => .ok []
        | c :: behind => (readToken c behind).bind fun (kind, rest) =>
          ((lexemes rest).map (·.map Lexeme.word)).map
              ((kind, Text.upTo (c :: behind) rest) :: ·) := by
  rw [lexemes]
  split
  · next h => rw [h]; rfl
  · next h => rw [h]; rfl
  · next h =>
    rw [h]
    simp only [Except.bind]
    split
    · next h =>
      rw [h]
      rfl
    · next rest h =>
      rw [h]
      dsimp only
      cases lexemes rest <;> rfl

theorem lexesTo_of_nil {s : Text} (h : afterTrivia s = .ok []) (ws : List Word) :
    LexesTo s ws ↔ ws = [] := by
  rw [lexesTo_iff, map_word_lexemes, h]
  simp [Except.bind, eq_comm]

theorem lexesTo_nil : LexesTo [] [] := (lexesTo_of_nil (by rw [afterTrivia]) []).2 rfl

theorem lexesTo_congr {s t : Text} (h : afterTrivia s = afterTrivia t) (ws : List Word) :
    LexesTo s ws ↔ LexesTo t ws := by
  rw [lexesTo_iff, lexesTo_iff, map_word_lexemes, h, ← map_word_lexemes]

theorem lexesTo_cons {c : Char} {s u rest : Text} {kind : Kind} (hstart : StartsToken c s)
    (hread : readToken c s = .ok (kind, rest)) (hs : s = u ++ rest) (ws : List Word) :
    LexesTo (c :: s) ws ↔ ∃ vs, ws = (kind, c :: u) :: vs ∧ LexesTo rest vs := by
  have hupTo : Text.upTo (c :: s) rest = c :: u := by
    rw [hs]
    exact Text.upTo_append (c :: u) rest
  simp only [lexesTo_iff]
  rw [map_word_lexemes, afterTrivia_eq_self hstart]
  simp only [Except.bind, hread, hupTo]
  cases (lexemes rest).map (·.map Lexeme.word) <;> simp [Except.map, eq_comm]

theorem Piece.Stands.lexesTo {text rest : Text} {kind : Kind}
    (h : (Piece.token kind text).Stands rest)
    (ws : List Word) :
    LexesTo (text ++ rest) ws ↔ ∃ vs, ws = (kind, text) :: vs ∧ LexesTo rest vs := by
  cases h with
  | token hstart hread => exact lexesTo_cons hstart hread rfl ws

def sourceBehind (ts : List Token) : Text := ts.flatMap fun t => t.lead ++ t.text

def squeezedBehind (ts : List Token) : Text := ts.flatMap fun t => t.lead.squeeze ++ t.text

def StandTogether : List Token → Text → Prop
  | [], _ => True
  | t :: ts, tail => afterTrivia t.lead = .ok [] ∧
    (Piece.token t.kind t.text).Stands (sourceBehind ts ++ tail) ∧ StandTogether ts tail

theorem standTogether_append {ts us : List Token} {tail : Text} :
    StandTogether (ts ++ us) tail ↔ StandTogether ts (sourceBehind us ++ tail) ∧
      StandTogether us tail := by
  induction ts with
  | nil => simp [StandTogether]
  | cons t ts ih => simp [StandTogether, sourceBehind, ih, and_assoc]

theorem exists_standTogether_of_lexemes {s : Text} {ls : List Lexeme} (h : lexemes s = .ok ls) :
    ∃ tail, ∀ p, sourceBehind (Lexeme.placed p ls) ++ tail = s ∧
      StandTogether (Lexeme.placed p ls) tail := by
  fun_induction lexemes s generalizing ls with
  | case1 => cases h
  | case2 s ht =>
    cases h
    exact ⟨s, fun p => ⟨rfl, trivial⟩⟩
  | case3 => cases h
  | case4 s c behind ht kind rest hr ih =>
    obtain ⟨ls', hl, rfl⟩ := exists_of_map_eq_ok h
    obtain ⟨tail, htail⟩ := ih hl
    obtain ⟨u, rfl⟩ := readToken_suffix hr
    obtain ⟨_, _, _, hstart⟩ := exists_trivia ht
    obtain ⟨lead, rfl, hlead⟩ := exists_of_afterTrivia ht
    have hupTo : Text.upTo (c :: (u ++ rest)) rest = c :: u := Text.upTo_append (c :: u) rest
    refine ⟨tail, fun p => ?_⟩
    simp only [Text.upTo_append, hupTo, Lexeme.placed]
    obtain ⟨hrest, hstand⟩ := htail ((p.advance lead).advance (c :: u))
    refine ⟨?_, hlead, ?_, hstand⟩
    · rw [sourceBehind, List.flatMap_cons, List.append_assoc, List.append_assoc]
      exact congrArg (fun t => lead ++ (c :: u ++ t)) hrest
    · rw [hrest]
      exact .token (hstart _ _ rfl) hr

theorem exists_standTogether {s : Text} {ts : List Token} (h : tokenize s = .ok ts) :
    ∃ tail, sourceBehind ts ++ tail = s ∧ StandTogether ts tail := by
  unfold tokenize at h
  split at h
  · next ls hls =>
    cases h
    obtain ⟨tail, htail⟩ := exists_standTogether_of_lexemes hls
    exact ⟨tail, htail .start⟩
  · cases h

@[simp] theorem sourceBehind_cons (t : Token) (ts : List Token) :
    sourceBehind (t :: ts) = t.lead ++ (t.text ++ sourceBehind ts) := by
  simp [sourceBehind]

@[simp] theorem squeezedBehind_cons (t : Token) (ts : List Token) :
    squeezedBehind (t :: ts) = t.lead.squeeze ++ (t.text ++ squeezedBehind ts) := by
  simp [squeezedBehind]

theorem sourceOf_cons (t : Token) (ts : List Token) :
    Token.sourceOf (t :: ts) = t.text ++ sourceBehind ts := rfl

theorem squeeze_source {t : Token} {ts : List Token} (h : ∀ u ∈ t :: ts, Tidy u.text) :
    Text.squeeze (t.text ++ sourceBehind ts) = t.text ++ squeezedBehind ts ∧
      Tidy (t.text ++ squeezedBehind ts) := by
  have ht := h t List.mem_cons_self
  induction ts generalizing t with
  | nil =>
    rw [sourceBehind, squeezedBehind, List.flatMap_nil, List.flatMap_nil, List.append_nil]
    exact ⟨ht.squeeze_eq_self, ht⟩
  | cons u us ih =>
    have hu := h u (List.mem_cons_of_mem t List.mem_cons_self)
    obtain ⟨hsqueeze, htidy⟩ := ih (fun v hv => h v (List.mem_cons_of_mem t hv)) hu
    have hhead : (u.text ++ sourceBehind us).head?.any isBlank = false := by
      obtain ⟨c, s, hc, hblank⟩ := hu.head
      rw [hc]
      exact hblank
    rw [sourceBehind_cons, squeezedBehind_cons]
    refine ⟨?_, ht.append_squeeze u.lead htidy⟩
    rw [ht.squeeze_append, Text.squeeze_append u.lead hhead, hsqueeze]

theorem collapse_sourceOf_cons {t : Token} {ts : List Token} (h : ∀ u ∈ t :: ts, Tidy u.text) :
    (Token.sourceOf (t :: ts)).collapse = t.text ++ squeezedBehind ts := by
  obtain ⟨hsqueeze, htidy⟩ := squeeze_source h
  rw [sourceOf_cons, ← Text.collapse_squeeze, hsqueeze, htidy.collapse]

theorem newline_notMem_squeezedBehind {ts : List Token} (h : ∀ u ∈ ts, Tidy u.text) :
    '\n' ∉ squeezedBehind ts := by
  intro hn
  obtain ⟨t, ht, hn⟩ := List.mem_flatMap.1 hn
  obtain hn | hn := List.mem_append.1 hn
  · exact newline_notMem_squeeze t.lead hn
  · exact absurd ((h t ht).eq_space hn (by decide)) (by decide)

theorem cut_squeezedBehind (ts : List Token) (tail : Text) {after : Text}
    (hafter : ∀ c ∈ after.head?, isEdge c = true) :
    Cut (sourceBehind ts ++ tail) (squeezedBehind ts ++ after) := by
  induction ts with
  | nil => exact .stop hafter
  | cons t ts ih =>
    rw [sourceBehind_cons, squeezedBehind_cons]
    simp only [List.append_assoc]
    exact (ih.append t.text).squeeze t.lead

theorem Piece.Stands.cut {text rest rest' : Text} {kind : Kind}
    (h : (Piece.token kind text).Stands rest)
    (hopen : ∀ s, text = '`' :: s → '`' ∉ s → rest' = []) (hcut : Cut rest rest') :
    (Piece.token kind text).Stands rest' := by
  cases h with
  | token hstart hread =>
    refine .token (hstart.cut hcut) ((TokenForm.of_readToken hread).cut ?_ hcut).readToken
    intro s hs hname
    rw [hopen s hs fun hmem => (hname '`' hmem).1 rfl]
    simp

theorem Lexeme.isOpenName_iff {t : Lexeme} :
    t.isOpenName = true ↔ ∃ s, t.text = '`' :: s ∧ '`' ∉ s := by
  unfold isOpenName
  split
  · next s hs => simp [hs]
  · next hs => simpa using fun s h => absurd h (hs s)

theorem not_lexesTo_of_open {s rest : Text} (hs : '`' ∉ s) (hne : rest ≠ []) (hrest : '\n' ∉ rest)
    (kind : Kind) (ws : List Word) : ¬LexesTo ('`' :: (s ++ rest)) ((kind, '`' :: s) :: ws) := by
  intro h
  obtain ⟨u, hu⟩ := afterBacktick_suffix (s ++ rest)
  have hstart : StartsToken '`' (s ++ rest) := ⟨rfl, fun h => by cases h⟩
  have hread : readToken '`' (s ++ rest) = .ok (.ident, afterBacktick (s ++ rest)) := rfl
  obtain ⟨vs, hws, -⟩ := (lexesTo_cons hstart hread hu.symm _).1 h
  obtain ⟨-, rfl⟩ : kind = .ident ∧ s = u := by simpa using (List.cons.inj hws).1
  obtain ⟨v, rfl, -⟩ | ⟨-, hend⟩ := afterBacktick_append_iff.1 (List.append_cancel_left hu)
  · simp at hs
  · obtain ⟨c, t, rfl⟩ := List.exists_cons_of_ne_nil hne
    obtain rfl := hend c rfl
    exact hrest List.mem_cons_self

/-- Texts that a tidy type can stand in front of: nothing that its last token takes as its own. -/
structure EndsTypes (last : Token) (after : Text) : Prop where
  edge : ∀ c ∈ after.head?, isEdge c = true
  newline : '\n' ∉ after
  closed : last.isOpenName = true → after = []

/-- Tidy tokens are lexed again from the squeezed source just if no line end was needed. -/
theorem lexesTo_squeezed {t : Token} {ts : List Token} {tail after : Text} {ws : List Word}
    (h : StandTogether (t :: ts) tail) (htidy : ∀ u ∈ t :: ts, Tidy u.text)
    (hafter : ∀ u ∈ (t :: ts).getLast?, EndsTypes u after) (hws : LexesTo after ws) :
    LexesTo (t.text ++ (squeezedBehind ts ++ after)) ((t :: ts).map Token.word ++ ws) ↔
      (∀ u ∈ (t :: ts).dropLast, u.isOpenName = false) ∧
        ∀ u ∈ ts, hasLineComment u.lead = false := by
  induction ts generalizing t with
  | nil =>
    obtain ⟨-, hstand, -⟩ := h
    obtain ⟨hedge, -, hclosed⟩ := hafter t rfl
    have hstand := hstand.cut (fun s hs hname => hclosed (Lexeme.isOpenName_iff.2 ⟨s, hs, hname⟩))
      (.stop hedge)
    refine iff_of_true ?_ (by simp)
    exact (hstand.lexesTo _).2 ⟨ws, rfl, hws⟩
  | cons u us ih =>
    obtain ⟨-, hstand, hlead, hstand', hus⟩ := h
    have htail := fun v hv => htidy v (List.mem_cons_of_mem t hv)
    rw [List.getLast?_cons_cons] at hafter
    obtain ⟨hedge, hnewline, -⟩ := hafter _ (List.getLast?_eq_some_getLast (List.cons_ne_nil u us))
    have hline : '\n' ∉ squeezedBehind (u :: us) ++ after := fun hn =>
      (List.mem_append.1 hn).elim (newline_notMem_squeezedBehind htail) hnewline
    have hne : squeezedBehind (u :: us) ++ after ≠ [] := by
      obtain ⟨c, s, hc, -⟩ := (htail u List.mem_cons_self).head
      simp [hc]
    rw [List.dropLast_cons_of_ne_nil (List.cons_ne_nil u us), List.forall_mem_cons,
      List.forall_mem_cons]
    by_cases hopen : t.isOpenName = true
    · obtain ⟨s, hs, hname⟩ := Lexeme.isOpenName_iff.1 hopen
      refine iff_of_false ?_ (by simp [hopen])
      rw [List.map_cons, Token.word, hs]
      exact not_lexesTo_of_open hname hne hline _ _
    · have hstand :=
        hstand.cut (fun s hs hname => absurd (Lexeme.isOpenName_iff.2 ⟨s, hs, hname⟩) hopen)
        (cut_squeezedBehind (u :: us) tail hedge)
      have hcons : LexesTo (t.text ++ (squeezedBehind (u :: us) ++ after))
        ((t :: u :: us).map Token.word ++ ws) ↔
          LexesTo (squeezedBehind (u :: us) ++ after) ((u :: us).map Token.word ++ ws) := by
        rw [hstand.lexesTo]
        simp [Token.word]
      rw [squeezedBehind_cons, List.append_assoc, List.append_assoc] at hline
      rw [hcons, squeezedBehind_cons, List.append_assoc, List.append_assoc]
      cases hcomment : hasLineComment u.lead with
      | true =>
        rw [lexesTo_of_nil (afterTrivia_squeeze_line hlead hcomment fun hn =>
          hline (List.mem_append_right _ hn))]
        simp
      | false =>
        rw [lexesTo_congr (afterTrivia_squeeze hlead hcomment _),
          ih ⟨hlead, hstand', hus⟩ htail hafter]
        simp [hopen]

theorem StandTogether.tidy {ts : List Token} {tail : Text} (h : StandTogether ts tail)
    (hts : Collapsible ts) :
    ∀ t ∈ ts, Tidy t.text := by
  intro t ht
  refine (Tidy.collapse_eq_self_iff ?_).1 (hts.unchanged t ht)
  obtain ⟨before, behind, rfl⟩ := List.append_of_mem ht
  obtain ⟨-, -, hstand, -⟩ := standTogether_append.1 h
  exact hstand.text_ne_nil

theorem tidy_of_tokenize_collapse {s : Text} {ts : List Token} (h : tokenize s.collapse = .ok ts) :
    ∀ t ∈ ts, Tidy t.text := by
  obtain ⟨tail, hs, hstand⟩ := exists_standTogether h
  intro t ht
  obtain ⟨before, behind, rfl⟩ := List.append_of_mem ht
  obtain ⟨-, -, hstand, -⟩ := standTogether_append.1 hstand
  have hsplit :
      s.collapse = (sourceBehind before ++ t.lead) ++
      (t.text ++ (sourceBehind behind ++ tail)) := by
    rw [← hs]
    simp [sourceBehind]
  generalize sourceBehind behind ++ tail = rest at hsplit hstand
  generalize t.text = u at hsplit hstand
  have hne : s.collapse ≠ [] := by
    intro hnil
    rw [hnil] at hsplit
    obtain ⟨-, hrest⟩ := List.append_eq_nil_iff.1 hsplit.symm
    exact hstand.text_ne_nil (List.append_eq_nil_iff.1 hrest).1
  have htidy := Tidy.of_collapse hne
  -- the only blanks of the text are spaces, and no token begins or ends with one of these
  have hblank : ∀ c ∈ s.collapse, isSpace c = false → isBlank c = false := fun c hc hspace => by
    rw [Bool.eq_false_iff]
    intro hblank
    rw [htidy.eq_space hc hblank] at hspace
    cases hspace
  rw [hsplit] at htidy hblank
  cases hstand with
  | @token c u _ _ hstart hread =>
    have hc := hblank c (by simp) hstart.1
    have hu := htidy.of_append_left ⟨c, rfl, hc⟩
    obtain ⟨-, hend⟩ | ⟨d, hd, hspace, -⟩ := ending_of_tokenForm (TokenForm.of_readToken hread)
      (by rintro _ ⟨⟩; exact hstart.1)
    · cases rest with
      | nil => rwa [List.append_nil] at hu
      | cons d rest =>
        obtain rfl := hend d rfl
        exact absurd (hu.eq_space (c := '\n') (by simp) (by decide)) (by decide)
    · have hmem := List.mem_append_left rest (List.mem_of_getLast? hd)
      exact hu.of_append_right ⟨d, hd, hblank d (List.mem_append_right _ hmem) hspace⟩

/-- Lexing the text of a type gives its tokens back just if they can be collapsed. -/
theorem lexesTo_collapse_sourceOf_iff {ts : List Token} {tail : Text} (h : StandTogether ts tail)
    (hne : ts ≠ []) : LexesTo (Token.sourceOf ts).collapse (ts.map Token.word) ↔
      Collapsible ts := by
  obtain ⟨t, ts, rfl⟩ := List.exists_cons_of_ne_nil hne
  have hsqueezed : (∀ u ∈ t :: ts, Tidy u.text) →
      (LexesTo (Token.sourceOf (t :: ts)).collapse ((t :: ts).map Token.word) ↔
        (∀ u ∈ (t :: ts).dropLast, u.isOpenName = false) ∧
            ∀ u ∈ ts, hasLineComment u.lead = false) := by
    intro htidy
    have hend : ∀ u ∈ (t :: ts).getLast?, EndsTypes u [] := fun _ _ =>
      ⟨by simp, by simp, fun _ => rfl⟩
    have hiff := lexesTo_squeezed h htidy hend lexesTo_nil
    rwa [List.append_nil, List.append_nil, ← collapse_sourceOf_cons htidy] at hiff
  constructor
  · intro hlex
    have htidy : ∀ u ∈ t :: ts, Tidy u.text := fun u hu => by
      obtain ⟨us, hus, hwords⟩ := hlex
      have hmem : u.word ∈ us.map Token.word := hwords ▸ List.mem_map_of_mem hu
      obtain ⟨v, hv, hword⟩ := List.mem_map.1 hmem
      rw [← (Prod.mk.inj hword).2]
      exact tidy_of_tokenize_collapse hus v hv
    rw [hsqueezed htidy] at hlex
    exact ⟨fun u hu => (htidy u hu).collapse, hlex.1, hlex.2⟩
  · intro hts
    rw [hsqueezed (h.tidy hts)]
    exact ⟨hts.closed, hts.uncommented⟩

def optionalWords (type : Text) (ws : List Word) : List Word :=
  if needsParens type then sign '(' :: (ws ++ [sign ')', sign '?']) else ws ++ [sign '?']

/-- Lexing the optional of a type gives back the tokens of the type, unless the last of them is a
name that nothing closes. -/
theorem lexesTo_optionalType {ts : List Token} {tail : Text} (h : StandTogether ts tail)
    (hne : ts ≠ []) (hts : Collapsible ts) (hlast : ∀ t ∈ ts.getLast?, t.isOpenName = false) :
    LexesTo (optionalType (Token.sourceOf ts).collapse)
      (optionalWords (Token.sourceOf ts).collapse (ts.map Token.word)) := by
  obtain ⟨t, ts, rfl⟩ := List.exists_cons_of_ne_nil hne
  have htidy := h.tidy hts
  have hquestion : LexesTo ['?'] [sign '?'] :=
    ((Spells.stands_mark (c := '?') (by decide) []).lexesTo _).2 ⟨[], rfl, lexesTo_nil⟩
  have hparen : LexesTo [')', '?'] [sign ')', sign '?'] :=
    ((Spells.stands_mark (c := ')') (by decide) ['?']).lexesTo _).2 ⟨_, rfl, hquestion⟩
  have hends : ∀ after : Text, (∀ c ∈ after, c = ')' ∨ c = '?') →
      ∀ u ∈ (t :: ts).getLast?, EndsTypes u after := fun after hafter u hu => by
    refine ⟨fun c hc => ?_, fun hn => ?_, fun hopen => ?_⟩
    · obtain rfl | rfl := hafter c (List.mem_of_mem_head? hc) <;> rfl
    · obtain h | h := hafter _ hn <;> cases h
    · rw [hlast u hu] at hopen
      cases hopen
  rw [collapse_sourceOf_cons htidy, optionalType, optionalWords]
  split
  · have hinner :=
      (lexesTo_squeezed h htidy (hends [')', '?'] (by simp)) hparen).2 ⟨hts.closed, hts.uncommented⟩
    rw [← List.append_assoc] at hinner
    exact ((Spells.stands_mark (c := '(') (by decide) _).lexesTo _).2 ⟨_, rfl, hinner⟩
  · have hall :=
      (lexesTo_squeezed h htidy (hends ['?'] (by simp)) hquestion).2 ⟨hts.closed, hts.uncommented⟩
    rwa [← List.append_assoc] at hall

theorem StandTogether.of_infix {ts us : List Token} {tail : Text} (h : StandTogether us tail)
    (hts : ts <:+: us) :
    ∃ rest, StandTogether ts rest := by
  obtain ⟨before, behind, rfl⟩ := hts
  rw [List.append_assoc] at h
  exact ⟨_, (standTogether_append.1 (standTogether_append.1 h).2).1⟩

/-- The field is what the tokens declare, and lexing its type gives back the tokens that the type is
written with just if these can be collapsed. Then the optional that accessors have as their type is
that of these tokens too, unless the last of them is a name that nothing closes. -/
structure Field.IsDeclaredBy (ts : List Token) (f : Field) : Prop where
  label : f.label = fieldLabel? ts
  type : f.type = (Token.sourceOf (typeTokens ts)).collapse
  lexesTo_iff : LexesTo f.type ((typeTokens ts).map Token.word) ↔ Collapsible (typeTokens ts)
  optional : Collapsible (typeTokens ts) → (∀ t ∈ (typeTokens ts).getLast?, t.isOpenName = false) →
    LexesTo (optionalType f.type) (optionalWords f.type ((typeTokens ts).map Token.word))

/-- The fields of every case that is found are declared by what stands between the commas of the
payload behind its name. -/
theorem readEnumerations_types {src : Text} {enums : List Enumeration}
    (h : readEnumerations src = .ok enums) :
    ∃ tokens, tokenize src = .ok tokens ∧ ∀ e ∈ enums, ∀ c ∈ e.decl.cases,
      ∃ before name behind, tokens = before ++ name :: behind ∧ c.name = name.name ∧
        List.Forall₂ Field.IsDeclaredBy ((splitFields (payloadTokens behind)).filter (!·.isEmpty))
            c.fields := by
  obtain ⟨tokens, htokens, hcases⟩ := exists_tokens_of_readEnumerations h
  obtain ⟨tail, -, hstand⟩ := exists_standTogether htokens
  refine ⟨tokens, htokens, fun e he c hc => ?_⟩
  obtain ⟨before, name, behind, rfl, hname, hfields⟩ := hcases e he c hc
  refine ⟨before, name, behind, rfl, hname, ?_⟩
  have hpayload : payloadTokens behind <:+: before ++ name :: behind :=
    (isInfix_payloadTokens behind).trans ⟨before ++ [name], [], by simp⟩
  obtain ⟨hlen, hread⟩ := List.forall₂_iff_zip.1 (readFields_eq_ok_iff.1 hfields)
  refine List.forall₂_iff_zip.2 ⟨hlen, fun {range f} hmem => ?_⟩
  obtain ⟨hne, rfl⟩ := hread hmem
  have hrange : range <:+: payloadTokens behind :=
    isInfix_of_mem_splitFields (List.mem_filter.1 (List.of_mem_zip hmem).1).1
  obtain ⟨rest, htype⟩ := hstand.of_infix (((isInfix_typeTokens range).trans hrange).trans hpayload)
  exact ⟨rfl, rfl, lexesTo_collapse_sourceOf_iff htype hne, lexesTo_optionalType htype hne⟩

/-- A block comment and a line end inside of a type. -/
theorem readEnumerations_types_comment :
    ∃ tokens, tokenize "enum E \x7b case a(key: [Int /* k */ :\n String] = x, B?) \x7d".toList =
      .ok tokens ∧
      ∃ before name behind, tokens = before ++ name :: behind ∧ "a".toList = name.name ∧
        List.Forall₂ Field.IsDeclaredBy ((splitFields (payloadTokens behind)).filter (!·.isEmpty))
          [⟨some "key".toList, "[Int /* k */ : String]".toList⟩, ⟨none, "B?".toList⟩] := by
  have hread :
      readEnumerations "enum E \x7b case a(key: [Int /* k */ :\n String] = x, B?) \x7d".toList =
        .ok [⟨⟨"E".toList, none, [],
          [⟨"a".toList, [⟨some "key".toList, "[Int /* k */ : String]".toList⟩,
          ⟨none, "B?".toList⟩]⟩]⟩, 54, some [' '], []⟩] :=
    eq_ok_of_toOption (by decide +kernel)
  obtain ⟨tokens, htokens, hcases⟩ := readEnumerations_types hread
  exact ⟨tokens, htokens, hcases _ (List.mem_singleton_self _) _ (List.mem_singleton_self _)⟩

/-- Behind a line comment the rest of a type gets lost: what was its end of line is a space. -/
theorem type_of_line_comment :
    (readEnumerations
      "enum E \x7b\n    case a([Int: // key\n        String])\n\x7d\n".toList).toOption.map
        (·.map (·.decl.cases)) = some [[⟨"a".toList, [⟨none, "[Int: // key String]".toList⟩]⟩]] ∧
      (tokenize
        "enum E \x7b\n    case a([Int: // key\n        String])\n\x7d\n".toList).toOption.map
        (fun ts => (typeTokens (payloadTokens (ts.drop 5))).map Token.word) =
          some [sign '[', (.ident, "Int".toList), sign ':', (.ident, "String".toList), sign ']'] ∧
      (tokenize "[Int: // key String]".toList).toOption.map (·.map Token.word) =
        some [sign '[', (.ident, "Int".toList), sign ':'] := by
  decide +kernel

end CaseAccessors
