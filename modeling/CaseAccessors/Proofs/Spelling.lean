import CaseAccessors.Proofs.Boundary

/-! Texts that spell words: names, numbers and single marks with blanks between them. They are what
gets printed, and they are cut into just those words wherever they stand. -/
namespace CaseAccessors

open Piece

/-- A name in ASCII letters, digits, underscores and dollar signs. -/
def isPlainName (s : Text) : Bool :=
  s.head?.any isIdentStart && s.all fun c => isIdentPart c && decide (c.toNat < 0x80)

def isMark (c : Char) : Bool :=
  !isIdentPart c && !isSpace c && !(['`', '"', '#', '-', '/'].contains c)

/-- No name or number goes on with the text. -/
def Stops (s : Text) : Prop := ∀ c ∈ s.head?, isIdentPart c = false ∧ c ≠ '.'

def Closed (s : Text) : Prop := ∀ c ∈ s.getLast?, isIdentPart c = false

/-- The text is made of the words, with blanks wherever there are any. -/
inductive Spells : Text → List Word → Prop where
  | nil : Spells [] []
  | blank {c : Char} {s : Text} {ws : List Word} : isSpace c = true → Spells s ws →
      Spells (c :: s) ws
  | mark {c : Char} {s : Text} {ws : List Word} : isMark c = true → Spells s ws →
      Spells (c :: s) ((.punct c, [c]) :: ws)
  | arrow {s : Text} {ws : List Word} : Spells s ws →
      Spells ('-' :: '>' :: s) ((.arrow, ['-', '>']) :: ws)
  | name {n s : Text} {ws : List Word} : isPlainName n = true →
      (∀ c ∈ s.head?, isIdentPart c = false) → Spells s ws → Spells (n ++ s) ((.ident, n) :: ws)
  | quotedName {n s : Text} {ws : List Word} : isPlainName n = true → Spells s ws →
      Spells ('`' :: (n ++ '`' :: s)) ((.ident, '`' :: (n ++ ['`'])) :: ws)
  | number {c : Char} {n s : Text} {ws : List Word} : c.isDigit = true →
      (∀ c ∈ n, c.isDigit = true) → Stops s → Spells s ws →
      Spells (c :: (n ++ s)) ((.literal, c :: n) :: ws)

theorem isIdentPart_of_isPlainName {n : Text} (h : isPlainName n = true) :
    ∀ c ∈ n, isIdentPart c = true := by
  intro c hc
  rw [isPlainName, Bool.and_eq_true, List.all_eq_true] at h
  have hpart := h.2 c hc
  rw [Bool.and_eq_true] at hpart
  exact hpart.1

theorem exists_cons_of_isPlainName {n : Text} (h : isPlainName n = true) :
    ∃ c t, n = c :: t ∧ isIdentStart c = true := by
  rw [isPlainName, Bool.and_eq_true] at h
  cases n with
  | nil => simp at h
  | cons c t => exact ⟨c, t, rfl, by simpa using h.1⟩

theorem isIdentPart_of_isDigit {c : Char} (h : c.isDigit = true) : isIdentPart c = true := by
  rw [isIdentPart, h, Bool.or_true]

theorem isSpace_of_isIdentPart {c : Char} (h : isIdentPart c = true) : isSpace c = false := by
  rw [isIdentPart_iff] at h
  rw [Bool.eq_false_iff, ne_eq, isSpace_iff]
  omega

def isNumberPart (c : Char) : Bool := c.isAlphanum || c == '_'

theorem afterNumber_append {n rest : Text} (hn : ∀ c ∈ n, isNumberPart c = true)
    (hrest : Stops rest) :
    afterNumber (n ++ rest) = rest := by
  induction n with
  | nil =>
    cases rest with
    | nil => rfl
    | cons c rest =>
      obtain ⟨hpart, hpoint⟩ := hrest c rfl
      rw [List.nil_append, afterNumber_cons, if_neg]
      rw [Bool.eq_false_iff, ne_eq, isIdentPart_iff] at hpart
      simp only [numberGoesOn, Bool.or_eq_true, Bool.and_eq_true, beq_iff_eq, hpoint, false_and,
        false_or, Char.isAlphanum, isAlpha_iff, isDigit_iff, char_eq_iff]
      change ¬(_ ∨ c.toNat = 95)
      omega
  | cons c n ih =>
    have hc : numberGoesOn c (n ++ rest) = true := by
      rw [numberGoesOn, Bool.or_assoc]
      exact Bool.or_eq_true_iff.2 (.inr (hn c List.mem_cons_self))
    rw [List.cons_append, afterNumber_cons, if_pos hc]
    exact ih fun d hd => hn d (List.mem_cons_of_mem c hd)

def Uncommented (ps : List Piece) : Prop :=
  ∀ p ∈ ps, p.word? = none → ∃ c, p = .blank c ∧ isSpace c = true

namespace Uncommented

theorem nil : Uncommented [] := fun _ hp => absurd hp List.not_mem_nil

theorem blank {c : Char} (hc : isSpace c = true) {ps : List Piece} (h : Uncommented ps) :
    Uncommented (.blank c :: ps) := by
  rintro p (_ | ⟨_, hp⟩) hword
  · exact ⟨c, rfl, hc⟩
  · exact h p hp hword

theorem token (kind : Kind) (text : Text) {ps : List Piece} (h : Uncommented ps) :
    Uncommented (.token kind text :: ps) := by
  rintro p (_ | ⟨_, hp⟩) hword
  · cases hword
  · exact h p hp hword

end Uncommented

namespace Spells

theorem startsToken {c : Char} (hc : isSpace c = false) (hslash : c ≠ '/') (s : Text) :
    StartsToken c s :=
  ⟨hc, fun h => absurd h hslash⟩

theorem stands_mark {c : Char} (h : isMark c = true) (rest : Text) :
    (Piece.token (.punct c) [c]).Stands rest := by
  simp only [isMark, Bool.and_eq_true, Bool.not_eq_true', isIdentPart, Bool.or_eq_false_iff,
    List.contains_eq_mem, List.mem_cons, List.not_mem_nil, or_false, decide_eq_false_iff_not,
    not_or] at h
  obtain ⟨⟨⟨hstart, hdigit⟩, hspace⟩, hback, hquote, hhash, hminus, hslash⟩ := h
  apply Piece.Stands.token (startsToken hspace hslash _)
  apply TokenForm.readToken
  refine .mark hstart hback hdigit ?_ fun hc => absurd hc hminus
  rw [openQuote?_eq_none_iff, List.dropWhile_cons_of_neg (by simpa using hhash)]
  simpa using hquote

theorem stands_name {n rest : Text} (h : isPlainName n = true)
    (hrest : ∀ c ∈ rest.head?, isIdentPart c = false) : (Piece.token .ident n).Stands rest := by
  obtain ⟨c, t, rfl, hc⟩ := exists_cons_of_isPlainName h
  have hpart := isIdentPart_of_isPlainName h
  have hslash : c ≠ '/' := by rintro rfl; cases hc
  apply Piece.Stands.token
    (startsToken (isSpace_of_isIdentPart (hpart c List.mem_cons_self)) hslash _)
  apply TokenForm.readToken
  exact .word hc (fun a ha => hpart a (List.mem_cons_of_mem c ha)) hrest

theorem stands_quotedName {n : Text} (h : isPlainName n = true) (rest : Text) :
    (Piece.token .ident ('`' :: (n ++ ['`']))).Stands rest := by
  apply Piece.Stands.token (startsToken (by decide) (by decide) _)
  apply TokenForm.readToken
  refine .quotedWord fun a ha => ?_
  have hpart := isIdentPart_of_isPlainName h a ha
  constructor <;> rintro rfl <;> cases hpart

theorem stands_number {c : Char} {n rest : Text} (hc : c.isDigit = true)
    (hn : ∀ a ∈ n, isNumberPart a = true) (hrest : Stops rest) :
    (Piece.token .literal (c :: n)).Stands rest := by
  have hslash : c ≠ '/' := by rintro rfl; cases hc
  apply Piece.Stands.token
    (startsToken (isSpace_of_isIdentPart (isIdentPart_of_isDigit hc)) hslash _)
  apply TokenForm.readToken
  exact .number hc (afterNumber_append hn hrest)

theorem exists_pieces {s : Text} {ws : List Word} (h : Spells s ws) :
    ∃ ps, textOf ps = s ∧ ps.filterMap word? = ws ∧ (∀ rest, Stops rest → Reads ps rest) ∧
      Uncommented ps := by
  induction h with
  | nil => exact ⟨[], rfl, rfl, fun _ _ => trivial, .nil⟩
  | @blank c _ _ hc _ ih =>
    obtain ⟨ps, rfl, rfl, hread, hps⟩ := ih
    exact ⟨.blank c :: ps, rfl, rfl, fun rest h => ⟨.blank hc, hread rest h⟩, hps.blank hc⟩
  | @mark c _ _ hc _ ih =>
    obtain ⟨ps, rfl, rfl, hread, hps⟩ := ih
    exact ⟨.token (.punct c) [c] :: ps, rfl, rfl, fun rest h => ⟨stands_mark hc _, hread rest h⟩,
      hps.token _ _⟩
  | arrow _ ih =>
    obtain ⟨ps, rfl, rfl, hread, hps⟩ := ih
    refine ⟨.token .arrow ['-', '>'] :: ps, rfl, rfl, fun rest h => ⟨?_, hread rest h⟩,
      hps.token _ _⟩
    apply Piece.Stands.token (startsToken (by decide) (by decide) _)
    exact TokenForm.arrow.readToken
  | @name n _ _ hn hs _ ih =>
    obtain ⟨ps, rfl, rfl, hread, hps⟩ := ih
    refine ⟨.token .ident n :: ps, rfl, rfl, fun rest h => ⟨stands_name hn ?_, hread rest h⟩,
      hps.token _ _⟩
    cases hps : textOf ps with
    | nil => exact fun c hc => (h c hc).1
    | cons d t => rw [hps] at hs; exact hs
  | @quotedName n _ _ hn _ ih =>
    obtain ⟨ps, rfl, rfl, hread, hps⟩ := ih
    exact ⟨.token .ident ('`' :: (n ++ ['`'])) :: ps, by simp [Piece.text], rfl,
      fun rest h => ⟨stands_quotedName hn _, hread rest h⟩, hps.token _ _⟩
  | @number c n _ _ hc hn hs _ ih =>
    obtain ⟨ps, rfl, rfl, hread, hps⟩ := ih
    have hparts : ∀ a ∈ n, isNumberPart a = true := fun a ha => by
      rw [isNumberPart, Char.isAlphanum, hn a ha, Bool.or_true, Bool.true_or]
    refine ⟨.token .literal (c :: n) :: ps, rfl, rfl,
      fun rest h => ⟨stands_number hc hparts ?_, hread rest h⟩, hps.token _ _⟩
    cases hps : textOf ps with
    | nil => exact h
    | cons d t => rw [hps] at hs; exact hs

theorem exists_pieces_of_newline {s : Text} {ws : List Word} (h : Spells s ws)
    (hend : ∀ c ∈ s.getLast?, c = '\n') :
    ∃ ps, textOf ps = s ∧ ps.filterMap word? = ws ∧ ∀ rest, Reads ps rest := by
  obtain ⟨ps, rfl, hws, hread, -⟩ := h.exists_pieces
  exact ⟨ps, rfl, hws, (hread [] (by simp [Stops])).of_newline hend⟩

theorem blanks {t s : Text} {ws : List Word} (ht : ∀ c ∈ t, isSpace c = true) (h : Spells s ws) :
    Spells (t ++ s) ws := by
  induction t with
  | nil => exact h
  | cons c t ih =>
    exact .blank (ht c List.mem_cons_self) (ih fun d hd => ht d (List.mem_cons_of_mem c hd))

theorem head?_append {P : Char → Prop} {s t : Text} (hs : ∀ c ∈ s.head?, P c)
    (ht : s = [] → ∀ c ∈ t.head?, P c) : ∀ c ∈ (s ++ t).head?, P c := by
  cases s with
  | nil => exact ht rfl
  | cons => exact hs

theorem closed_of_append {n s : Text} (h : Closed (n ++ s)) : Closed s := by
  intro c hc
  apply h
  rw [List.getLast?_append, Option.mem_def.1 hc]
  rfl

theorem stops_of_closed {n t : Text} (hn : ∀ c ∈ n, isIdentPart c = true) (hne : n ≠ [])
    (h : Closed n ∨ Stops t) : Stops t := by
  refine h.resolve_left fun hclosed => ?_
  have hlast := hclosed _ (List.getLast?_eq_some_getLast hne)
  rw [hn _ (List.getLast_mem hne)] at hlast
  cases hlast

/-- Words follow each other if none of them goes on with the next. -/
theorem append {s t : Text} {ws us : List Word} (hs : Spells s ws) (ht : Spells t us)
    (h : Closed s ∨ Stops t) : Spells (s ++ t) (ws ++ us) := by
  -- what stands behind a piece ends as the whole text does
  have htail : ∀ {n s : Text}, (Closed (n ++ s) ∨ Stops t) → Closed s ∨ Stops t :=
    fun h => h.imp_left closed_of_append
  have hrest : ∀ {c : Char} {s : Text}, (Closed (c :: s) ∨ Stops t) → Closed s ∨ Stops t :=
    fun {c} _ h => htail (n := [c]) h
  induction hs with
  | nil => exact ht
  | blank hc _ ih => exact .blank hc (ih (hrest h))
  | mark hc _ ih => exact .mark hc (ih (hrest h))
  | arrow _ ih => exact .arrow (ih (hrest (hrest h)))
  | @name n s _ hn hs _ ih =>
    have hne : n ≠ [] := by
      obtain ⟨c, u, rfl, -⟩ := exists_cons_of_isPlainName hn
      exact List.cons_ne_nil c u
    have hnil : s = [] → Stops t := fun hs =>
      stops_of_closed (isIdentPart_of_isPlainName hn) hne (by rwa [hs, List.append_nil] at h)
    rw [List.append_assoc]
    exact .name hn (head?_append hs fun hs c hc => (hnil hs c hc).1) (ih (htail h))
  | @quotedName n s _ hn _ ih =>
    have hstep := hrest (htail (n := '`' :: n) h)
    simpa using Spells.quotedName hn (ih hstep)
  | @number c n s _ hc hn hs _ ih =>
    have hdigits : ∀ d ∈ c :: n, isIdentPart d = true := by
      rintro d (_ | ⟨_, hd⟩)
      · exact isIdentPart_of_isDigit hc
      · exact isIdentPart_of_isDigit (hn d hd)
    have hnil : s = [] → Stops t := fun hs =>
      stops_of_closed hdigits (List.cons_ne_nil c n) (by rwa [hs, List.append_nil] at h)
    have htail := ih (htail (n := c :: n) h)
    rw [List.cons_append, List.append_assoc]
    exact .number hc hn (head?_append hs hnil) htail

end Spells

def nameWords? (name : Text) : Option (List Word) :=
  if name = [] then some []
  else if isPlainName name then some [(.ident, name)]
  else none

/-- The words of a text of names, marks and blanks, behind the part of a name that precedes it. -/
def spell? (name : Text) : Text → Option (List Word)
  | [] => nameWords? name
  | c :: s =>
    if isIdentPart c then spell? (name ++ [c]) s
    else if isSpace c then (nameWords? name).bind fun front => (spell? [] s).map (front ++ ·)
    else if isMark c then
      (nameWords? name).bind fun front => (spell? [] s).map fun ws => front ++ (.punct c, [c]) :: ws
    else none

namespace Spells

theorem of_nameWords? {name s : Text} {front ws : List Word} (h : nameWords? name = some front)
    (hs : ∀ c ∈ s.head?, isIdentPart c = false) (hws : Spells s ws) :
    Spells (name ++ s) (front ++ ws) := by
  unfold nameWords? at h
  split at h
  · next hname =>
    cases h
    rw [hname]
    exact hws
  · split at h
    · next hname =>
      cases h
      exact .name hname hs hws
    · cases h

theorem of_spell? {name s : Text} {ws : List Word} (h : spell? name s = some ws) :
    Spells (name ++ s) ws := by
  induction s generalizing name ws with
  | nil => simpa using of_nameWords? h (by simp) .nil
  | cons c s ih =>
    unfold spell? at h
    split at h
    · simpa using ih h
    · next hpart =>
      have hstop : ∀ d ∈ (c :: s).head?, isIdentPart d = false := by simpa using hpart
      split at h
      · next hspace =>
        obtain ⟨front, hfront, h⟩ := Option.bind_eq_some_iff.1 h
        obtain ⟨us, hus, rfl⟩ := Option.map_eq_some_iff.1 h
        exact of_nameWords? hfront hstop (.blank hspace (ih hus))
      · split at h
        · next hmark =>
          obtain ⟨front, hfront, h⟩ := Option.bind_eq_some_iff.1 h
          obtain ⟨us, hus, rfl⟩ := Option.map_eq_some_iff.1 h
          exact of_nameWords? hfront hstop (.mark hmark (ih hus))
        · cases h

theorem fixed {s : Text} {ws : List Word} (h : spell? [] s = some ws) : Spells s ws := of_spell? h

end Spells

example : spell? [] "case let .".toList =
    some [(.ident, "case".toList), (.ident, "let".toList), (.punct '.', ['.'])] := by decide

end CaseAccessors
