import CaseAccessors.Token.Lexing

/-! Source texts as pieces: blanks, comments and tokens. Whether a text is cut so depends for each
piece on the characters behind it alone. Lexing succeeds exactly on the texts that have pieces, and
its tokens are the pieces that are neither blanks nor comments. -/
namespace CaseAccessors

/-- A token without its place and what stands in front of it. -/
abbrev Word := Kind × Text

def Token.word (t : Token) : Word := (t.kind, t.text)

inductive Piece where
  | blank (c : Char)
  | comment (text : Text)
  | token (kind : Kind) (text : Text)
  deriving DecidableEq, Repr

namespace Piece

def text : Piece → Text
  | .blank c => [c]
  | .comment text => text
  | .token _ text => text

def word? : Piece → Option Word
  | .token kind text => some (kind, text)
  | _ => none

theorem filterMap_word?_token (kind : Kind) (text : Text) (ps : List Piece) :
    (token kind text :: ps).filterMap word? = (kind, text) :: ps.filterMap word? := rfl

def textOf (ps : List Piece) : Text := ps.flatMap text

@[simp] theorem textOf_nil : textOf [] = [] := rfl

@[simp] theorem textOf_cons (p : Piece) (ps : List Piece) :
    textOf (p :: ps) = p.text ++ textOf ps := rfl

@[simp] theorem textOf_append (ps qs : List Piece) :
    textOf (ps ++ qs) = textOf ps ++ textOf qs := by
  simp [textOf]

def StartsToken (c : Char) (s : Text) : Prop :=
  isSpace c = false ∧ (c = '/' → ∀ d ∈ s.head?, d ≠ '/' ∧ d ≠ '*')

/-- Lexing reads the piece off a text that goes on with `rest`. -/
inductive Stands : Piece → Text → Prop where
  | blank {c : Char} {rest : Text} : isSpace c = true → Stands (.blank c) rest
  | line {s rest : Text} : '\n' ∉ s → (∀ c ∈ rest.head?, c = '\n') →
      Stands (.comment ('/' :: '/' :: s)) rest
  | block {s rest : Text} : afterComment 0 (s ++ rest) = some rest →
      Stands (.comment ('/' :: '*' :: s)) rest
  | token {c : Char} {s rest : Text} {kind : Kind} : StartsToken c (s ++ rest) →
      readToken c (s ++ rest) = .ok (kind, rest) → Stands (.token kind (c :: s)) rest

/-- Lexing cuts the source of the pieces, with `rest` behind it, into just these pieces. -/
def Reads : List Piece → Text → Prop
  | [], _ => True
  | p :: ps, rest => p.Stands (textOf ps ++ rest) ∧ Reads ps rest

@[simp] theorem reads_nil (rest : Text) : Reads [] rest := trivial

@[simp] theorem reads_cons {p : Piece} {ps : List Piece} {rest : Text} :
    Reads (p :: ps) rest ↔ p.Stands (textOf ps ++ rest) ∧ Reads ps rest := Iff.rfl

theorem reads_append {ps qs : List Piece} {rest : Text} :
    Reads (ps ++ qs) rest ↔ Reads ps (textOf qs ++ rest) ∧ Reads qs rest := by
  induction ps with
  | nil => simp
  | cons p ps ih => simp [ih, and_assoc]

def toLexemes (lead : Text) : List Piece → List Lexeme
  | [] => []
  | .token kind text :: ps => ⟨lead, kind, text⟩ :: toLexemes [] ps
  | .blank c :: ps => toLexemes (lead ++ [c]) ps
  | .comment text :: ps => toLexemes (lead ++ text) ps

/-- The tokens of some pieces that begin at a place, behind the blanks and comments `lead`. -/
def toTokens (lead : Text) (p : Place) : List Piece → List Token
  | [] => []
  | .token kind text :: ps => ⟨⟨lead, kind, text⟩, p⟩ :: toTokens [] (p.advance text) ps
  | .blank c :: ps => toTokens (lead ++ [c]) (p.advance [c]) ps
  | .comment text :: ps => toTokens (lead ++ text) (p.advance text) ps

theorem toTokens_append (as bs : List Piece) (lead : Text) (p : Place) :
    ∃ lead', toTokens lead p (as ++ bs) =
      toTokens lead p as ++ toTokens lead' (p.advance (textOf as)) bs := by
  induction as generalizing lead p with
  | nil => exact ⟨lead, rfl⟩
  | cons q as ih =>
    cases q with
    | token kind text =>
      obtain ⟨lead', h⟩ := ih [] (p.advance text)
      refine ⟨lead', ?_⟩
      rw [List.cons_append, toTokens, h, toTokens, textOf_cons, Place.advance_append]
      rfl
    | blank c =>
      obtain ⟨lead', h⟩ := ih (lead ++ [c]) (p.advance [c])
      refine ⟨lead', ?_⟩
      rw [List.cons_append, toTokens, h, toTokens, textOf_cons, Place.advance_append]
      rfl
    | comment text =>
      obtain ⟨lead', h⟩ := ih (lead ++ text) (p.advance text)
      refine ⟨lead', ?_⟩
      rw [List.cons_append, toTokens, h, toTokens, textOf_cons, Place.advance_append]
      rfl

theorem map_word_toTokens (ps : List Piece) (lead : Text) (p : Place) :
    (toTokens lead p ps).map Token.word = ps.filterMap word? := by
  induction ps generalizing lead p with
  | nil => rfl
  | cons q ps ih =>
    cases q with
    | token => rw [toTokens, List.map_cons, ih]; rfl
    | blank => exact ih _ _
    | comment => exact ih _ _

theorem placed_toLexemes (ps : List Piece) (lead : Text) (p : Place) :
    Lexeme.placed p (toLexemes lead ps) = toTokens lead (p.advance lead) ps := by
  induction ps generalizing lead p with
  | nil => rfl
  | cons q ps ih =>
    cases q with
    | token kind text => simp [toLexemes, toTokens, Lexeme.placed, ih]
    | blank c => simp [toLexemes, toTokens, ih]
    | comment text => simp [toLexemes, toTokens, ih]

theorem toLexemes_of_word? {p : Piece} (hp : p.word? = none) (lead : Text) (ps : List Piece) :
    toLexemes lead (p :: ps) = toLexemes (lead ++ p.text) ps := by
  cases p with
  | token => cases hp
  | blank => rfl
  | comment => rfl

end Piece

theorem afterTrivia_eq_self {c : Char} {s : Text} (h : Piece.StartsToken c s) :
    afterTrivia (c :: s) = .ok (c :: s) := by
  obtain ⟨hc, hs⟩ := h
  unfold afterTrivia
  split
  · next heq => cases heq; exact absurd rfl (hs rfl _ rfl).1
  · next heq => cases heq; exact absurd rfl (hs rfl _ rfl).2
  · next heq => cases heq; simp [hc]
  · next heq => cases heq

theorem afterTrivia_blank {c : Char} (hc : isSpace c = true) (s : Text) :
    afterTrivia (c :: s) = afterTrivia s := by
  have hslash : c ≠ '/' := by rintro rfl; exact absurd hc (by decide)
  conv => lhs; unfold afterTrivia
  split
  · next heq => cases heq; exact absurd rfl hslash
  · next heq => cases heq; exact absurd rfl hslash
  · next heq => cases heq; simp [hc]
  · next heq => cases heq

theorem afterTrivia_line {s rest : Text} (hs : '\n' ∉ s) (hr : ∀ c ∈ rest.head?, c = '\n') :
    afterTrivia ('/' :: '/' :: (s ++ rest)) = afterTrivia rest := by
  have hdrop : (s ++ rest).dropWhile (· != '\n') = rest := by
    rw [List.dropWhile_append_of_pos]
    · cases rest with
      | nil => rfl
      | cons c rest => simp [hr c rfl]
    · intro c hc
      simpa using ne_of_mem_of_not_mem hc hs
  rw [afterTrivia, hdrop]

theorem afterTrivia_block {s rest : Text} (h : afterComment 0 (s ++ rest) = some rest) :
    afterTrivia ('/' :: '*' :: (s ++ rest)) = afterTrivia rest := by
  rw [afterTrivia]
  split
  · next h' => rw [h] at h'; cases h'; rfl
  · next h' => rw [h] at h'; cases h'

theorem afterComment_suffix {depth : Nat} {s rest : Text} (h : afterComment depth s = some rest) :
    rest <:+ s := by
  fun_induction afterComment depth s with
  | case1 depth s ih => exact (ih h).trans ⟨['/', '*'], rfl⟩
  | case2 s => cases h; exact ⟨['*', '/'], rfl⟩
  | case3 depth s ih => exact (ih h).trans ⟨['*', '/'], rfl⟩
  | case4 depth c s _ _ _ ih => exact (ih h).trans (List.suffix_cons c s)
  | case5 => cases h

theorem afterNumber_suffix (s : Text) : afterNumber s <:+ s := by
  fun_induction afterNumber s with
  | case1 d s _ ih => exact ih.trans (List.suffix_cons _ _)
  | case2 => exact List.suffix_refl _
  | case3 c s _ _ ih => exact ih.trans (List.suffix_cons _ _)
  | case4 => exact List.suffix_refl _
  | case5 => exact List.suffix_refl _

theorem after?_suffix {p s rest : Text} (h : Text.after? p s = some rest) : rest <:+ s :=
  ⟨p, (Text.after?_eq_some_iff.1 h).symm⟩

theorem afterString_suffix {frames : List Frame} {s rest : Text}
    (h : afterString frames s = .ok rest) : rest <:+ s := by
  fun_induction afterString frames s with
  | case1 => cases h; exact List.suffix_refl _
  | case2 | case3 | case4 | case9 => cases h
  | case5 hashes multiline opening outer c r _ inner ha ih =>
    exact (ih h).trans ((List.suffix_cons _ _).trans (after?_suffix ha))
  | case6 hashes multiline opening outer c r _ e inner ha _ ih =>
    exact (ih h).trans ((List.suffix_cons _ _).trans (after?_suffix ha))
  | case7 hashes multiline opening outer c r _ _ behind ha ih =>
    exact (ih h).trans (after?_suffix ha)
  | case13 parens opening outer rest ih => exact (ih h).trans ⟨['"', '"', '"'], rfl⟩
  | _ =>
    rename_i ih
    exact (ih h).trans (List.suffix_cons _ _)

theorem openQuote?_suffix {s inside : Text} {frame : Frame}
    (h : openQuote? s = some (frame, inside)) : inside <:+ s := by
  have hd : s.dropWhile (· == '#') <:+ s := List.dropWhile_suffix _
  unfold openQuote? at h
  split at h <;> cases h <;> rename_i hs <;> rw [hs] at hd
  · exact .trans ⟨['"', '"', '"'], rfl⟩ hd
  · exact .trans (List.suffix_cons _ _) hd

theorem afterBacktick_suffix (s : Text) : afterBacktick s <:+ s := by
  have hd : (s.dropWhile fun c => c != '`' && c != '\n') <:+ s := List.dropWhile_suffix _
  unfold afterBacktick
  split
  · next h => rw [h] at hd; exact .trans (List.suffix_cons _ _) hd
  · exact hd

theorem readToken_suffix {c : Char} {s rest : Text} {kind : Kind}
    (h : readToken c s = .ok (kind, rest)) : rest <:+ s := by
  have hlt := length_readToken h
  suffices hc : rest <:+ c :: s by
    rcases List.suffix_cons_iff.1 hc with rfl | hs
    · simp only [List.length_cons] at hlt; omega
    · exact hs
  unfold readToken at h
  split at h
  · cases h; exact (List.dropWhile_suffix _).trans (List.suffix_cons _ _)
  split at h
  · cases h; exact (afterBacktick_suffix s).trans (List.suffix_cons _ _)
  split at h
  · cases h; exact (afterNumber_suffix s).trans (List.suffix_cons _ _)
  split at h
  · next frame inside hq =>
    cases hr : afterString [frame] inside with
    | error e => rw [hr] at h; cases h
    | ok r =>
      rw [hr] at h; cases h
      exact (afterString_suffix hr).trans (openQuote?_suffix hq)
  · split at h <;> cases h
    · exact ⟨['-', '>'], rfl⟩
    · exact List.suffix_cons _ _

theorem exists_of_map_eq_ok {α β ε : Type} {f : α → β} {x : Except ε α} {b : β}
    (h : x.map f = .ok b) : ∃ a, x = .ok a ∧ f a = b := by
  cases x with
  | error e => cases h
  | ok a => exact ⟨a, rfl, Except.ok.inj h⟩

theorem lexemes_of_nil {s : Text} (ht : afterTrivia s = .ok []) : lexemes s = .ok [] := by
  rw [lexemes]
  split
  · next h => rw [ht] at h; cases h
  · rfl
  · next h => rw [ht] at h; cases h

theorem lexemes_of_cons {s behind rest : Text} {c : Char} {kind : Kind}
    (ht : afterTrivia s = .ok (c :: behind)) (hr : readToken c behind = .ok (kind, rest)) :
    lexemes s = (lexemes rest).map fun ls =>
      ⟨s.upTo (c :: behind), kind, Text.upTo (c :: behind) rest⟩ :: ls := by
  rw [lexemes]
  split
  · next h => rw [ht] at h; cases h
  · next h => rw [ht] at h; cases h
  · next h =>
    rw [ht] at h
    cases h
    split
    · next h => rw [hr] at h; cases h
    · next h => rw [hr] at h; cases h; rfl

namespace Piece

theorem exists_trivia {s rest : Text} (h : afterTrivia s = .ok rest) :
    ∃ ps, textOf ps ++ rest = s ∧ Reads ps rest ∧
      ∀ c behind, rest = c :: behind → StartsToken c behind := by
  fun_induction afterTrivia s with
  | case1 r ih =>
    obtain ⟨ps, hs, hps, hrest⟩ := ih h
    have hline : '\n' ∉ r.takeWhile (· != '\n') := fun hm => by
      simpa using List.all_eq_true.1 List.all_takeWhile _ hm
    have hbehind : ∀ c ∈ (textOf ps ++ rest).head?, c = '\n' := fun c hc => by
      have := List.head?_dropWhile_not (· != '\n') r
      rw [← hs, Option.mem_def.1 hc] at this
      simpa using this
    exact ⟨.comment ('/' :: '/' :: r.takeWhile (· != '\n')) :: ps, by simp [text, hs],
      ⟨.line hline hbehind, hps⟩, hrest⟩
  | case2 r r' hr ih =>
    obtain ⟨ps, rfl, hps, hrest⟩ := ih h
    obtain ⟨u, rfl⟩ := afterComment_suffix hr
    exact ⟨.comment ('/' :: '*' :: u) :: ps, by simp [text], ⟨.block hr, hps⟩, hrest⟩
  | case3 => cases h
  | case4 c r _ _ hc ih =>
    obtain ⟨ps, rfl, hps, hrest⟩ := ih h
    exact ⟨.blank c :: ps, by simp [text], ⟨.blank hc, hps⟩, hrest⟩
  | case5 c r hline hblock hc =>
    cases h
    refine ⟨[], by simp, trivial, ?_⟩
    rintro c' behind ⟨rfl, rfl⟩
    refine ⟨by simpa using hc, ?_⟩
    rintro rfl d hd
    obtain ⟨t, rfl⟩ : ∃ t, r = d :: t := List.head?_eq_some_iff.1 hd
    exact ⟨fun h => hline t rfl (h ▸ rfl), fun h => hblock t rfl (h ▸ rfl)⟩
  | case6 => cases h; exact ⟨[], rfl, trivial, by simp⟩

theorem exists_of_lexemes {s : Text} {ls : List Lexeme} (h : lexemes s = .ok ls) :
    ∃ ps, textOf ps = s ∧ Reads ps [] := by
  fun_induction lexemes s generalizing ls with
  | case1 => cases h
  | case2 s ht =>
    obtain ⟨ps, hs, hps, _⟩ := exists_trivia ht
    exact ⟨ps, by simpa using hs, hps⟩
  | case3 => cases h
  | case4 s c behind ht kind rest hr ih =>
    obtain ⟨ps, rfl, hps, hstart⟩ := exists_trivia ht
    obtain ⟨u, rfl⟩ := readToken_suffix hr
    obtain ⟨ls', hl, _⟩ := exists_of_map_eq_ok h
    obtain ⟨qs, rfl, hqs⟩ := ih hl
    refine ⟨ps ++ .token kind (c :: u) :: qs, by simp [text], reads_append.2 ⟨?_, ?_, hqs⟩⟩
    · simpa [text] using hps
    · exact .token (by simpa using hstart _ _ rfl) (by simpa using hr)

theorem Stands.afterTrivia {p : Piece} {rest : Text} (h : p.Stands rest) (hp : p.word? = none) :
    afterTrivia (p.text ++ rest) = afterTrivia rest := by
  cases h with
  | blank hc => exact afterTrivia_blank hc rest
  | line hs hr => exact afterTrivia_line hs hr
  | block hs => exact afterTrivia_block hs
  | token => cases hp

/-- Lexing the source of pieces gives them back, behind any blanks and comments. -/
theorem lexemes_textOf {ps : List Piece} (h : Reads ps []) (lead : Text)
    (hlead : CaseAccessors.afterTrivia (lead ++ textOf ps) =
      CaseAccessors.afterTrivia (textOf ps)) :
    lexemes (lead ++ textOf ps) = .ok (toLexemes lead ps) := by
  induction ps generalizing lead with
  | nil => exact lexemes_of_nil (by rw [hlead, textOf_nil, CaseAccessors.afterTrivia])
  | cons p ps ih =>
    obtain ⟨hp, hps⟩ := h
    rw [List.append_nil] at hp
    cases hw : p.word? with
    | none =>
      have hskip := hp.afterTrivia hw
      rw [textOf_cons, hskip] at hlead
      rw [toLexemes_of_word? hw, textOf_cons, ← List.append_assoc]
      exact ih hps _ (by rw [List.append_assoc]; exact hlead)
    | some w =>
      cases hp with
      | @token c s _ kind hstart hread =>
        have hupTo : Text.upTo (c :: (s ++ textOf ps)) (textOf ps) = c :: s :=
          Text.upTo_append (c :: s) (textOf ps)
        have hself := afterTrivia_eq_self hstart
        have htail := ih hps [] rfl
        rw [textOf_cons, text, List.cons_append] at hlead ⊢
        rw [List.nil_append] at htail
        rw [lexemes_of_cons (hlead.trans hself) hread, htail]
        simp [Except.map, toLexemes, hupTo]
      | _ => cases hw

theorem tokenize_textOf {ps : List Piece} (h : Reads ps []) :
    tokenize (textOf ps) = .ok (toTokens [] .start ps) := by
  have hl : lexemes (textOf ps) = .ok (toLexemes [] ps) := lexemes_textOf h [] rfl
  rw [tokenize, hl]
  simp [placed_toLexemes]

theorem exists_of_tokenize {s : Text} {ts : List Token} (h : tokenize s = .ok ts) :
    ∃ ps, textOf ps = s ∧ Reads ps [] ∧ toTokens [] .start ps = ts := by
  cases hl : lexemes s with
  | error u => rw [tokenize, hl] at h; cases h
  | ok ls =>
    obtain ⟨ps, rfl, hps⟩ := exists_of_lexemes hl
    exact ⟨ps, rfl, hps, Except.ok.inj ((tokenize_textOf hps).symm.trans h)⟩

end Piece

end CaseAccessors
