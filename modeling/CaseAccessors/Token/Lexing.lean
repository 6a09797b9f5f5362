import CaseAccessors.Token

/-! Cutting a text into tokens. Every character that begins nothing longer is a token of its own, so
only an open string or comment can make this fail. Block comments nest, and a string may hold
interpolations, which may hold strings again: reading one keeps a stack of what is open. -/
namespace CaseAccessors

/-- A construct that the text ends inside of, with the text from where it opens. -/
structure Unterminated where
  fault : Fault
  opening : Text
  deriving DecidableEq, Repr

def isSpace (c : Char) : Bool :=
  c == ' ' || c == '\t' || c == '\n' || c == '\x0c' || c == '\r'

/-- The text behind a block comment inside of which `depth` further ones are open. -/
def afterComment : (depth : Nat) → Text → Option Text
  | depth, '/' :: '*' :: s => afterComment (depth + 1) s
  | 0, '*' :: '/' :: s => some s
  | depth + 1, '*' :: '/' :: s => afterComment depth s
  | depth, _ :: s => afterComment depth s
  | _, [] => none

theorem length_afterComment {depth : Nat} {s rest : Text}
    (h : afterComment depth s = some rest) : rest.length < s.length := by
  fun_induction afterComment depth s with
  | case1 depth s ih => have := ih h; simp only [List.length_cons]; omega
  | case2 s => cases h; simp only [List.length_cons]; omega
  | case3 depth s ih => have := ih h; simp only [List.length_cons]; omega
  | case4 depth c s _ _ _ ih => have := ih h; simp only [List.length_cons]; omega
  | case5 => cases h

def afterTrivia (s : Text) : Except Unterminated Text :=
  match s with
  | '/' :: '/' :: rest => afterTrivia (rest.dropWhile (· != '\n'))
  | '/' :: '*' :: rest =>
    match _h : afterComment 0 rest with
    | some rest => afterTrivia rest
    | none => .error ⟨.unterminatedComment, s⟩
  | c :: rest => if isSpace c then afterTrivia rest else .ok s
  | [] => .ok []
termination_by s.length
decreasing_by
  · have := (List.dropWhile_sublist (l := rest) (· != '\n')).length_le
    simp only [List.length_cons]; omega
  · rename_i _h
    have := length_afterComment _h
    simp only [List.length_cons]; omega
  · simp

theorem length_afterTrivia {s rest : Text} (h : afterTrivia s = .ok rest) :
    rest.length ≤ s.length := by
  fun_induction afterTrivia s with
  | case1 r ih =>
    have := ih h
    have := (List.dropWhile_sublist (l := r) (· != '\n')).length_le
    simp only [List.length_cons]; omega
  | case2 r r' hr ih =>
    have := ih h
    have := length_afterComment hr
    simp only [List.length_cons]; omega
  | case3 => cases h
  | case4 c r _ _ _ ih => have := ih h; simp only [List.length_cons]; omega
  | case5 => cases h; simp
  | case6 => cases h; simp

/-- The text behind a number. A point belongs to it only before a digit. -/
def afterNumber : Text → Text
  | '.' :: d :: s => if d.isDigit then afterNumber (d :: s) else '.' :: d :: s
  | c :: s => if c.isAlphanum || c == '_' then afterNumber s else c :: s
  | [] => []

theorem length_afterNumber (s : Text) : (afterNumber s).length ≤ s.length := by
  fun_induction afterNumber s with
  | case1 d s _ ih => simp only [List.length_cons] at *; omega
  | case2 => simp
  | case3 c s _ _ ih => simp only [List.length_cons]; omega
  | case4 => simp
  | case5 => simp

/-- What is open while a string is read. Each frame has the text from where its string opens. -/
inductive Frame where
  /-- The inside of a string between `hashes` marks `#` and one or three quotes. -/
  | quoted (hashes : Nat) (multiline : Bool) (opening : Text)
  /-- The inside of an interpolation in which `parens` further parentheses are open. -/
  | interpolated (parens : Nat) (opening : Text)
  deriving DecidableEq, Repr

def hashMarks (n : Nat) : Text := List.replicate n '#'

def escapeMark (hashes : Nat) : Text := '\\' :: hashMarks hashes

def closingQuote (hashes : Nat) (multiline : Bool) : Text :=
  '"' :: ((if multiline then ['"', '"'] else []) ++ hashMarks hashes)

def openQuote? (s : Text) : Option (Frame × Text) :=
  match s.dropWhile (· == '#') with
  | '"' :: '"' :: '"' :: rest => some (.quoted (s.takeWhile (· == '#')).length true s, rest)
  | '"' :: rest => some (.quoted (s.takeWhile (· == '#')).length false s, rest)
  | _ => none

theorem length_openQuote? {s rest : Text} {frame : Frame} (h : openQuote? s = some (frame, rest)) :
    rest.length < s.length := by
  have hd := (List.dropWhile_sublist (l := s) (· == '#')).length_le
  unfold openQuote? at h
  split at h <;> cases h <;> rename_i hs <;> rw [hs] at hd <;>
    simp only [List.length_cons] at hd <;> omega

/-- The text behind the string literal whose open parts are `frames`, innermost first. -/
def afterString (frames : List Frame) (s : Text) : Except Unterminated Text :=
  match frames with
  | [] => .ok s
  | .quoted hashes multiline opening :: outer =>
    match s with
    | [] => .error ⟨.unterminatedString, opening⟩
    | c :: rest =>
      if c = '\n' ∧ multiline = false then .error ⟨.unterminatedString, opening⟩
      else
        match _h : Text.after? (escapeMark hashes) (c :: rest) with
        | some [] => .error ⟨.unterminatedString, opening⟩
        | some (e :: inner) =>
          if e = '(' then
            afterString (.interpolated 0 opening :: .quoted hashes multiline opening :: outer) inner
          else afterString (.quoted hashes multiline opening :: outer) inner
        | none =>
          match _h : Text.after? (closingQuote hashes multiline) (c :: rest) with
          | some behind => afterString outer behind
          | none => afterString (.quoted hashes multiline opening :: outer) rest
  | .interpolated parens opening :: outer =>
    match s with
    | [] => .error ⟨.unterminatedString, opening⟩
    | '(' :: rest => afterString (.interpolated (parens + 1) opening :: outer) rest
    | ')' :: rest =>
      match parens with
      | 0 => afterString outer rest
      | parens + 1 => afterString (.interpolated parens opening :: outer) rest
    | '"' :: '"' :: '"' :: rest =>
      afterString (.quoted 0 true s :: .interpolated parens opening :: outer) rest
    | '"' :: rest =>
      afterString (.quoted 0 false s :: .interpolated parens opening :: outer) rest
    | _ :: rest => afterString (.interpolated parens opening :: outer) rest
termination_by s.length
decreasing_by
  all_goals first
    | (have h := congrArg List.length (Text.after?_eq_some_iff.1 _h)
       simp only [escapeMark, closingQuote, List.length_append, List.length_cons] at h ⊢
       omega)
    | (simp only [List.length_cons]; omega)

theorem length_afterString {frames : List Frame} {s rest : Text}
    (h : afterString frames s = .ok rest) : rest.length ≤ s.length := by
  fun_induction afterString frames s with
  | case1 => cases h; exact Nat.le_refl _
  | case2 | case3 | case4 | case9 => cases h
  | case5 hashes multiline opening outer c r _ inner ha ih =>
    have hl := congrArg List.length (Text.after?_eq_some_iff.1 ha)
    have := ih h
    simp only [escapeMark, List.length_append, List.length_cons] at hl ⊢
    omega
  | case6 hashes multiline opening outer c r _ e inner ha _ ih =>
    have hl := congrArg List.length (Text.after?_eq_some_iff.1 ha)
    have := ih h
    simp only [escapeMark, List.length_append, List.length_cons] at hl ⊢
    omega
  | case7 hashes multiline opening outer c r _ _ behind ha ih =>
    have hl := congrArg List.length (Text.after?_eq_some_iff.1 ha)
    have := ih h
    simp only [List.length_append, List.length_cons] at hl ⊢
    omega
  | _ =>
    rename_i ih
    have := ih h
    simp only [List.length_cons]; omega

/-- Characters outside ASCII are all taken for letters. -/
def isIdentStart (c : Char) : Bool := c == '_' || c == '$' || c.isAlpha || 0x80 ≤ c.toNat

def isIdentPart (c : Char) : Bool := isIdentStart c || c.isDigit

/-- The text behind a quoted name, which a line end closes too. -/
def afterBacktick (s : Text) : Text :=
  match s.dropWhile fun c => c != '`' && c != '\n' with
  | '`' :: rest => rest
  | rest => rest

theorem length_afterBacktick (s : Text) : (afterBacktick s).length ≤ s.length := by
  have := (List.dropWhile_sublist (l := s) fun c => c != '`' && c != '\n').length_le
  unfold afterBacktick
  split
  · next h => rw [h, List.length_cons] at this; omega
  · exact this

def readToken (c : Char) (s : Text) : Except Unterminated (Kind × Text) :=
  if isIdentStart c then .ok (.ident, s.dropWhile isIdentPart)
  else if c = '`' then .ok (.ident, afterBacktick s)
  else if c.isDigit then .ok (.literal, afterNumber s)
  else
    match openQuote? (c :: s) with
    | some (frame, inside) => (afterString [frame] inside).map fun rest => (.literal, rest)
    | none =>
      match c, s with
      | '-', '>' :: rest => .ok (.arrow, rest)
      | c, s => .ok (.punct c, s)

theorem length_readToken {c : Char} {s rest : Text} {kind : Kind}
    (h : readToken c s = .ok (kind, rest)) : rest.length ≤ s.length := by
  unfold readToken at h
  split at h
  · cases h; exact (List.dropWhile_sublist _).length_le
  split at h
  · cases h; exact length_afterBacktick s
  split at h
  · cases h; exact length_afterNumber s
  split at h
  · next frame inside hq =>
    have hi := length_openQuote? hq
    cases hr : afterString [frame] inside with
    | error e => rw [hr] at h; cases h
    | ok r =>
      rw [hr] at h; cases h
      have := length_afterString hr
      simp only [List.length_cons] at hi; omega
  · split at h <;> cases h <;> simp

def lexemes (s : Text) : Except Unterminated (List Lexeme) :=
  match _ht : afterTrivia s with
  | .error e => .error e
  | .ok [] => .ok []
  | .ok (c :: behind) =>
    match _hr : readToken c behind with
    | .error e => .error e
    | .ok (kind, rest) =>
      (lexemes rest).map fun ls =>
        ⟨s.upTo (c :: behind), kind, Text.upTo (c :: behind) rest⟩ :: ls
termination_by s.length
decreasing_by
  have := length_afterTrivia _ht
  have := length_readToken _hr
  simp only [List.length_cons] at *; omega

def tokenize (s : Text) : Except SourceError (List Token) :=
  match lexemes s with
  | .ok ls => .ok (Lexeme.placed .start ls)
  | .error u => .error (.ofPlace u.fault (Place.start.advance (s.upTo u.opening)))

end CaseAccessors
