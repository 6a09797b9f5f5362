import CaseAccessors.Proofs.ByteCursor
import CaseAccessors.Proofs.Seam

/-! Lexing by bytes, with every step checked: what is cut out of the source, the byte that the
cursor passes over, the depth that a closing mark lowers, and that a loop comes to its end before it
has run once for each byte. No check ever fails, and what comes of it is what lexing by characters
gives. -/
namespace CaseAccessors

namespace Checked

/-- More rounds than any loop needs. -/
def rounds (src : Text) : Nat := src.bytes.length + 1

def bumpWhile (src : Text) (p : Char → Bool) : Nat → Cursor → Except Halt Cursor
  | 0, _ => .error .astray
  | n + 1, cur =>
    if (cur.peek src 0).any p then do bumpWhile src p n (← cur.bump src)
    else .ok cur

/-- The cursor behind a block comment inside of which `depth` are open, counted from where the first
one opens. -/
def comment (src : Text) (opened : Place) : (depth : Nat) → Nat → Cursor → Except Halt Cursor
  | _, 0, _ => .error .astray
  | depth, n + 1, cur =>
    if cur.sees src ['/', '*'] then do comment src opened (depth + 1) n (← cur.bumps src 2)
    else if cur.sees src ['*', '/'] then do
      let depth ← lower depth
      let cur ← cur.bumps src 2
      if depth = 0 then .ok cur else comment src opened depth n cur
    else if (cur.peek src 0).isSome then do comment src opened depth n (← cur.bump src)
    else .error (.source (.ofPlace .unterminatedComment opened))

def trivia (src : Text) : Nat → Cursor → Except Halt Cursor
  | 0, _ => .error .astray
  | n + 1, cur =>
    if (cur.peek src 0).any isSpace then do trivia src n (← cur.bump src)
    else if cur.sees src ['/', '/'] then do
      trivia src n (← bumpWhile src (· != '\n') (rounds src) cur)
    else if cur.sees src ['/', '*'] then do
      let opened ← cur.place src
      trivia src n (← comment src opened 0 (rounds src) cur)
    else .ok cur

def number (src : Text) : Nat → Cursor → Except Halt Cursor
  | 0, _ => .error .astray
  | n + 1, cur =>
    if (cur.peek src 0).any fun b =>
      b.isAlphanum || b == '_' || (b == '.' && (cur.peek src 1).any Char.isDigit) then do
      number src n (← cur.bump src)
    else .ok cur

/-- What is open while a string is read, with the place where its string opens. -/
inductive Opened where
  | quoted (hashes : Nat) (multiline : Bool) (opened : Place)
  /-- The parentheses count from the one that the interpolation opens with. -/
  | interpolated (parens : Nat) (opened : Place)
  deriving DecidableEq, Repr

def opensString (src : Text) (cur : Cursor) : Bool :=
  ((src.bytes.drop cur.pos).dropWhile (· == '#')).head? == some '"'

def openString (src : Text) (cur : Cursor) : Except Halt (Opened × Cursor) := do
  let opened ← cur.place src
  let hashes := ((src.bytes.drop cur.pos).takeWhile (· == '#')).length
  let cur ← cur.bumps src hashes
  let multiline := ['"', '"', '"'].isPrefixOf (← cur.ahead src)
  let cur ← cur.bumps src (if multiline then 3 else 1)
  return (.quoted hashes multiline opened, cur)

def string (src : Text) : List Opened → Nat → Cursor → Except Halt Cursor
  | _, 0, _ => .error .astray
  | [], _ + 1, cur => .ok cur
  | .quoted hashes multiline opened :: outer, n + 1, cur =>
    match cur.peek src 0 with
    | none => .error (.source (.ofPlace .unterminatedString opened))
    | some b =>
      if b = '\n' ∧ multiline = false then .error (.source (.ofPlace .unterminatedString opened))
      else if cur.sees src (escapeMark hashes) then do
        let cur ← cur.bumps src (escapeMark hashes).length
        if cur.peek src 0 = some '(' then
          string src (.interpolated 0 opened :: .quoted hashes multiline opened :: outer) n cur
        else if (cur.peek src 0).isSome then do
          string src (.quoted hashes multiline opened :: outer) n (← cur.bump src)
        else string src (.quoted hashes multiline opened :: outer) n cur
      else if cur.sees src (closingQuote hashes multiline) then do
        string src outer n (← cur.bumps src (closingQuote hashes multiline).length)
      else do string src (.quoted hashes multiline opened :: outer) n (← cur.bump src)
  | .interpolated parens opened :: outer, n + 1, cur =>
    match cur.peek src 0 with
    | none => .error (.source (.ofPlace .unterminatedString opened))
    | some b =>
      if b = '(' then do string src (.interpolated (parens + 1) opened :: outer) n (← cur.bump src)
      else if b = ')' then do
        let parens ← lower parens
        let cur ← cur.bump src
        string src (if parens = 0 then outer else .interpolated parens opened :: outer) n cur
      else if b = '"' then do
        let (part, cur) ← openString src cur
        string src (part :: .interpolated parens opened :: outer) n cur
      else do string src (.interpolated parens opened :: outer) n (← cur.bump src)

def quotedName (src : Text) (cur : Cursor) : Except Halt Cursor := do
  let cur ← bumpWhile src (fun c => c != '`' && c != '\n') (rounds src) (← cur.bump src)
  if cur.peek src 0 = some '`' then cur.bump src else return cur

def mark (src : Text) (cur : Cursor) : Except Halt (Kind × Cursor) :=
  if cur.sees src ['-', '>'] then do return (.arrow, ← cur.bumps src 2)
  else do
    let c := (← Cursor.cut src cur.pos src.bytes.length).headD '\x00'
    return (.punct c, ← cur.bumps src c.utf8Size)

def word (src : Text) (b : Char) (cur : Cursor) : Except Halt (Kind × Cursor) :=
  if isIdentStart b then do return (.ident, ← bumpWhile src isIdentPart (rounds src) cur)
  else if b = '`' then do return (.ident, ← quotedName src cur)
  else if b.isDigit then do return (.literal, ← number src (rounds src) cur)
  else if opensString src cur then do
    let (part, cur) ← openString src cur
    return (.literal, ← string src [part] (rounds src) cur)
  else mark src cur

def next (src : Text) (cur : Cursor) : Except Halt (Option (Token × Cursor)) := do
  let front ← trivia src (rounds src) cur
  match front.peek src 0 with
  | none => return none
  | some b =>
    let here ← front.place src
    let (kind, behind) ← word src b front
    let lead ← Cursor.cut src cur.pos front.pos
    let text ← Cursor.cut src front.pos behind.pos
    return some (⟨⟨lead, kind, text⟩, here⟩, behind)

def tokens (src : Text) : Nat → Cursor → Except Halt (List Token)
  | 0, _ => .error .astray
  | n + 1, cur => do
    match ← next src cur with
    | none => return []
    | some (t, behind) => return t :: (← tokens src n behind)

def tokenize (src : Text) : Except Halt (List Token) := tokens src (rounds src) .start

end Checked

open Checked

variable {src s : Text}

theorem byteSize_lt_rounds (h : s <:+ src) : Text.byteSize s < rounds src := by
  obtain ⟨p, rfl⟩ := h
  rw [rounds, Text.length_bytes, Text.byteSize_append]
  omega

def placeAt (src rest : Text) : Place := Place.start.advance (src.upTo rest)

def Unterminated.halt (src : Text) (u : Unterminated) : Halt :=
  .source (.ofPlace u.fault (placeAt src u.opening))

def landed (src : Text) (r : Except Unterminated Text) : Except Halt Cursor :=
  (r.map (Cursor.before src)).mapError (Unterminated.halt src)

/-- A character at which a loop is, if it has rounds for the rest: it is passed over in one round,
or it is outside ASCII and in as many as it has bytes. -/
theorem exists_rounds {c : Char} {n : Nat} (h : Text.byteSize (c :: s) < n) :
    (c.toNat < 0x80 ∧ ∃ m, n = m + 1 ∧ Text.byteSize s < m) ∨
      (0x80 ≤ c.toNat ∧ ∃ m, n = m + c.utf8Size ∧ Text.byteSize s < m) := by
  rw [Text.byteSize] at h
  by_cases hc : c.toNat < 0x80
  · rw [Text.utf8Size_of_ascii hc] at h
    exact .inl ⟨hc, n - 1, by omega, by omega⟩
  · exact .inr ⟨by omega, n - c.utf8Size, by omega, by omega⟩

theorem bumpWhile_before {p : Char → Bool}
    (hp : ∀ c : Char, 0x80 ≤ c.toNat → p c = true) (h : s <:+ src) {n : Nat}
    (hn : Text.byteSize s < n) :
    bumpWhile src p n (.before src s) = .ok (.before src (s.dropWhile p)) := by
  have hpass : ∀ n cur b, cur.peek src 0 = some b → 0x80 ≤ b.toNat →
      bumpWhile src p (n + 1) cur = cur.bump src >>= bumpWhile src p n := fun n cur b hb hhigh => by
    rw [bumpWhile, hb, Option.any_some, hp b hhigh]
    rfl
  induction s generalizing n with
  | nil =>
    obtain ⟨n, rfl⟩ := Nat.exists_eq_add_of_le' (show 1 ≤ n from hn)
    rw [bumpWhile, Cursor.peek_nil h]
    rfl
  | cons c s ih =>
    have hs := (List.suffix_cons c s).trans h
    obtain ⟨hc, n, rfl, hm⟩ | ⟨hc, n, rfl, hm⟩ := exists_rounds hn
    · rw [bumpWhile, Cursor.peek_cons h hc, Option.any_some, List.dropWhile_cons]
      split
      · rw [Cursor.bump_before h hc]
        exact ih hs hm
      · rfl
    · rw [Cursor.pass hpass h hc, List.dropWhile_cons_of_pos (hp c hc)]
      exact ih hs hm

theorem isPrefixOf_pair {a b : Char} {s : Text} : [a, b].isPrefixOf s = true ↔
    ∃ t, s = a :: b :: t := by
  rw [List.isPrefixOf_iff_prefix]
  constructor
  · rintro ⟨t, rfl⟩
    exact ⟨t, rfl⟩
  · rintro ⟨t, rfl⟩
    exact ⟨t, rfl⟩

theorem not_isPrefixOf_pair {a b c : Char} {s : Text} (h : ∀ t, c = a → s = b :: t → False) :
    ¬[a, b].isPrefixOf (c :: s) = true := fun hmark => by
  obtain ⟨t, heq⟩ := isPrefixOf_pair.1 hmark
  obtain ⟨rfl, rfl⟩ := List.cons.inj heq
  exact h t rfl rfl

theorem beq_of_high {c m : Char} (hc : 0x80 ≤ c.toNat) (hm : m.toNat < 0x80) : (c == m) = false :=
  beq_eq_false_iff_ne.2 (by rintro rfl; omega)

theorem comment_before (opened : Place) {depth n : Nat} (h : s <:+ src) (hn : Text.byteSize s < n) :
    comment src opened (depth + 1) n (.before src s) = match afterComment depth s with
      | some rest => .ok (.before src rest)
      | none => .error (.source (.ofPlace .unterminatedComment opened)) := by
  have hopening : IsAscii ['/', '*'] := by decide
  have hclosing : IsAscii ['*', '/'] := by decide
  have hpass : ∀ depth n cur b, cur.peek src 0 = some b → 0x80 ≤ b.toNat →
      comment src opened depth (n + 1) cur = cur.bump src >>= comment src opened depth n :=
    fun depth n cur b hb hhigh => by
      rw [comment, Cursor.sees_of_high hb hhigh (by decide),
        Cursor.sees_of_high hb hhigh (by decide), hb]
      rfl
  fun_induction afterComment depth s generalizing n with
  | case1 depth s ih =>
    have hs : s <:+ src := List.IsSuffix.trans ⟨['/', '*'], rfl⟩ h
    have hbumps : (Cursor.before src ('/' :: '*' :: s)).bumps src 2 = .ok (.before src s) :=
      Cursor.bumps_before (s := s) h hopening
    simp only [Text.byteSize] at hn
    obtain ⟨n, rfl⟩ := Nat.exists_eq_add_of_le' (show 1 ≤ n by omega)
    rw [comment, Cursor.sees_before h hopening, if_pos (isPrefixOf_pair.2 ⟨s, rfl⟩), hbumps]
    exact ih hs (by have := '/'.utf8Size_pos; omega)
  | case2 s =>
    have hbumps : (Cursor.before src ('*' :: '/' :: s)).bumps src 2 = .ok (.before src s) :=
      Cursor.bumps_before (s := s) h hclosing
    obtain ⟨n, rfl⟩ := Nat.exists_eq_add_of_le' (show 1 ≤ n by omega)
    rw [comment, Cursor.sees_before h hopening, Cursor.sees_before h hclosing,
      if_neg (by simp [List.isPrefixOf]), if_pos (isPrefixOf_pair.2 ⟨s, rfl⟩), lower]
    simp only [bind, Except.bind, hbumps, if_true]
  | case3 depth s ih =>
    have hs : s <:+ src := List.IsSuffix.trans ⟨['*', '/'], rfl⟩ h
    have hbumps : (Cursor.before src ('*' :: '/' :: s)).bumps src 2 = .ok (.before src s) :=
      Cursor.bumps_before (s := s) h hclosing
    simp only [Text.byteSize] at hn
    obtain ⟨n, rfl⟩ := Nat.exists_eq_add_of_le' (show 1 ≤ n by omega)
    rw [comment, Cursor.sees_before h hopening, Cursor.sees_before h hclosing,
      if_neg (by simp [List.isPrefixOf]), if_pos (isPrefixOf_pair.2 ⟨s, rfl⟩), lower]
    simp only [bind, Except.bind, hbumps, Nat.add_one_ne_zero, if_false]
    exact ih hs (by have := '/'.utf8Size_pos; omega)
  | case4 depth c s hopen hlast hclose ih =>
    have hs := (List.suffix_cons c s).trans h
    obtain ⟨hc, n, rfl, hm⟩ | ⟨hc, n, rfl, hm⟩ := exists_rounds hn
    · have hnotClosing : ¬['*', '/'].isPrefixOf (c :: s) = true :=
        not_isPrefixOf_pair fun t hc hs => by
        cases depth with
        | zero => exact hlast t rfl hc hs
        | succ depth => exact hclose depth t rfl hc hs
      rw [comment, Cursor.sees_before h hopening, Cursor.sees_before h hclosing,
        if_neg (not_isPrefixOf_pair hopen),
        if_neg hnotClosing, Cursor.peek_cons h hc, Option.isSome_some, if_pos rfl,
          Cursor.bump_before h hc]
      exact ih hs hm
    · rw [Cursor.pass (hpass (depth + 1)) h hc]
      exact ih hs hm
  | case5 =>
    obtain ⟨n, rfl⟩ := Nat.exists_eq_add_of_le' (show 1 ≤ n by omega)
    rw [comment, Cursor.sees_before h hopening, Cursor.sees_before h hclosing, Cursor.peek_nil h]
    rfl

theorem comment_opening (opened : Place) {n : Nat} (h : '/' :: '*' :: s <:+ src)
    (hn : Text.byteSize ('/' :: '*' :: s) < n) :
    comment src opened 0 n (.before src ('/' :: '*' :: s)) = match afterComment 0 s with
      | some rest => .ok (.before src rest)
      | none => .error (.source (.ofPlace .unterminatedComment opened)) := by
  have hopening : IsAscii ['/', '*'] := by decide
  have hbumps : (Cursor.before src ('/' :: '*' :: s)).bumps src 2 = .ok (.before src s) :=
    Cursor.bumps_before (s := s) h hopening
  simp only [Text.byteSize] at hn
  obtain ⟨n, rfl⟩ := Nat.exists_eq_add_of_le' (show 1 ≤ n by omega)
  rw [comment, Cursor.sees_before h hopening, if_pos (isPrefixOf_pair.2 ⟨s, rfl⟩), hbumps]
  exact comment_before opened (List.IsSuffix.trans ⟨['/', '*'], rfl⟩ h)
    (by have := '/'.utf8Size_pos; omega)

theorem isSpace_of_high {b : Char} (h : 0x80 ≤ b.toNat) : isSpace b = false := by
  rw [Bool.eq_false_iff, ne_eq, isSpace_iff]
  omega

theorem any_peek (h : s <:+ src) {p : Char → Bool} (hp : ∀ c : Char, 0x80 ≤ c.toNat → p c = false) :
    ((Cursor.before src s).peek src 0).any p = s.head?.any p := by
  cases s with
  | nil => rw [Cursor.peek_nil h]; rfl
  | cons c s =>
    by_cases hc : c.toNat < 0x80
    · rw [Cursor.peek_cons h hc]
      rfl
    · obtain ⟨b, hb, hhigh⟩ := Cursor.peek_high h (Nat.le_of_not_lt hc)
      rw [hb, Option.any_some, hp b hhigh, List.head?_cons, Option.any_some,
        hp c (Nat.le_of_not_lt hc)]

theorem trivia_comment {rest : Text} (h : '/' :: '*' :: rest <:+ src) (n : Nat) :
    trivia src (n + 1) (.before src ('/' :: '*' :: rest)) = match afterComment 0 rest with
      | some behind => trivia src n (.before src behind)
      | none => .error (Unterminated.halt src ⟨.unterminatedComment, '/' :: '*' :: rest⟩) := by
  have hslash : isSpace '/' = false := by decide
  have hcomment := comment_opening (placeAt src ('/' :: '*' :: rest)) h (byteSize_lt_rounds h)
  rw [trivia, any_peek h fun _ => isSpace_of_high, List.head?_cons, Option.any_some, hslash,
    if_neg (by simp),
    Cursor.sees_before h (by decide), if_neg (by simp [List.isPrefixOf]),
      Cursor.sees_before h (by decide),
    if_pos (isPrefixOf_pair.2 ⟨rest, rfl⟩), Cursor.place_before h]
  simp only [bind, Except.bind, placeAt] at hcomment ⊢
  rw [hcomment]
  cases afterComment 0 rest <;> rfl

theorem trivia_before {n : Nat} (h : s <:+ src) (hn : Text.byteSize s < n) :
    trivia src n (.before src s) = landed src (afterTrivia s) := by
  have hline : IsAscii ['/', '/'] := by decide
  have hblock : IsAscii ['/', '*'] := by decide
  have hslash : isSpace '/' = false := by decide
  fun_induction afterTrivia s generalizing n with
  | case1 rest ih =>
    have hdrop : ('/' :: '/' :: rest).dropWhile (· != '\n') = rest.dropWhile (· != '\n') := rfl
    have hrest : rest.dropWhile (· != '\n') <:+ rest := List.dropWhile_suffix _
    have hskip := bumpWhile_before (p := (· != '\n')) (fun c hc => by
      simp only [bne_iff_ne, ne_eq]
      rintro rfl
      exact absurd hc (by decide)) h (byteSize_lt_rounds h)
    have hle := Text.byteSize_le_of_infix hrest.isInfix
    simp only [Text.byteSize] at hn
    obtain ⟨n, rfl⟩ := Nat.exists_eq_add_of_le' (show 1 ≤ n by omega)
    rw [trivia, any_peek h fun _ => isSpace_of_high, List.head?_cons, Option.any_some, hslash,
      if_neg (by simp), Cursor.sees_before h hline, if_pos (isPrefixOf_pair.2 ⟨rest, rfl⟩), hskip,
      hdrop]
    exact ih (hrest.trans (List.IsSuffix.trans ⟨['/', '/'], rfl⟩ h))
      (by have := '/'.utf8Size_pos; omega)
  | case2 rest rest' hrest ih =>
    have hle := Text.byteSize_le_of_infix (afterComment_suffix hrest).isInfix
    simp only [Text.byteSize] at hn
    obtain ⟨n, rfl⟩ := Nat.exists_eq_add_of_le' (show 1 ≤ n by omega)
    rw [trivia_comment h, hrest]
    exact ih ((afterComment_suffix hrest).trans (List.IsSuffix.trans ⟨['/', '*'], rfl⟩ h))
      (by have := '/'.utf8Size_pos; omega)
  | case3 rest hrest =>
    obtain ⟨n, rfl⟩ := Nat.exists_eq_add_of_le' (show 1 ≤ n by omega)
    rw [trivia_comment h, hrest]
    rfl
  | case4 c rest _ _ hc ih =>
    have hascii : c.toNat < 0x80 := by
      rw [isSpace_iff] at hc
      omega
    obtain ⟨-, n, rfl, hm⟩ | ⟨hhigh, -⟩ := exists_rounds hn
    · rw [trivia, Cursor.peek_cons h hascii, Option.any_some, if_pos hc,
        Cursor.bump_before h hascii]
      exact ih ((List.suffix_cons c rest).trans h) hm
    · omega
  | case5 c rest hnotLine hnotBlock hc =>
    obtain ⟨n, rfl⟩ := Nat.exists_eq_add_of_le' (show 1 ≤ n by omega)
    rw [trivia, any_peek h fun _ => isSpace_of_high, List.head?_cons, Option.any_some, if_neg hc,
      Cursor.sees_before h hline, if_neg (not_isPrefixOf_pair hnotLine),
        Cursor.sees_before h hblock,
      if_neg (not_isPrefixOf_pair hnotBlock)]
    rfl
  | case6 =>
    obtain ⟨n, rfl⟩ := Nat.exists_eq_add_of_le' (show 1 ≤ n by omega)
    rw [trivia, Cursor.peek_nil h, Cursor.sees_before h hline, Cursor.sees_before h hblock]
    rfl

theorem number_before {n : Nat} (h : s <:+ src) (hn : Text.byteSize s < n) :
    number src n (.before src s) = .ok (.before src (afterNumber s)) := by
  have hdigit : ∀ c : Char, 0x80 ≤ c.toNat → c.isDigit = false := fun c hc => by
    rw [Bool.eq_false_iff, ne_eq, isDigit_iff]
    omega
  have halnum : ∀ c : Char, 0x80 ≤ c.toNat → c.isAlphanum = false := fun c hc => by
    rw [Char.isAlphanum, Bool.or_eq_false_iff, Bool.eq_false_iff, ne_eq, isAlpha_iff]
    exact ⟨by omega, hdigit c hc⟩
  induction s generalizing n with
  | nil =>
    obtain ⟨n, rfl⟩ := Nat.exists_eq_add_of_le' (show 1 ≤ n from hn)
    rw [number, Cursor.peek_nil h]
    rfl
  | cons c s ih =>
    have hs := (List.suffix_cons c s).trans h
    obtain ⟨hc, n, rfl, hm⟩ | ⟨hc, n, rfl, hm⟩ := exists_rounds hn
    · have hnext :
          ((Cursor.before src (c :: s)).peek src 1).any Char.isDigit =
            s.head?.any Char.isDigit := by
        rw [← any_peek hs hdigit, Cursor.peek_before h, Cursor.peek_before hs,
          Text.bytes_cons_ascii hc]
        rfl
      have hgoes : (c.isAlphanum || c == '_' || (c == '.' && s.head?.any Char.isDigit)) =
          numberGoesOn c s := by
        rw [numberGoesOn, Bool.or_comm, Bool.or_assoc]
      rw [number, Cursor.peek_cons h hc, Option.any_some, hnext, hgoes, afterNumber_cons]
      split
      · rw [Cursor.bump_before h hc]
        exact ih hs hm
      · rfl
    · obtain ⟨b, hpeek, hhigh⟩ := Cursor.peek_high h hc
      have hpos := c.utf8Size_pos
      obtain ⟨k, hk⟩ := Nat.exists_eq_add_of_le' (show 1 ≤ n + c.utf8Size by omega)
      rw [hk, number, hpeek, Option.any_some, halnum b hhigh,
        beq_of_high (m := '_') hhigh (by decide), beq_of_high (m := '.') hhigh (by decide),
        afterNumber_cons, numberGoesOn, halnum c hc, beq_of_high (m := '_') hc (by decide),
        beq_of_high (m := '.') hc (by decide)]
      rfl

def Frame.opened (src : Text) : Frame → Opened
  | .quoted hashes multiline opening => .quoted hashes multiline (placeAt src opening)
  | .interpolated parens opening => .interpolated (parens + 1) (placeAt src opening)

theorem isAscii_hashMarks (n : Nat) : IsAscii (hashMarks n) := fun c hc => by
  rw [List.eq_of_mem_replicate hc]
  decide

theorem isAscii_quoteMarks (multiline : Bool) : IsAscii (quoteMarks multiline) := by
  cases multiline <;> decide

theorem isAscii_escapeMark (hashes : Nat) : IsAscii (escapeMark hashes) :=
  List.forall_mem_cons.2 ⟨by decide, isAscii_hashMarks hashes⟩

theorem isAscii_closingQuote (hashes : Nat) (multiline : Bool) :
    IsAscii (closingQuote hashes multiline) := by
  refine List.forall_mem_cons.2 ⟨by decide, fun c hc => ?_⟩
  obtain hc | hc := List.mem_append.1 hc
  · cases multiline
    · cases hc
    · exact isAscii_quoteMarks true c (List.mem_cons_of_mem _ hc)
  · exact isAscii_hashMarks hashes c hc

theorem openString_before {inside : Text} {frame : Frame} (h : s <:+ src)
    (hopen : openQuote? s = some (frame, inside)) :
    openString src (.before src s) = .ok (frame.opened src, .before src inside) := by
  obtain ⟨hashes, multiline, rfl, hs, hsingle⟩ := openQuote?_eq_some_iff.1 hopen
  have hbytes :
      (src.bytes.drop (Cursor.before src s).pos).takeWhile (· == '#') = hashMarks hashes := by
    rw [Cursor.pos_before h, hs, Text.bytes_append_ascii (isAscii_hashMarks hashes),
      Text.bytes_append_ascii (isAscii_quoteMarks multiline)]
    exact (takeWhile_hashMarks hashes (by cases multiline <;> simp [quoteMarks])).1
  have hquotes : quoteMarks multiline ++ inside <:+ src := by
    rw [hs] at h
    exact (List.suffix_append _ _).trans h
  have hhashes : (Cursor.before src s).bumps src (hashMarks hashes).length =
      .ok (.before src (quoteMarks multiline ++ inside)) := by
    rw [hs] at h ⊢
    exact Cursor.bumps_before h (isAscii_hashMarks hashes)
  have hmultiline :
      ['"', '"', '"'].isPrefixOf (quoteMarks multiline ++ inside).bytes = multiline := by
    rw [Text.isPrefixOf_bytes (by decide)]
    cases multiline with
    | true => simp [quoteMarks, List.isPrefixOf]
    | false =>
      rw [Bool.eq_false_iff, ne_eq, List.isPrefixOf_iff_prefix]
      exact fun hmark => hsingle rfl ((List.prefix_cons_inj '"').1 hmark)
  have hlength : (if multiline = true then 3 else 1) = (quoteMarks multiline).length := by
    cases multiline <;> rfl
  have hinside := Cursor.bumps_before hquotes (isAscii_quoteMarks multiline)
  have hlen : (hashMarks hashes).length = hashes := List.length_replicate
  rw [openString, Cursor.place_before h, hbytes]
  simp only [bind, Except.bind, hhashes, Cursor.ahead_before hquotes, hmultiline, hlength, hinside]
  rw [hlen]
  rfl

theorem isPrefixOf_eq_isSome_after? (mark s : Text) :
    mark.isPrefixOf s = (Text.after? mark s).isSome := by
  fun_induction Text.after? mark s with
  | case1 => rfl
  | case2 => rfl
  | case3 a mark s ih => rw [List.isPrefixOf, beq_self_eq_true, Bool.true_and, ih]
  | case4 a mark c s hne => rw [List.isPrefixOf, beq_eq_false_iff_ne.2 hne]; rfl

theorem sees_eq_isSome_after? (h : s <:+ src) {mark : Text} (hmark : IsAscii mark) :
    (Cursor.before src s).sees src mark = (Text.after? mark s).isSome := by
  rw [Cursor.sees_before h hmark, isPrefixOf_eq_isSome_after?]

theorem bumps_of_after? {rest : Text} (h : s <:+ src) {mark : Text} (hmark : IsAscii mark)
    (hafter : Text.after? mark s = some rest) :
    (Cursor.before src s).bumps src mark.length = .ok (.before src rest) := by
  rw [Text.after?_eq_some_iff] at hafter
  subst hafter
  exact Cursor.bumps_before h hmark

theorem string_pass_quoted (hashes : Nat) (multiline : Bool) (opened : Place)
    (outer : List Opened) :
    ∀ n cur b, cur.peek src 0 = some b → 0x80 ≤ b.toNat →
      string src (.quoted hashes multiline opened :: outer) (n + 1) cur =
        cur.bump src >>= string src (.quoted hashes multiline opened :: outer) n := by
  intro n cur b hb hhigh
  have hnewline : b ≠ '\n' := by
    rintro rfl
    exact absurd hhigh (by decide)
  have hescape : cur.sees src (escapeMark hashes) = false :=
    Cursor.sees_of_high hb hhigh (by decide) _
  have hclosing : cur.sees src (closingQuote hashes multiline) = false :=
    Cursor.sees_of_high hb hhigh (by decide) _
  rw [string, hb]
  simp only [hnewline, hescape, hclosing, false_and, if_false, Bool.false_eq_true]

theorem string_pass_interpolated (parens : Nat) (opened : Place) (outer : List Opened) :
    ∀ n cur b, cur.peek src 0 = some b → 0x80 ≤ b.toNat →
      string src (.interpolated parens opened :: outer) (n + 1) cur =
        cur.bump src >>= string src (.interpolated parens opened :: outer) n := by
  intro n cur b hb hhigh
  have hne : ∀ m : Char, m.toNat < 0x80 → b ≠ m := fun m hm => by
    rintro rfl
    omega
  rw [string, hb]
  simp only [hne '(' (by decide), hne ')' (by decide), hne '"' (by decide), if_false]

/-- A round inside of a string, in front of a character that does not end its line. -/
theorem string_quoted {c : Char} {rest : Text} (h : c :: rest <:+ src) {hashes : Nat}
    {multiline : Bool} (hline : ¬(c = '\n' ∧ multiline = false)) (opened : Place)
    (outer : List Opened) (n : Nat) :
    string src (.quoted hashes multiline opened :: outer) (n + 1) (.before src (c :: rest)) =
      match Text.after? (escapeMark hashes) (c :: rest) with
      | some behind =>
        if (Cursor.before src behind).peek src 0 = some '(' then
          string src (.interpolated 0 opened :: .quoted hashes multiline opened :: outer) n
            (.before src behind)
        else if ((Cursor.before src behind).peek src 0).isSome then
          (Cursor.before src behind).bump src >>=
            string src (.quoted hashes multiline opened :: outer) n
        else string src (.quoted hashes multiline opened :: outer) n (.before src behind)
      | none =>
        match Text.after? (closingQuote hashes multiline) (c :: rest) with
        | some behind => string src outer n (.before src behind)
        | none =>
          (Cursor.before src (c :: rest)).bump src >>=
            string src (.quoted hashes multiline opened :: outer) n := by
  obtain ⟨b, hb, hline'⟩ : ∃ b, (Cursor.before src (c :: rest)).peek src 0 = some b ∧
      ¬(b = '\n' ∧ multiline = false) := by
    by_cases hc : c.toNat < 0x80
    · exact ⟨c, Cursor.peek_cons h hc, hline⟩
    · obtain ⟨b, hb, hhigh⟩ := Cursor.peek_high h (Nat.le_of_not_lt hc)
      refine ⟨b, hb, ?_⟩
      rintro ⟨rfl, -⟩
      exact absurd hhigh (by decide)
  have hescape := sees_eq_isSome_after? h (isAscii_escapeMark hashes)
  have hclosing := sees_eq_isSome_after? h (isAscii_closingQuote hashes multiline)
  rw [string, hb]
  simp only [if_neg hline', hescape, hclosing]
  cases hafter : Text.after? (escapeMark hashes) (c :: rest) with
  | some behind =>
    simp only [Option.isSome_some, if_true, bumps_of_after? h (isAscii_escapeMark hashes) hafter]
    rfl
  | none =>
    cases hafter' : Text.after? (closingQuote hashes multiline) (c :: rest) with
    | some behind =>
      simp only [Option.isSome_none, Option.isSome_some, Bool.false_eq_true, if_false, if_true,
        bumps_of_after? h (isAscii_closingQuote hashes multiline) hafter']
      rfl
    | none => simp only [Option.isSome_none, Bool.false_eq_true, if_false]

/-- What an escape mark makes part of the string takes as many rounds as it has bytes. -/
theorem string_escaped {c e : Char} {rest inner : Text} (h : c :: rest <:+ src) {hashes : Nat}
    {multiline : Bool} (hline : ¬(c = '\n' ∧ multiline = false))
    (ha : Text.after? (escapeMark hashes) (c :: rest) = some (e :: inner)) (he : e ≠ '(')
    (opened : Place) (outer : List Opened) (n : Nat) :
    string src (.quoted hashes multiline opened :: outer) (n + (e.utf8Size - 1) + 1)
        (.before src (c :: rest)) =
      string src (.quoted hashes multiline opened :: outer) n (.before src inner) := by
  have hchar := (after?_suffix ha).trans h
  rw [string_quoted h hline, ha]
  by_cases hc : e.toNat < 0x80
  · simp only [Cursor.peek_cons hchar hc, Option.some.injEq, if_neg he, Option.isSome_some, if_true,
      Cursor.bump_before hchar hc, Text.utf8Size_of_ascii hc]
    rfl
  · -- the bytes behind the first one are read as the string goes on
    obtain ⟨b, hb, hhigh⟩ := Cursor.peek_high hchar (Nat.le_of_not_lt hc)
    have hparen : b ≠ '(' := by
      rintro rfl
      exact absurd hhigh (by decide)
    simp only [hb, Option.some.injEq, if_neg hparen, Option.isSome_some, if_true,
      Cursor.bump_of_high hb hhigh]
    exact Cursor.pass_rest (string_pass_quoted _ _ _ _) hchar (Nat.le_of_not_lt hc) n

/-- A round inside of an interpolation, in front of an ASCII character. -/
theorem string_interpolated {c : Char} {rest : Text} (h : c :: rest <:+ src) (hc : c.toNat < 0x80)
    (parens : Nat) (opened : Place) (outer : List Opened) (n : Nat) :
    string src (.interpolated parens opened :: outer) (n + 1) (.before src (c :: rest)) =
      if c = '(' then string src (.interpolated (parens + 1) opened :: outer) n (.before src rest)
      else if c = ')' then
        lower parens >>= fun parens =>
          string src (if parens = 0 then outer else .interpolated parens opened :: outer) n
            (.before src rest)
      else if c = '"' then
        openString src (.before src (c :: rest)) >>= fun (part, cur) =>
          string src (part :: .interpolated parens opened :: outer) n cur
      else string src (.interpolated parens opened :: outer) n (.before src rest) := by
  rw [string, Cursor.peek_cons h hc]
  simp only [Cursor.bump_before h hc]
  rfl

theorem byteSize_of_after? {mark s rest : Text} (hmark : IsAscii mark)
    (h : Text.after? mark s = some rest) :
    Text.byteSize s = mark.length + Text.byteSize rest := by
  rw [Text.after?_eq_some_iff] at h
  rw [h, Text.byteSize_append, Text.byteSize_of_ascii hmark]

theorem string_before {frames : List Frame} {n : Nat} (h : s <:+ src) (hn : Text.byteSize s < n) :
    string src (frames.map (Frame.opened src)) n (.before src s) =
      landed src (afterString frames s) := by
  have hascii : ∀ {c : Char} {rest : Text}, c.toNat < 0x80 →
    Text.byteSize (c :: rest) = Text.byteSize rest + 1 :=
    fun hc => by rw [Text.byteSize, Text.utf8Size_of_ascii hc, Nat.add_comm]
  fun_induction afterString frames s generalizing n with
  | case1 s =>
    obtain ⟨n, rfl⟩ := Nat.exists_eq_add_of_le' (show 1 ≤ n by omega)
    rfl
  | case2 hashes multiline opening outer =>
    obtain ⟨n, rfl⟩ := Nat.exists_eq_add_of_le' (show 1 ≤ n by omega)
    rw [List.map_cons, Frame.opened, string, Cursor.peek_nil h]
    rfl
  | case3 hashes multiline opening outer c rest hline =>
    obtain ⟨n, rfl⟩ := Nat.exists_eq_add_of_le' (show 1 ≤ n by omega)
    have hc : c.toNat < 0x80 := by
      rw [hline.1]
      decide
    rw [List.map_cons, Frame.opened, string, Cursor.peek_cons h hc]
    simp only [if_pos hline]
    rfl
  | case4 hashes multiline opening outer c rest hline ha =>
    have hsize := byteSize_of_after? (isAscii_escapeMark hashes) ha
    have hnil := (after?_suffix ha).trans h
    rw [escapeMark, List.length_cons] at hsize
    obtain ⟨n, rfl⟩ := Nat.exists_eq_add_of_le' (show 2 ≤ n by omega)
    rw [List.map_cons, Frame.opened, string_quoted h hline, ha]
    simp only [Cursor.peek_nil hnil, reduceCtorEq, if_false, Option.isSome_none, Bool.false_eq_true]
    rw [string, Cursor.peek_nil hnil]
    rfl
  | case5 hashes multiline opening outer c rest hline inner ha ih =>
    have hsize := byteSize_of_after? (isAscii_escapeMark hashes) ha
    have hparen := (after?_suffix ha).trans h
    have hinner : Text.byteSize ('(' :: inner) = Text.byteSize inner + 1 := hascii (by decide)
    rw [escapeMark, List.length_cons] at hsize
    obtain ⟨n, rfl⟩ := Nat.exists_eq_add_of_le' (show 2 ≤ n by omega)
    rw [List.map_cons, Frame.opened, string_quoted h hline, ha]
    simp only [Cursor.peek_cons hparen (by decide), if_true]
    rw [string_interpolated hparen (by decide), if_pos rfl]
    exact ih ((List.suffix_cons _ _).trans hparen) (by omega)
  | case6 hashes multiline opening outer c rest hline e inner ha he ih =>
    have hsize := byteSize_of_after? (isAscii_escapeMark hashes) ha
    have hpos := e.utf8Size_pos
    have hlength : Text.byteSize (e :: inner) = e.utf8Size + Text.byteSize inner := rfl
    rw [escapeMark, List.length_cons] at hsize
    obtain ⟨n, rfl⟩ := Nat.exists_eq_add_of_le' (show e.utf8Size - 1 + 1 ≤ n by omega)
    rw [List.map_cons, Frame.opened, ← Nat.add_assoc, string_escaped h hline ha he]
    exact ih ((List.suffix_cons e inner).trans ((after?_suffix ha).trans h)) (by omega)
  | case7 hashes multiline opening outer c rest hline hnone behind ha ih =>
    have hsize := byteSize_of_after? (isAscii_closingQuote hashes multiline) ha
    rw [closingQuote, List.length_cons] at hsize
    obtain ⟨n, rfl⟩ := Nat.exists_eq_add_of_le' (show 1 ≤ n by omega)
    rw [List.map_cons, Frame.opened, string_quoted h hline, hnone, ha]
    exact ih ((after?_suffix ha).trans h) (by omega)
  | case8 hashes multiline opening outer c rest hline hnone hnone' ih =>
    have hrest := (List.suffix_cons c rest).trans h
    obtain ⟨hc, n, rfl, hm⟩ | ⟨hc, n, rfl, hm⟩ := exists_rounds hn
    · rw [List.map_cons, Frame.opened, string_quoted h hline, hnone, hnone']
      simp only [Cursor.bump_before h hc]
      exact ih hrest hm
    · refine (Cursor.pass (string_pass_quoted _ _ _ _) h hc n).trans ?_
      exact ih hrest hm
  | case9 parens opening outer =>
    obtain ⟨n, rfl⟩ := Nat.exists_eq_add_of_le' (show 1 ≤ n by omega)
    rw [List.map_cons, Frame.opened, string, Cursor.peek_nil h]
    rfl
  | case10 parens opening outer rest ih =>
    rw [hascii (by decide)] at hn
    obtain ⟨n, rfl⟩ := Nat.exists_eq_add_of_le' (show 1 ≤ n by omega)
    rw [List.map_cons, Frame.opened, string_interpolated h (by decide), if_pos rfl]
    exact ih ((List.suffix_cons _ _).trans h) (by omega)
  | case11 opening outer rest ih =>
    rw [hascii (by decide)] at hn
    obtain ⟨n, rfl⟩ := Nat.exists_eq_add_of_le' (show 1 ≤ n by omega)
    rw [List.map_cons, Frame.opened, string_interpolated h (by decide), if_neg (by decide),
      if_pos rfl]
    exact ih ((List.suffix_cons _ _).trans h) (by omega)
  | case12 opening outer rest parens ih =>
    rw [hascii (by decide)] at hn
    obtain ⟨n, rfl⟩ := Nat.exists_eq_add_of_le' (show 1 ≤ n by omega)
    rw [List.map_cons, Frame.opened, string_interpolated h (by decide), if_neg (by decide),
      if_pos rfl]
    exact ih ((List.suffix_cons _ _).trans h) (by omega)
  | case13 parens opening outer rest ih =>
    have hopen : openQuote? ('"' :: '"' :: '"' :: rest) =
      some (.quoted 0 true ('"' :: '"' :: '"' :: rest), rest) := rfl
    simp only [hascii (show '"'.toNat < 0x80 by decide)] at hn
    obtain ⟨n, rfl⟩ := Nat.exists_eq_add_of_le' (show 1 ≤ n by omega)
    rw [List.map_cons, Frame.opened, string_interpolated h (by decide), if_neg (by decide),
      if_neg (by decide), if_pos rfl, openString_before h hopen]
    exact ih (List.IsSuffix.trans ⟨['"', '"', '"'], rfl⟩ h) (by omega)
  | case14 parens opening outer rest hsingle ih =>
    have hopen : openQuote? ('"' :: rest) = some (.quoted 0 false ('"' :: rest), rest) := by
      refine openQuote?_eq_some_iff.2 ⟨0, false, rfl, rfl, ?_⟩
      rintro - ⟨t, rfl⟩
      exact hsingle t rfl
    rw [hascii (by decide)] at hn
    obtain ⟨n, rfl⟩ := Nat.exists_eq_add_of_le' (show 1 ≤ n by omega)
    rw [List.map_cons, Frame.opened, string_interpolated h (by decide), if_neg (by decide),
      if_neg (by decide), if_pos rfl, openString_before h hopen]
    exact ih ((List.suffix_cons _ _).trans h) (by omega)
  | case15 parens opening outer c rest hopen hclose hmany hone ih =>
    have hrest := (List.suffix_cons c rest).trans h
    obtain ⟨hc, n, rfl, hm⟩ | ⟨hc, n, rfl, hm⟩ := exists_rounds hn
    · rw [List.map_cons, Frame.opened, string_interpolated h hc, if_neg hopen, if_neg hclose,
        if_neg hone]
      exact ih hrest hm
    · refine (Cursor.pass (string_pass_interpolated _ _ _) h hc n).trans ?_
      exact ih hrest hm

theorem opensString_before (h : s <:+ src) :
    opensString src (.before src s) = (openQuote? s).isSome := by
  have hdrop : ((s.bytes.dropWhile (· == '#')).head? == some '"') =
      ((s.dropWhile (· == '#')).head? == some '"') := by
    clear h
    induction s with
    | nil => rfl
    | cons c s ih =>
      by_cases hc : c.toNat < 0x80
      · rw [Text.bytes_cons_ascii hc, List.dropWhile_cons, List.dropWhile_cons]
        split
        · exact ih
        · rfl
      · obtain ⟨b, bs, hb, hhigh, -⟩ := Text.exists_bytes_of_high (Nat.le_of_not_lt hc)
        have hmark : ∀ x m : Char, 0x80 ≤ x.toNat → m.toNat < 0x80 → (x == m) = false := fun _ _ =>
          beq_of_high
        rw [Text.bytes_cons, hb, List.cons_append,
          List.dropWhile_cons_of_neg (by simp [hmark b '#' hhigh (by decide)]),
          List.dropWhile_cons_of_neg (by simp [hmark c '#' (Nat.le_of_not_lt hc) (by decide)])]
        simp [hmark b '"' hhigh (by decide), hmark c '"' (Nat.le_of_not_lt hc) (by decide)]
  rw [opensString, Cursor.pos_before h, hdrop]
  unfold openQuote?
  split
  · next hs => rw [hs]; rfl
  · next hs => rw [hs]; rfl
  · next hone =>
    cases hs : s.dropWhile (· == '#') with
    | nil => rfl
    | cons c t =>
      have hne : c ≠ '"' := by
        rintro rfl
        exact hone t hs
      simp [hne]

theorem placeAt_append {part rest : Text} (h : part ++ rest <:+ src) :
    (placeAt src (part ++ rest)).advance part = placeAt src rest := by
  obtain ⟨p, rfl⟩ := h
  rw [placeAt, placeAt, Text.upTo_append, ← List.append_assoc, Text.upTo_append,
    Place.advance_append]

def landedWord (src : Text) (r : Except Unterminated (Kind × Text)) : Except Halt (Kind × Cursor) :=
  (r.map fun (kind, rest) => (kind, Cursor.before src rest)).mapError (Unterminated.halt src)

theorem peek_eq_some_iff (h : s <:+ src) {m : Char} (hm : m.toNat < 0x80) :
    (Cursor.before src s).peek src 0 = some m ↔ s.head? = some m := by
  cases s with
  | nil => rw [Cursor.peek_nil h, List.head?_nil]
  | cons c s =>
    by_cases hc : c.toNat < 0x80
    · rw [Cursor.peek_cons h hc, List.head?_cons]
    · obtain ⟨b, hb, hhigh⟩ := Cursor.peek_high h (Nat.le_of_not_lt hc)
      rw [hb, List.head?_cons, Option.some.injEq, Option.some.injEq]
      constructor <;> rintro rfl <;> omega

theorem quotedName_before (h : '`' :: s <:+ src) :
    quotedName src (.before src ('`' :: s)) = .ok (.before src (afterBacktick s)) := by
  have hs := (List.suffix_cons '`' s).trans h
  have hname := bumpWhile_before (p := fun c => c != '`' && c != '\n') (fun x hx => by
    have hne : ∀ m : Char, m.toNat < 0x80 → (x != m) = true := fun m hm => by
      rw [bne_iff_ne]
      rintro rfl
      omega
    rw [hne '`' (by decide), hne '\n' (by decide)]
    rfl) hs (byteSize_lt_rounds hs)
  have hrest := (List.dropWhile_suffix (l := s) fun c => c != '`' && c != '\n').trans hs
  rw [quotedName, Cursor.bump_before h (by decide)]
  simp only [bind, Except.bind, hname, peek_eq_some_iff hrest (show '`'.toNat < 0x80 by decide)]
  unfold afterBacktick
  split
  · next htick =>
    obtain ⟨t, ht⟩ := List.head?_eq_some_iff.1 htick
    rw [ht] at hrest ⊢
    exact Cursor.bump_before hrest (by decide)
  · next htick =>
    split
    · next t ht => exact absurd (by rw [ht]; rfl) htick
    · rfl

theorem mark_arrow (h : '-' :: '>' :: s <:+ src) :
    mark src (.before src ('-' :: '>' :: s)) = .ok (.arrow, .before src s) := by
  have hbumps : (Cursor.before src ('-' :: '>' :: s)).bumps src 2 = .ok (.before src s) :=
    Cursor.bumps_before (s := s) h (show IsAscii ['-', '>'] by decide)
  rw [mark, Cursor.sees_before h (by decide), if_pos (isPrefixOf_pair.2 ⟨s, rfl⟩), hbumps]
  rfl

theorem mark_punct {c : Char} (h : c :: s <:+ src) (hc : c.toNat < 0x80)
    (harrow : ∀ t, c = '-' → s ≠ '>' :: t) :
    mark src (.before src (c :: s)) = .ok (.punct c, .before src s) := by
  have hall : (c :: s) ++ [] <:+ src := by rwa [List.append_nil]
  have hcut := Cursor.cut_before hall
  have hend : (Cursor.before src []).pos = src.bytes.length := by
    rw [Cursor.before, Text.upTo, List.length_nil, Nat.sub_zero, List.take_length,
      Text.length_bytes]
    rfl
  have hbumps : (Cursor.before src (c :: s)).bumps src 1 = .ok (.before src s) :=
    Cursor.bumps_before (s := s) h (show IsAscii [c] from List.forall_mem_singleton.2 hc)
  rw [List.append_nil, hend] at hcut
  rw [mark, Cursor.sees_before h (by decide), if_neg (not_isPrefixOf_pair harrow), hcut]
  simp only [bind, Except.bind, List.headD_cons, Text.utf8Size_of_ascii hc, hbumps]
  rfl

theorem word_before {b c : Char} (h : c :: s <:+ src)
    (hb : (Cursor.before src (c :: s)).peek src 0 = some b) :
    word src b (.before src (c :: s)) = landedWord src (readToken c s) := by
  have hident : isIdentStart c = true →
    bumpWhile src isIdentPart (rounds src) (.before src (c :: s)) =
      .ok (.before src (s.dropWhile isIdentPart)) := fun hstart => by
    rw [bumpWhile_before (fun x hx => by rw [isIdentPart_iff]; omega) h (byteSize_lt_rounds h),
      List.dropWhile_cons_of_pos (by rw [isIdentPart, hstart, Bool.true_or])]
  by_cases hc : c.toNat < 0x80
  · rw [Cursor.peek_cons h hc] at hb
    obtain rfl : c = b := Option.some.inj hb
    unfold word readToken
    split
    · next hstart => rw [hident hstart]; rfl
    split
    · next htick =>
      subst htick
      rw [quotedName_before h]
      rfl
    split
    · next hdigit =>
      have hnumber : afterNumber (c :: s) = afterNumber s := by
        rw [afterNumber_cons, numberGoesOn_of_isDigit hdigit, if_pos rfl]
      rw [number_before h (byteSize_lt_rounds h), hnumber]
      rfl
    rw [opensString_before h]
    split
    · next hopens =>
      obtain ⟨⟨frame, inside⟩, hopen⟩ := Option.isSome_iff_exists.1 hopens
      have hinside := (openQuote?_suffix hopen).trans h
      have hstring : string src ([frame].map (Frame.opened src)) (rounds src) (.before src inside) =
          landed src (afterString [frame] inside) :=
            string_before hinside (byteSize_lt_rounds hinside)
      rw [List.map_singleton] at hstring
      rw [openString_before h hopen, hopen]
      simp only [bind, Except.bind, hstring]
      cases afterString [frame] inside <;> rfl
    · next hopens =>
      rw [Option.not_isSome_iff_eq_none] at hopens
      rw [hopens]
      dsimp only
      split
      · rw [mark_arrow h]
        rfl
      · next harrow =>
        rw [mark_punct h hc fun t hc hs => harrow t hc hs]
        rfl
  · have hhigh := Nat.le_of_not_lt hc
    obtain ⟨b', hb', hhigh'⟩ := Cursor.peek_high h hhigh
    obtain rfl : b' = b := Option.some.inj (hb'.symm.trans hb)
    have hstart : ∀ x : Char, 0x80 ≤ x.toNat → isIdentStart x = true := fun x hx => by
      rw [isIdentStart_iff]
      omega
    unfold word readToken
    rw [if_pos (hstart b' hhigh'), hident (hstart c hhigh), if_pos (hstart c hhigh)]
    rfl

theorem next_eq_none (h : s <:+ src) (ht : afterTrivia s = .ok []) :
    next src (.before src s) = .ok none := by
  have hnil := (afterTrivia_suffix ht).trans h
  rw [next, trivia_before h (byteSize_lt_rounds h), ht]
  simp only [landed, Except.map, Except.mapError, bind, Except.bind, Cursor.peek_nil hnil]
  rfl

theorem next_of_trivia {u : Unterminated} (h : s <:+ src) (ht : afterTrivia s = .error u) :
    next src (.before src s) = .error (u.halt src) := by
  rw [next, trivia_before h (byteSize_lt_rounds h), ht]
  rfl

theorem next_cons {c : Char} {behind : Text} (h : s <:+ src)
    (ht : afterTrivia s = .ok (c :: behind)) :
    next src (.before src s) = do
      let (kind, cur) ← landedWord src (readToken c behind)
      let lead ← Cursor.cut src (Cursor.before src s).pos (Cursor.before src (c :: behind)).pos
      let text ← Cursor.cut src (Cursor.before src (c :: behind)).pos cur.pos
      return some (⟨⟨lead, kind, text⟩, placeAt src (c :: behind)⟩, cur) := by
  have hfront := (afterTrivia_suffix ht).trans h
  obtain ⟨b, hb⟩ : ∃ b, (Cursor.before src (c :: behind)).peek src 0 = some b := by
    by_cases hc : c.toNat < 0x80
    · exact ⟨c, Cursor.peek_cons hfront hc⟩
    · obtain ⟨b, hb, -⟩ := Cursor.peek_high hfront (Nat.le_of_not_lt hc)
      exact ⟨b, hb⟩
  rw [next, trivia_before h (byteSize_lt_rounds h), ht]
  simp only [landed, Except.map, Except.mapError, bind, Except.bind, hb, Cursor.place_before hfront,
    word_before hfront hb]
  rfl

theorem tokens_before {n : Nat} (h : s <:+ src) (hn : Text.byteSize s < n) :
    tokens src n (.before src s) =
      ((lexemes s).map (Lexeme.placed (placeAt src s))).mapError (Unterminated.halt src) := by
  fun_induction lexemes s generalizing n with
  | case1 s u ht =>
    obtain ⟨n, rfl⟩ := Nat.exists_eq_add_of_le' (show 1 ≤ n by omega)
    rw [tokens, next_of_trivia h ht]
    rfl
  | case2 s ht =>
    obtain ⟨n, rfl⟩ := Nat.exists_eq_add_of_le' (show 1 ≤ n by omega)
    rw [tokens, next_eq_none h ht]
    rfl
  | case3 s c behind ht u hr =>
    obtain ⟨n, rfl⟩ := Nat.exists_eq_add_of_le' (show 1 ≤ n by omega)
    rw [tokens, next_cons h ht, hr]
    rfl
  | case4 s c behind ht kind rest hr ih =>
    obtain ⟨part, rfl⟩ := readToken_suffix hr
    obtain ⟨lead, rfl⟩ := afterTrivia_suffix ht
    have hword : (c :: part) ++ rest <:+ src := (List.suffix_append lead _).trans h
    have hrest := (List.suffix_append (c :: part) rest).trans hword
    have hpos := c.utf8Size_pos
    simp only [Text.byteSize_append, Text.byteSize] at hn
    obtain ⟨n, rfl⟩ := Nat.exists_eq_add_of_le' (show 1 ≤ n by omega)
    have htail := ih hrest (show Text.byteSize rest < n by omega)
    have htext : Text.upTo (c :: (part ++ rest)) rest = c :: part :=
      Text.upTo_append (c :: part) rest
    have hlead := Cursor.cut_before h
    have hcut :
        Cursor.cut src (Cursor.before src (c :: (part ++ rest))).pos (Cursor.before src rest).pos =
          .ok (c :: part) := Cursor.cut_before hword
    have hplace : (placeAt src (c :: (part ++ rest))).advance (c :: part) = placeAt src rest :=
      placeAt_append hword
    rw [tokens, next_cons h ht, hr, Text.upTo_append, htext]
    simp only [landedWord, Except.map, Except.mapError, bind, Except.bind, hlead, hcut, htail, pure,
      Except.pure]
    cases lexemes rest with
    | error u => rfl
    | ok ls =>
      simp only [Lexeme.placed, placeAt_append h, hplace]

theorem tokenize_checked (src : Text) :
    Checked.tokenize src = (CaseAccessors.tokenize src).mapError .source := by
  have hstart : Cursor.start = Cursor.before src src := by
    rw [Cursor.before, Text.upTo, Nat.sub_self]
    rfl
  have hplace : placeAt src src = .start := by
    rw [placeAt, Text.upTo, Nat.sub_self]
    rfl
  rw [Checked.tokenize, hstart,
    tokens_before (List.suffix_refl src) (byteSize_lt_rounds (List.suffix_refl src)),
    hplace, CaseAccessors.tokenize]
  cases lexemes src <;> rfl

end CaseAccessors
