/-! Source text is a list of characters; offsets into it count UTF-8 bytes. Blank characters are
those with the Unicode property White_Space. -/
namespace CaseAccessors

abbrev Text := List Char

namespace Text

def byteSize : Text → Nat
  | [] => 0
  | c :: s => c.utf8Size + byteSize s

/-- The most bytes that a text can have. -/
def maxSize : Nat := 0x7FFFFFFFFFFFFFFF

@[simp] theorem byteSize_append (s t : Text) : byteSize (s ++ t) = byteSize s + byteSize t := by
  induction s with
  | nil => simp [byteSize]
  | cons c s ih => simp [byteSize, ih, Nat.add_assoc]

theorem byteSize_eq_zero_iff {s : Text} : byteSize s = 0 ↔ s = [] := by
  cases s with
  | nil => simp [byteSize]
  | cons c s => simp [byteSize, Nat.ne_of_gt c.utf8Size_pos]

theorem byteSize_replicate (n : Nat) : byteSize (List.replicate n ' ') = n := by
  induction n with
  | zero => rfl
  | succ n ih =>
    have hspace : ' '.utf8Size = 1 := rfl
    rw [List.replicate_succ, byteSize, ih, hspace]
    omega

theorem byteSize_le_of_infix {s t : Text} (h : s <:+: t) : byteSize s ≤ byteSize t := by
  obtain ⟨front, behind, rfl⟩ := h
  rw [byteSize_append, byteSize_append]
  omega

/-- The parts before and after a byte offset; none past the end or inside a character. -/
def cutAt? : Text → Nat → Option (Text × Text)
  | s, 0 => some ([], s)
  | [], _ + 1 => none
  | c :: s, n + 1 =>
    if c.utf8Size ≤ n + 1 then
      (cutAt? s (n + 1 - c.utf8Size)).map fun (before, after) => (c :: before, after)
    else none

theorem cutAt?_byteSize (s t : Text) : cutAt? (s ++ t) (byteSize s) = some (s, t) := by
  induction s with
  | nil => simp [cutAt?, byteSize]
  | cons c s ih =>
    have := c.utf8Size_pos
    obtain ⟨n, hn⟩ : ∃ n, byteSize (c :: s) = n + 1 := ⟨byteSize (c :: s) - 1, by
      simp only [byteSize]; omega⟩
    have hs : n + 1 - c.utf8Size = byteSize s := by simp only [byteSize] at hn; omega
    have hc : c.utf8Size ≤ n + 1 := by simp only [byteSize] at hn; omega
    simp [hn, cutAt?, hc, hs, ih]

theorem of_cutAt? {s a b : Text} {n : Nat} (h : cutAt? s n = some (a, b)) :
    s = a ++ b ∧ byteSize a = n := by
  fun_induction cutAt? s n generalizing a b with
  | case1 => cases h; exact ⟨rfl, rfl⟩
  | case2 => cases h
  | case3 c s n hc ih =>
    simp only [Option.map_eq_some_iff, Prod.mk.injEq] at h
    obtain ⟨⟨p, q⟩, hp, rfl, rfl⟩ := h
    obtain ⟨rfl, hn⟩ := ih hp
    exact ⟨rfl, by simp only [byteSize]; omega⟩
  | case4 => cases h

def after? : (p s : Text) → Option Text
  | [], s => some s
  | _ :: _, [] => none
  | a :: p, c :: s => if a = c then after? p s else none

theorem after?_eq_some_iff {p s r : Text} : after? p s = some r ↔ s = p ++ r := by
  fun_induction after? p s with
  | case1 => simp [eq_comm]
  | case2 => simp
  | case3 a p s ih => simp [ih]
  | case4 a p c s h => simpa using fun h' : c = a => absurd h'.symm h

def upTo (s rest : Text) : Text := s.take (s.length - rest.length)

@[simp] theorem upTo_append (s rest : Text) : upTo (s ++ rest) rest = s := by
  simp [upTo]

/-- The part of the last line of `s` that `s` holds. -/
def lastLine (s : Text) : Text := (s.reverse.takeWhile (· != '\n')).reverse

def isIndent (c : Char) : Bool := c == ' ' || c == '\t'

def indentAt (before after : Text) : Text := (lastLine before ++ after).takeWhile isIndent

/-- Indentation of the line that holds a byte offset. -/
def lineIndent? (s : Text) (offset : Nat) : Option Text :=
  (cutAt? s offset).map fun (before, after) => indentAt before after

def dropIndentEnd (s : Text) : Text := (s.reverse.dropWhile isIndent).reverse

def hasCrlf : Text → Bool
  | '\r' :: '\n' :: _ => true
  | _ :: s => hasCrlf s
  | [] => false

def withNewline (s newline : Text) : Text :=
  s.flatMap fun c => if c = '\n' then newline else [c]

def joinWith (separator : Text) : List Text → Text
  | [] => []
  | [s] => s
  | s :: rest => s ++ separator ++ joinWith separator rest

@[simp] theorem joinWith_cons_cons (separator s t : Text) (rest : List Text) :
    joinWith separator (s :: t :: rest) = s ++ separator ++ joinWith separator (t :: rest) := rfl

end Text

def isBlank (c : Char) : Bool :=
  (0x09 ≤ c.toNat && c.toNat ≤ 0x0D) || c.toNat == 0x20 || c.toNat == 0x85 || c.toNat == 0xA0 ||
    c.toNat == 0x1680 || (0x2000 ≤ c.toNat && c.toNat ≤ 0x200A) || c.toNat == 0x2028 ||
    c.toNat == 0x2029 || c.toNat == 0x202F || c.toNat == 0x205F || c.toNat == 0x3000

namespace Text

def words : Text → List Text
  | [] => []
  | c :: s =>
    if isBlank c then words s
    else match s.head?.any (!isBlank ·), words s with
      | true, w :: ws => (c :: w) :: ws
      | _, ws => [c] :: ws

/-- Every run of blanks becomes one space; none is left at the ends. -/
def collapse (s : Text) : Text := joinWith [' '] (words s)

def trim (s : Text) : Text := ((s.dropWhile isBlank).reverse.dropWhile isBlank).reverse

end Text

end CaseAccessors
