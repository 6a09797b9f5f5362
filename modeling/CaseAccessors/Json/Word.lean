import CaseAccessors.Json

/-! The texts of JSON: strings with their escapes, and words such as `true`. -/
namespace CaseAccessors

namespace Json

/-- Reads the rest of a word whose first letter has told which it is. -/
def readWord : (letters : Text) → Cursor → Except Error Cursor
  | [], c => .ok c
  | l :: letters, c =>
    match c.rest with
    | d :: _ => if d = l then readWord letters c.tail else c.failNext .expectedWord
    | [] => c.fail .endInValue

def hexValue? (c : Char) : Option Nat :=
  if c.isDigit then some (c.toNat - '0'.toNat)
  else if 'a' ≤ c ∧ c ≤ 'f' then some (c.toNat - 'a'.toNat + 10)
  else if 'A' ≤ c ∧ c ≤ 'F' then some (c.toNat - 'A'.toNat + 10)
  else none

def readUnit (c : Cursor) : Except Error (Nat × Cursor) :=
  if Text.byteSize c.rest < 4 then .error ⟨.endInString, c.rest.foldl Mark.step c.mark⟩
  else
    match (c.rest.take 4).mapM hexValue? with
    | some digits =>
      .ok (digits.foldl (fun n d => 16 * n + d) 0, c.tail.tail.tail.tail)
    | none => .error ⟨.invalidEscape, c.mark.forward 4 c.rest⟩

def readEscapePart (part : Char) (c : Cursor) : Except Error Cursor :=
  match c.rest with
  | d :: _ => if d = part then .ok c.tail else c.failNext .endOfHexEscape
  | [] => c.fail .endInString

def isTrailing (unit : Nat) : Bool := 0xDC00 ≤ unit && unit ≤ 0xDFFF

def isLeading (unit : Nat) : Bool := 0xD800 ≤ unit && unit ≤ 0xDBFF

/-- Reads a character given by one 16-bit unit, or by a leading and a trailing one. -/
def readHexEscape (c : Cursor) : Except Error (Char × Cursor) := do
  let (first, c) ← readUnit c
  if isTrailing first then c.fail .loneSurrogate
  else if isLeading first then do
    let c ← readEscapePart '\\' c
    let c ← readEscapePart 'u' c
    let (second, c) ← readUnit c
    if isTrailing second then
      return (Char.ofNat (0x10000 + (first - 0xD800) * 0x400 + (second - 0xDC00)), c)
    else c.fail .loneSurrogate
  else return (Char.ofNat first, c)

def escapes : List (Char × Char) :=
  [('"', '"'), ('\\', '\\'), ('/', '/'), ('b', '\x08'), ('f', '\x0c'), ('n', '\n'), ('r', '\r'),
    ('t', '\t')]

def readEscape (c : Cursor) : Except Error (Char × Cursor) :=
  match c.rest with
  | [] => c.fail .endInString
  | d :: _ =>
    if d = 'u' then readHexEscape c.tail
    else
      match escapes.lookup d with
      | some e => .ok (e, c.tail)
      | none => c.failNext .invalidEscape

/-- Reads a string behind its opening quote. Each character takes one of the text at least, so
`fuel` as great as the text's length is enough. -/
def readStringWith : (fuel : Nat) → Cursor → Except Error (Text × Cursor)
  | 0, c => c.fail .endInString
  | fuel + 1, c =>
    match c.rest with
    | [] => c.fail .endInString
    | d :: _ =>
      if d = '"' then .ok ([], c.tail)
      else if d = '\\' then do
        let (e, behind) ← readEscape c.tail
        let (s, behind) ← readStringWith fuel behind
        return (e :: s, behind)
      else if d.toNat < 0x20 then c.failNext .controlCharacter
      else do
        let (s, behind) ← readStringWith fuel c.tail
        return (d :: s, behind)

def readString (c : Cursor) : Except Error (Text × Cursor) := readStringWith (c.rest.length + 1) c

end Json

end CaseAccessors
