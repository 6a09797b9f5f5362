import CaseAccessors.Decimal
import CaseAccessors.Text.Printable

/-! Reading JSON piece by piece, where each piece is of a kind that the reader expects. A fault is
told with the line and the byte in it up to which the text was read. -/
namespace CaseAccessors

namespace Json

/-- Lines count from one, bytes in a line from zero. -/
structure Mark where
  line : Nat
  column : Nat
  deriving DecidableEq, Repr

namespace Mark

def start : Mark := ⟨1, 0⟩

def step (m : Mark) (c : Char) : Mark :=
  if c = '\n' then ⟨m.line + 1, 0⟩ else ⟨m.line, m.column + c.utf8Size⟩

/-- The mark a number of bytes further on, be it inside of a character. -/
def forward : Mark → (bytes : Nat) → Text → Mark
  | m, _, [] => m
  | m, bytes, c :: s =>
    if bytes = 0 then m
    else if c.utf8Size ≤ bytes then forward (m.step c) (bytes - c.utf8Size) s
    else ⟨m.line, m.column + bytes⟩

end Mark

structure Cursor where
  rest : Text
  mark : Mark
  deriving DecidableEq, Repr

namespace Cursor

def ofText (s : Text) : Cursor := ⟨s, .start⟩

def next (c : Cursor) : Mark := c.mark.forward 1 c.rest

def tail (c : Cursor) : Cursor :=
  match c.rest with
  | d :: s => ⟨s, c.mark.step d⟩
  | [] => c

def dropWhile (p : Char → Bool) (c : Cursor) : Cursor :=
  ⟨c.rest.dropWhile p, (c.rest.takeWhile p).foldl Mark.step c.mark⟩

def skipBlanks (c : Cursor) : Cursor :=
  c.dropWhile fun d => d == ' ' || d == '\n' || d == '\t' || d == '\r'

end Cursor

/-- The value that stands where another kind of value is expected. -/
inductive Found where
  | null
  | boolean (b : Bool)
  | unsigned (n : Nat)
  /-- The integer below zero with this size. -/
  | negative (size : Nat)
  /-- A number that is no 64-bit integer, in its shortest notation. -/
  | floating (s : Text)
  | text (s : Text)
  | sequence
  | map
  deriving DecidableEq, Repr

inductive Fault where
  | endInValue
  | endInObject
  | endInList
  | endInString
  | expectedValue
  | expectedWord
  | expectedColon
  | expectedObjectEnd
  | expectedListEnd
  | keyNotString
  | trailingComma
  | trailingCharacters
  | invalidNumber
  | numberOutOfRange
  | invalidEscape
  | endOfHexEscape
  | loneSurrogate
  | controlCharacter
  | wrongType (found : Found) (expected : Text)
  | wrongValue (found : Found) (expected : Text)
  | unknownField (name : Text) (known : List Text)
  | duplicateField (name : Text)
  deriving DecidableEq, Repr

structure Error where
  fault : Fault
  mark : Mark
  deriving DecidableEq, Repr

def inTicks (s : Text) : Text := '`' :: s ++ ['`']

def Found.description : Found → Text
  | .null => "null".toList
  | .boolean b => "boolean ".toList ++ inTicks (if b then "true" else "false").toList
  | .unsigned n => "integer ".toList ++ inTicks (Nat.toDigits 10 n)
  | .negative size => "integer ".toList ++ inTicks ('-' :: Nat.toDigits 10 size)
  | .floating s => "floating point ".toList ++ inTicks s
  | .text s => "string ".toList ++ quoted s
  | .sequence => "sequence".toList
  | .map => "map".toList

def Fault.description : Fault → Text
  | .endInValue => "EOF while parsing a value".toList
  | .endInObject => "EOF while parsing an object".toList
  | .endInList => "EOF while parsing a list".toList
  | .endInString => "EOF while parsing a string".toList
  | .expectedValue => "expected value".toList
  | .expectedWord => "expected ident".toList
  | .expectedColon => "expected `:`".toList
  | .expectedObjectEnd => "expected `,` or `\x7d`".toList
  | .expectedListEnd => "expected `,` or `]`".toList
  | .keyNotString => "key must be a string".toList
  | .trailingComma => "trailing comma".toList
  | .trailingCharacters => "trailing characters".toList
  | .invalidNumber => "invalid number".toList
  | .numberOutOfRange => "number out of range".toList
  | .invalidEscape => "invalid escape".toList
  | .endOfHexEscape => "unexpected end of hex escape".toList
  | .loneSurrogate => "lone leading surrogate in hex escape".toList
  | .controlCharacter =>
    "control character (\\u0000-\\u001F) found while parsing a string".toList
  | .wrongType found expected =>
    "invalid type: ".toList ++ found.description ++ ", expected ".toList ++ expected
  | .wrongValue found expected =>
    "invalid value: ".toList ++ found.description ++ ", expected ".toList ++ expected
  | .unknownField name known =>
    "unknown field ".toList ++ inTicks name ++ ", expected one of ".toList ++
      Text.joinWith ", ".toList (known.map inTicks)
  | .duplicateField name => "duplicate field ".toList ++ inTicks name

def Error.message (e : Error) : Text :=
  e.fault.description ++ " at line ".toList ++ Nat.toDigits 10 e.mark.line ++
    " column ".toList ++ Nat.toDigits 10 e.mark.column

def Cursor.fail {α : Type} (c : Cursor) (fault : Fault) : Except Error α := .error ⟨fault, c.mark⟩

def Cursor.failNext {α : Type} (c : Cursor) (fault : Fault) : Except Error α :=
  .error ⟨fault, c.next⟩

end Json

end CaseAccessors
