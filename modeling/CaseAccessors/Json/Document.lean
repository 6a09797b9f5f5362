import CaseAccessors.Text

/-! Documents of JSON that hold texts, lists and records, and their notation on lines. -/
namespace CaseAccessors

namespace Json

inductive Document where
  | text (s : Text)
  | list (items : List Document)
  | record (fields : List (Text × Document))
  deriving Repr

def hexDigits (n : Nat) : Text :=
  let digits := Nat.toDigits 16 n
  List.replicate (4 - digits.length) '0' ++ digits

/-- A character in a string. Controls are escaped, by a letter where there is one. -/
def escapedChar (c : Char) : Text :=
  match c with
  | '"' => ['\\', '"']
  | '\\' => ['\\', '\\']
  | '\x08' => ['\\', 'b']
  | '\x0c' => ['\\', 'f']
  | '\n' => ['\\', 'n']
  | '\r' => ['\\', 'r']
  | '\t' => ['\\', 't']
  | c => if c.toNat < 0x20 then ['\\', 'u'] ++ hexDigits c.toNat else [c]

def stringText (s : Text) : Text := '"' :: s.flatMap escapedChar ++ ['"']

namespace Document

def newLine (depth : Nat) : Text := '\n' :: List.replicate (2 * depth) ' '

mutual

def linesAt (depth : Nat) : Document → Text
  | .text s => stringText s
  | .list [] => "[]".toList
  | .list (d :: items) =>
    ['['] ++ newLine (depth + 1) ++ linesAt (depth + 1) d ++ itemLines (depth + 1) items ++
      newLine depth ++ [']']
  | .record [] => "\x7b\x7d".toList
  | .record ((key, d) :: fields) =>
    ['\x7b'] ++ newLine (depth + 1) ++ stringText key ++ ": ".toList ++ linesAt (depth + 1) d ++
      fieldLines (depth + 1) fields ++ newLine depth ++ ['\x7d']

def itemLines (depth : Nat) : List Document → Text
  | [] => []
  | d :: items => [','] ++ newLine depth ++ linesAt depth d ++ itemLines depth items

def fieldLines (depth : Nat) : List (Text × Document) → Text
  | [] => []
  | (key, d) :: fields =>
    [','] ++ newLine depth ++ stringText key ++ ": ".toList ++ linesAt depth d ++
      fieldLines depth fields

end

def lines (d : Document) : Text := linesAt 0 d

end Document

end Json

end CaseAccessors
