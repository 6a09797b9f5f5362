import CaseAccessors.Text

/-! Places in a source text, and what can be wrong with it there. A place tells how many bytes
precede it, its line, and its column in characters. -/
namespace CaseAccessors

structure Place where
  offset : Nat
  line : Nat
  column : Nat
  deriving DecidableEq, Repr

namespace Place

/-- Lines and columns count from one. -/
def start : Place := ⟨0, 1, 1⟩

def step (p : Place) (c : Char) : Place :=
  if c = '\n' then ⟨p.offset + c.utf8Size, p.line + 1, 1⟩
  else ⟨p.offset + c.utf8Size, p.line, p.column + 1⟩

def advance (p : Place) (s : Text) : Place := s.foldl step p

@[simp] theorem advance_nil (p : Place) : p.advance [] = p := rfl

@[simp] theorem advance_append (p : Place) (s t : Text) :
    p.advance (s ++ t) = (p.advance s).advance t := by
  simp [advance]

theorem advance_offset (p : Place) (s : Text) :
    (p.advance s).offset = p.offset + Text.byteSize s := by
  induction s generalizing p with
  | nil => simp [Text.byteSize]
  | cons c s ih =>
    rw [show p.advance (c :: s) = (p.step c).advance s from rfl, ih, Text.byteSize]
    unfold step
    split <;> simp only [] <;> omega

theorem advance_line (p : Place) (s : Text) : (p.advance s).line = p.line + s.count '\n' := by
  induction s generalizing p with
  | nil => rfl
  | cons c s ih =>
    rw [show p.advance (c :: s) = (p.step c).advance s from rfl, ih, List.count_cons]
    unfold step
    split
    · next h => simp [h, Nat.add_assoc, Nat.add_comm 1]
    · next h => simp [h]

end Place

inductive Construct where
  | enumDeclaration
  | caseClause
  | casePayload
  deriving DecidableEq, Repr

inductive Fault where
  | unterminatedString
  | unterminatedComment
  /-- A closing delimiter where another one, or none, is due. -/
  | unbalanced (found : Char) (expected : Option Char)
  | unclosed (opening : Char)
  | unexpectedEnd (inside : Construct)
  deriving DecidableEq, Repr

structure SourceError where
  fault : Fault
  line : Nat
  column : Nat
  deriving DecidableEq, Repr

def Construct.text : Construct → Text
  | .enumDeclaration => "enum declaration".toList
  | .caseClause => "case clause".toList
  | .casePayload => "case payload".toList

/-- A delimiter that is not due at all is said to stand where U+0000 was expected. -/
def Fault.text : Fault → Text
  | .unterminatedString => "unterminated string literal".toList
  | .unterminatedComment => "unterminated block comment".toList
  | .unbalanced found expected =>
    "unexpected `".toList ++ [found] ++ "`, expected `".toList ++ [expected.getD '\x00'] ++ ['`']
  | .unclosed opening => ['`', opening] ++ "` is never closed".toList
  | .unexpectedEnd inside => "unexpected end of input in ".toList ++ inside.text

namespace SourceError

def message (e : SourceError) : Text :=
  Nat.toDigits 10 e.line ++ [':'] ++ Nat.toDigits 10 e.column ++ ": ".toList ++ e.fault.text

def ofPlace (fault : Fault) (p : Place) : SourceError := ⟨fault, p.line, p.column⟩

end SourceError

end CaseAccessors
