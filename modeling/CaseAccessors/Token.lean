import CaseAccessors.Fault

/-! Tokens of a Swift source text. A token keeps the spaces and comments that lead up to it, so the
leads and texts of a text's tokens, in order, give back the text up to the last token. -/
namespace CaseAccessors

inductive Kind where
  | ident
  | literal
  | arrow
  | punct (c : Char)
  deriving DecidableEq, Repr

structure Lexeme where
  lead : Text
  kind : Kind
  text : Text
  deriving DecidableEq, Repr

structure Token extends Lexeme where
  place : Place
  deriving DecidableEq, Repr

/-- A name without the pair of backticks that may surround it. -/
def unquoted (name : Text) : Text :=
  match name with
  | '`' :: s => if s.getLast? = some '`' then s.dropLast else name
  | _ => name

namespace Lexeme

def isPunct (t : Lexeme) (c : Char) : Bool := t.kind == .punct c

/-- A keyword; an identifier in backticks is none. -/
def isWord (t : Lexeme) (word : String) : Bool := t.kind == .ident && t.text == word.toList

def isWordIn (t : Lexeme) (words : List Text) : Bool := t.kind == .ident && words.contains t.text

def name (t : Lexeme) : Text := unquoted t.text

end Lexeme

namespace Token

def endOffset (t : Token) : Nat := t.place.offset + Text.byteSize t.text

/-- The source from the first of some consecutive tokens to the last. -/
def sourceOf : List Token → Text
  | [] => []
  | t :: rest => t.text ++ rest.flatMap fun u => u.lead ++ u.text

end Token

def Lexeme.placed (p : Place) : List Lexeme → List Token
  | [] => []
  | l :: rest =>
    let here := p.advance l.lead
    { l with place := here } :: placed (here.advance l.text) rest

end CaseAccessors
