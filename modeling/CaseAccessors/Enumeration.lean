import CaseAccessors.Decl.Body
import CaseAccessors.Token.Lexing

/-! Enums found in a source text. A declaration is the word `enum` with a name behind it and no
point before it; its body is the next group in braces, wherever that begins. -/
namespace CaseAccessors

structure Enumeration where
  decl : Decl
  /-- Byte offset of the brace that closes the body. -/
  closeOffset : Nat
  /-- Indentation of the first line of the body that begins with a token. -/
  memberIndent : Option Text
  /-- Indentation of the line that holds the `enum` keyword. -/
  indent : Text
  deriving DecidableEq, Repr

/-- A place where an enum is declared: the tokens before the keyword, nearest first, the keyword,
the name and the tokens behind it. -/
structure Site where
  before : List Token
  keyword : Token
  name : Token
  behind : List Token
  deriving DecidableEq, Repr

namespace Site

def among (before : List Token) : List Token → List Site
  | keyword :: name :: behind =>
    let rest := among (keyword :: before) (name :: behind)
    if keyword.isWord "enum" && name.kind == .ident && !before.head?.any (·.isPunct '.') then
      ⟨before, keyword, name, behind⟩ :: rest
    else rest
  | _ => []

/-- The nearest access level among the modifiers in front of the keyword. -/
def access (s : Site) : Option Access :=
  (s.before.takeWhile (·.isWordIn modifierWords)).findSome? fun t => Access.ofKeyword? t.text

def body (s : Site) : Except SourceError (Token × Group) :=
  match s.behind.dropWhile fun t => !t.isPunct '{' with
  | [] => .error (.ofPlace (.unexpectedEnd .enumDeclaration) s.keyword.place)
  | brace :: rest =>
    match group? 0 rest with
    | some g => .ok (brace, g)
    | none => .error (.ofPlace (.unclosed '{') brace.place)

def enumeration (src : Text) (s : Site) : Except SourceError Enumeration := do
  let (brace, g) ← s.body
  let contents ← Body.read g.inside
  let first := g.inside.find? fun t => brace.place.line < t.place.line
  return {
    decl := ⟨s.name.name, s.access, contents.members.map .existing, contents.cases⟩
    closeOffset := g.closing.place.offset
    memberIndent := first.map fun t => (src.lineIndent? t.place.offset).getD []
    indent := (src.lineIndent? s.keyword.place.offset).getD [] }

end Site

def readEnumerations (src : Text) : Except SourceError (List Enumeration) := do
  let tokens ← tokenize src
  checkDelimiters [] tokens
  (Site.among [] tokens).mapM (·.enumeration src)

end CaseAccessors
