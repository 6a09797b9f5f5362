import CaseAccessors.Accessor

/-! The Swift source of accessors. -/
namespace CaseAccessors

/-- Names that are read as something else unless they stand in backticks. -/
def keywords : List Text :=
  ["Any", "Self", "as", "associatedtype", "await", "break", "case", "catch", "class", "continue",
    "default", "defer", "deinit", "do", "else", "enum", "extension", "fallthrough", "false",
    "fileprivate", "for", "func", "guard", "if", "import", "in", "init", "inout", "internal", "is",
    "let", "nil", "open", "operator", "precedencegroup", "private", "Protocol", "protocol",
    "public", "repeat", "rethrows", "return", "self", "static", "struct", "subscript", "super",
    "switch", "throw", "throws", "true", "try", "Type", "typealias", "var", "where", "while"].map
    String.toList

def escaped (name : Text) : Text :=
  if keywords.contains name then '`' :: name ++ ['`'] else name

def beginsWithWord (word s : Text) : Bool :=
  match Text.after? word s with
  | some (c :: _) => isBlank c
  | _ => false

def occurs (part : Text) : Text → Bool
  | [] => part.isEmpty
  | c :: s => (Text.after? part (c :: s)).isSome || occurs part s

/-- Types of which a question mark behind them would only take the last part. -/
def needsParens (type : Text) : Bool :=
  beginsWithWord "some".toList type || beginsWithWord "any".toList type ||
    occurs "->".toList type || type.contains '&'

def optionalType (type : Text) : Text :=
  if needsParens type then '(' :: type ++ ")?".toList else type ++ ['?']

/-- How accessors are laid out: what begins each line, what a level of nesting adds to it, and
whether access levels are written. -/
structure Style where
  indent : Text
  unit : Text
  showAccess : Bool
  deriving DecidableEq, Repr

namespace Style

def line (st : Style) (level : Nat) (s : Text) : Text :=
  st.indent ++ (List.replicate level st.unit).flatten ++ s ++ ['\n']

end Style

def parenthesized (parts : List Text) : Text :=
  ['('] ++ Text.joinWith ", ".toList parts ++ [')']

namespace Result

def source : Result → Text
  | .unit => "()".toList
  | .binding name => escaped name
  | .tuple elements =>
    parenthesized (elements.map fun (label, name) => labelled label (escaped name))

end Result

namespace Getter

def pattern (g : Getter) : Text :=
  if g.bindings.isEmpty then "case .".toList ++ escaped g.caseName
  else "case let .".toList ++ escaped g.caseName ++ parenthesized (g.bindings.map escaped)

def print (st : Style) (g : Getter) : Text :=
  st.line 2 ("guard ".toList ++ g.pattern ++ " = self else \x7b return nil \x7d".toList) ++
    st.line 2 ("return ".toList ++ g.result.source)

end Getter

namespace Source

def text : Source → Text
  | .whole => "newValue".toList
  | .element index => "newValue.".toList ++ Nat.toDigits 10 index

end Source

namespace Setter

def print (st : Style) (s : Setter) : Text :=
  if s.arguments.isEmpty then
    st.line 2 "guard newValue != nil else \x7b return \x7d".toList ++
      st.line 2 ("self = .".toList ++ escaped s.caseName)
  else
    st.line 2 "guard let newValue = newValue else \x7b return \x7d".toList ++
      st.line 2 ("self = .".toList ++ escaped s.caseName ++
        parenthesized (s.arguments.map fun a => labelled a.label a.source.text))

end Setter

namespace Accessor

def header (st : Style) (a : Accessor) : Text :=
  let access := match a.access with
    | some level => if st.showAccess then level.keyword ++ [' '] else []
    | none => []
  access ++ "var ".toList ++ escaped a.name ++ ": ".toList ++ optionalType a.valueType ++
    " \x7b".toList

def print (st : Style) (a : Accessor) : Text :=
  st.line 0 (a.header st) ++ st.line 1 "get \x7b".toList ++ a.getter.print st ++
    st.line 1 ['}'] ++
    (match a.setter with
    | some s => st.line 1 "set \x7b".toList ++ s.print st ++ st.line 1 ['}']
    | none => []) ++
    st.line 0 ['}']

def printAll (st : Style) (accessors : List Accessor) : Text :=
  Text.joinWith ['\n'] (accessors.map (print st))

end Accessor

end CaseAccessors
