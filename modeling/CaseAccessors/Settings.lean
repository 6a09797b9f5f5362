import CaseAccessors.Glob
import CaseAccessors.Json.Number
import CaseAccessors.Json.Word
import CaseAccessors.Layout

/-! Settings of a run: how accessors are laid out, and which files are completed. They are read from
JSON, an object whose keys are names of fields, or an array of the fields in order. Fields that are
not given keep their defaults. Only the value itself is read, not what follows. -/
namespace CaseAccessors

structure Settings where
  /-- Spaces for each level of nesting, where a body has no indentation to copy. -/
  indentWidth : Nat
  /-- Endings of the files that are picked from a directory. -/
  extensions : List Text
  /-- Patterns of paths that are left out. -/
  exclude : List Text
  /-- Whether accessors are written as accessible as their enum. -/
  showAccess : Bool
  deriving DecidableEq, Repr

structure BadPattern where
  pattern : Text
  error : Glob.Error
  deriving DecidableEq, Repr

namespace Settings

def default : Settings := ⟨4, ["swift".toList], [], true⟩

def options (s : Settings) : Options := ⟨s.indentWidth, s.showAccess⟩

def excludePatterns (s : Settings) : Except BadPattern (List (List Glob.Piece)) :=
  s.exclude.mapM fun pattern => (Glob.compile pattern).mapError (⟨pattern, ·⟩)

open Json (Cursor)

inductive KeyStep where
  | key (name : Text)
  | index (i : Nat)
  /-- A key that could not be read. -/
  | unknown
  deriving DecidableEq, Repr

structure Fault where
  way : List KeyStep
  error : Json.Error
  deriving DecidableEq, Repr

def KeyStep.text : KeyStep → Text
  | .key name => name
  | .index i => ['['] ++ Nat.toDigits 10 i ++ [']']
  | .unknown => ['?']

/-- A way as text: keys between points, each index right behind what it belongs to. -/
def wayText : List KeyStep → Text
  | [] => ['.']
  | first :: rest => first.text ++ rest.flatMap fun s => match s with
    | .index i => KeyStep.text (.index i)
    | s => '.' :: s.text

def Fault.message (f : Fault) : Text :=
  "at ".toList ++ wayText f.way ++ ": ".toList ++ f.error.message

def under {α : Type} (step : KeyStep) (r : Except Fault α) : Except Fault α :=
  r.mapError fun f => { f with way := step :: f.way }

def here {α : Type} (r : Except Json.Error α) : Except Fault α := r.mapError (⟨[], ·⟩)

/-- The fault of a value that is not of the kind expected. It is read as far as its kind tells. -/
def wrongType {α : Type} (expected : Text) (c : Cursor) : Except Json.Error α := do
  let fail (found : Json.Found) (c : Cursor) : Except Json.Error α :=
    c.fail (.wrongType found expected)
  match c.rest with
  | 'n' :: _ => fail .null (← Json.readWord "ull".toList c.tail)
  | 't' :: _ => fail (.boolean true) (← Json.readWord "rue".toList c.tail)
  | 'f' :: _ => fail (.boolean false) (← Json.readWord "alse".toList c.tail)
  | '-' :: _ =>
    let (n, behind) ← Json.readNumber false c.tail
    fail n.found behind
  | '"' :: _ =>
    let (s, behind) ← Json.readString c.tail
    fail (.text s) behind
  | '[' :: _ => fail .sequence c
  | '{' :: _ => fail .map c
  | d :: _ =>
    if d.isDigit then
      let (n, behind) ← Json.readNumber true c
      fail n.found behind
    else c.failNext .expectedValue
  | [] => c.fail .endInValue

def readWidth (c : Cursor) : Except Json.Error (Nat × Cursor) := do
  let c := c.skipBlanks
  let expected := "usize".toList
  let ofNumber (r : Json.Number × Cursor) : Except Json.Error (Nat × Cursor) :=
    match r.1 with
    | .unsigned n => .ok (n, r.2)
    | .negative size => r.2.fail (.wrongValue (.negative size) expected)
    | .floating f => r.2.fail (.wrongType (Json.Number.floating f).found expected)
  match c.rest with
  | '-' :: _ => ofNumber (← Json.readNumber false c.tail)
  | d :: _ => if d.isDigit then ofNumber (← Json.readNumber true c) else wrongType expected c
  | [] => c.fail .endInValue

def readFlag (c : Cursor) : Except Json.Error (Bool × Cursor) := do
  let c := c.skipBlanks
  match c.rest with
  | 't' :: _ => return (true, ← Json.readWord "rue".toList c.tail)
  | 'f' :: _ => return (false, ← Json.readWord "alse".toList c.tail)
  | _ => wrongType "a boolean".toList c

def readText (c : Cursor) : Except Json.Error (Text × Cursor) :=
  let c := c.skipBlanks
  match c.rest with
  | '"' :: _ => Json.readString c.tail
  | _ => wrongType "a string".toList c

/-- Finds the next element of a list, or none at its end, where the cursor stays before the bracket.
-/
def nextElement (first : Bool) (c : Cursor) : Except Json.Error (Bool × Cursor) :=
  let c := c.skipBlanks
  match c.rest with
  | [] => c.fail .endInList
  | ']' :: _ => .ok (false, c)
  | d :: _ =>
    if first then .ok (true, c)
    else if d = ',' then
      let c := c.tail.skipBlanks
      match c.rest with
      | [] => c.fail .endInValue
      | ']' :: _ => c.failNext .trailingComma
      | _ => .ok (true, c)
    else c.failNext .expectedListEnd

/-- Reads the elements of a list of texts from the one with an index on. Each takes a character at
least, so `fuel` as great as the text's length is enough. -/
def readTextsWith : (fuel index : Nat) → Cursor → Except Fault (List Text × Cursor)
  | 0, _, c => here (c.fail .endInList)
  | fuel + 1, index, c => do
    let (more, c) ← here (nextElement (index == 0) c)
    if more then
      let (s, c) ← under (.index index) (here (readText c))
      let (rest, c) ← readTextsWith fuel (index + 1) c
      return (s :: rest, c)
    else return ([], c.tail)

def readTexts (c : Cursor) : Except Fault (List Text × Cursor) :=
  let c := c.skipBlanks
  match c.rest with
  | '[' :: _ => readTextsWith (c.rest.length + 1) 0 c.tail
  | _ => here (wrongType "a sequence".toList c)

inductive Name where
  | indentWidth
  | extensions
  | exclude
  | showAccess
  deriving DecidableEq, Repr

namespace Name

/-- In the order that an array gives them in. -/
def all : List Name := [.indentWidth, .extensions, .exclude, .showAccess]

def text : Name → Text
  | .indentWidth => "indent_width".toList
  | .extensions => "extensions".toList
  | .exclude => "exclude".toList
  | .showAccess => "mirror_access".toList

def ofText? (s : Text) : Option Name := all.find? fun n => n.text == s

end Name

def readField (n : Name) (s : Settings) (c : Cursor) : Except Fault (Settings × Cursor) := do
  match n with
  | .indentWidth => let (v, c) ← here (readWidth c); return ({ s with indentWidth := v }, c)
  | .extensions => let (v, c) ← readTexts c; return ({ s with extensions := v }, c)
  | .exclude => let (v, c) ← readTexts c; return ({ s with exclude := v }, c)
  | .showAccess => let (v, c) ← here (readFlag c); return ({ s with showAccess := v }, c)

def readArrayEnd (c : Cursor) : Except Json.Error Cursor :=
  let c := c.skipBlanks
  match c.rest with
  | [] => c.fail .endInList
  | ']' :: _ => .ok c.tail
  | ',' :: _ =>
    let c := c.tail.skipBlanks
    match c.rest with
    | ']' :: _ => c.failNext .trailingComma
    | _ => c.failNext .trailingCharacters
  | _ => c.failNext .trailingCharacters

def readArray : (names : List Name) → (index : Nat) → Settings → Cursor → Except Fault Settings
  | [], _, s, c => (here (readArrayEnd c)).map fun _ => s
  | n :: names, index, s, c => do
    let (more, c) ← here (nextElement (index == 0) c)
    if more then
      let (s, c) ← under (.index index) (readField n s c)
      readArray names (index + 1) s c
    else return s

def nextKey (first : Bool) (c : Cursor) : Except Json.Error (Bool × Cursor) :=
  let c := c.skipBlanks
  let atKey (c : Cursor) : Except Json.Error (Bool × Cursor) :=
    match c.rest with
    | '"' :: _ => .ok (true, c.tail)
    | _ => c.failNext .keyNotString
  match c.rest with
  | [] => c.fail .endInObject
  | '}' :: _ => .ok (false, c.tail)
  | d :: _ =>
    if first then atKey c
    else if d = ',' then
      let c := c.tail.skipBlanks
      match c.rest with
      | [] => c.fail .endInValue
      | '}' :: _ => c.failNext .trailingComma
      | _ => atKey c
    else c.failNext .expectedObjectEnd

/-- Where a key that is refused is said to be: behind it, the blanks that follow, and an end of the
object right there. -/
def refuseKey {α : Type} (fault : Json.Fault) (c : Cursor) : Except Json.Error α :=
  let c := c.skipBlanks
  match c.rest with
  | '}' :: _ => c.tail.fail fault
  | _ => c.fail fault

def readColon (c : Cursor) : Except Json.Error Cursor :=
  let c := c.skipBlanks
  match c.rest with
  | ':' :: _ => .ok c.tail
  | [] => c.fail .endInObject
  | _ => c.failNext .expectedColon

/-- Reads the fields of an object but for those already `given`. Each gives a further one, so `fuel`
above their number is enough. -/
def readObject : (fuel : Nat) → (given : List Name) → Settings → Cursor → Except Fault Settings
  | 0, _, s, _ => .ok s
  | fuel + 1, given, s, c => do
    let (more, c) ← under .unknown (here (nextKey given.isEmpty c))
    if more then
      let (key, c) ← under .unknown (here (Json.readString c))
      match Name.ofText? key with
      | none =>
        under (.key key) (here (refuseKey (.unknownField key (Name.all.map Name.text)) c))
      | some n =>
        if given.contains n then here (refuseKey (.duplicateField key) c)
        else
          let c ← here (readColon c)
          let (s, c) ← under (.key key) (readField n s c)
          readObject fuel (n :: given) s c
    else return s

def ofJson (source : Text) : Except Fault Settings :=
  let c := (Cursor.ofText source).skipBlanks
  match c.rest with
  | [] => here (c.fail .endInValue)
  | '[' :: _ => readArray Name.all 0 .default c.tail
  | '{' :: _ => readObject (Name.all.length + 1) [] .default c.tail
  | _ => here (wrongType "struct Config".toList c)

end Settings

end CaseAccessors
