import CaseAccessors.Token.Delimiter

/-! The payload of a case: its fields, and the type that all of them have together. Fields are read
as `label: Type = default`, `_: Type` or `Type`, between commas. -/
namespace CaseAccessors

structure Field where
  label : Option Text
  type : Text
  deriving DecidableEq, Repr

inductive Shape where
  | unit
  | single (field : Field)
  /-- Two fields or more. -/
  | tuple (fields : List Field)
  deriving DecidableEq, Repr

def labelled (label : Option Text) (s : Text) : Text :=
  match label with
  | some l => l ++ ": ".toList ++ s
  | none => s

namespace Shape

def ofFields : List Field → Shape
  | [] => .unit
  | [field] => .single field
  | fields => .tuple fields

/-- A single field is not wrapped, so its label does not show in the type. -/
def valueType : Shape → Text
  | .unit => "Void".toList
  | .single field => field.type
  | .tuple fields =>
    ['('] ++ Text.joinWith ", ".toList (fields.map fun f => labelled f.label f.type) ++ [')']

end Shape

def consItem (i : Item) : List (List Item) → List (List Item)
  | [] => [[i]]
  | range :: ranges => (i :: range) :: ranges

/-- The ranges between commas that stand outside of angle brackets, of which `angles` are open.
A closing angle bracket without an opening one does not count. -/
def splitItems (angles : Nat) : List Item → List (List Item)
  | [] => [[]]
  | i :: rest =>
    if i.isPunct ',' && angles == 0 then [] :: splitItems 0 rest
    else if i.isPunct '<' then consItem i (splitItems (angles + 1) rest)
    else if i.isPunct '>' then consItem i (splitItems (angles - 1) rest)
    else consItem i (splitItems angles rest)

def splitFields (tokens : List Token) : List (List Token) :=
  (splitItems 0 (items tokens)).map (·.flatMap Item.tokens)

/-- The name in front of a colon, and the tokens behind it. A second name may follow the first. -/
def splitLabel? (tokens : List Token) : Option (Text × List Token) :=
  match tokens with
  | l :: c :: rest =>
    if l.kind = .ident then
      if c.isPunct ':' then some (l.name, rest)
      else if c.kind = .ident then
        match rest with
        | colon :: rest => if colon.isPunct ':' then some (l.name, rest) else none
        | [] => none
      else none
    else none
  | _ => none

def beforeDefault (tokens : List Token) : List Token :=
  ((items tokens).takeWhile fun i => !i.isPunct '=').flatMap Item.tokens

/-- The field that some tokens declare; `last` is the last of them. -/
def readField (last : Token) (tokens : List Token) : Except SourceError Field :=
  let (label, behind) := match splitLabel? tokens with
    | some (l, rest) => (if l = ['_'] then none else some l, rest)
    | none => (none, tokens)
  match beforeDefault behind with
  | [] => .error (.ofPlace (.unexpectedEnd .casePayload) last.place)
  | type => .ok ⟨label, (Token.sourceOf type).collapse⟩

/-- The fields that the inside of a payload declares. Nothing between two commas is no field. -/
def readFields (tokens : List Token) : Except SourceError (List Field) :=
  ((splitFields tokens).filterMap fun range => range.getLast?.map fun last => (last, range)).mapM
    fun (last, range) => readField last range

end CaseAccessors
