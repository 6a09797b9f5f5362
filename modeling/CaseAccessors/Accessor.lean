import CaseAccessors.Payload

/-! The accessor of a case is a property with the case's name, whose type is an optional of the
payload. It reads as nothing unless the case is active. Writing nothing to it changes nothing;
writing a value makes the case active with that payload. -/
namespace CaseAccessors

inductive Access where
  | openAccess
  | publicAccess
  | packageAccess
  | internalAccess
  | fileprivateAccess
  | privateAccess
  deriving DecidableEq, Repr

namespace Access

def all : List Access :=
  [.openAccess, .publicAccess, .packageAccess, .internalAccess, .fileprivateAccess, .privateAccess]

def keyword : Access → Text
  | .openAccess => "open".toList
  | .publicAccess => "public".toList
  | .packageAccess => "package".toList
  | .internalAccess => "internal".toList
  | .fileprivateAccess => "fileprivate".toList
  | .privateAccess => "private".toList

def ofKeyword? (word : Text) : Option Access := all.find? fun a => a.keyword == word

/-- What an accessor of an enum must say to be as accessible as the enum. Only classes and
their members can be open, and without a word a member is internal. -/
def forMembers : Access → Option Access
  | .openAccess | .publicAccess => some .publicAccess
  | .packageAccess => some .packageAccess
  | .internalAccess | .fileprivateAccess | .privateAccess => none

end Access

/-- What the getter returns, in terms of the names that it binds. -/
inductive Result where
  | unit
  | binding (name : Text)
  | tuple (elements : List (Option Text × Text))
  deriving DecidableEq, Repr

/-- Matches a case, binds its arguments by position and returns a result. -/
structure Getter where
  caseName : Text
  bindings : List Text
  result : Result
  deriving DecidableEq, Repr

inductive Source where
  | whole
  | element (index : Nat)
  deriving DecidableEq, Repr

structure Argument where
  label : Option Text
  source : Source
  deriving DecidableEq, Repr

structure Setter where
  caseName : Text
  arguments : List Argument
  deriving DecidableEq, Repr

structure Accessor where
  name : Text
  shape : Shape
  /-- The accessor's own type is an optional of this one. -/
  valueType : Text
  access : Option Access
  getter : Getter
  setter : Option Setter
  deriving DecidableEq, Repr

namespace Shape

def elementName (index : Nat) : Text := 'v' :: Nat.toDigits 10 index

def getter (caseName : Text) : Shape → Getter
  | .unit => ⟨caseName, [], .unit⟩
  | .single _ => ⟨caseName, ["value".toList], .binding "value".toList⟩
  | .tuple fields =>
    let names := (List.range fields.length).map elementName
    ⟨caseName, names, .tuple ((fields.map Field.label).zip names)⟩

def setter (caseName : Text) : Shape → Setter
  | .unit => ⟨caseName, []⟩
  | .single field => ⟨caseName, [⟨field.label, .whole⟩]⟩
  | .tuple fields => ⟨caseName, fields.mapIdx fun i f => ⟨f.label, .element i⟩⟩

end Shape

def Accessor.ofCase (name : Text) (fields : List Field) : Accessor :=
  let shape := Shape.ofFields fields
  { name, shape, valueType := shape.valueType, access := none, getter := shape.getter name,
    setter := some (shape.setter name) }

end CaseAccessors
