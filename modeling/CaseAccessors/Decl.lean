import CaseAccessors.Accessor

/-! Enum declarations, and the accessors that they lack. -/
namespace CaseAccessors

structure Case where
  name : Text
  fields : List Field
  deriving DecidableEq, Repr

inductive Member where
  /-- Anything that the body declares under a name. -/
  | existing (name : Text)
  | accessor (a : Accessor)
  deriving DecidableEq, Repr

namespace Member

def name : Member → Text
  | .existing name => name
  | .accessor a => a.name

def accessor? : Member → Option Accessor
  | .existing _ => none
  | .accessor a => some a

end Member

/-- Members and cases are in the order of their declarations. -/
structure Decl where
  name : Text
  access : Option Access
  members : List Member
  cases : List Case
  deriving DecidableEq, Repr

namespace Decl

def hasMember (d : Decl) (name : Text) : Bool := d.members.any fun m => m.name == name

theorem hasMember_iff {d : Decl} {name : Text} :
    d.hasMember name = true ↔ name ∈ d.members.map Member.name := by
  simp [hasMember]

def accessors (d : Decl) : List Accessor := d.members.filterMap Member.accessor?

def accessorFor? (d : Decl) (c : Case) : Option Accessor :=
  if d.hasMember c.name then none else some (.ofCase c.name c.fields)

/-- The accessors that the cases ask for, as accessible as the enum. Only members that the
declaration has before count as taken names. -/
def missing (d : Decl) : List Accessor :=
  let access := d.access.bind Access.forMembers
  (d.cases.filterMap d.accessorFor?).map fun a => { a with access }

def complete (d : Decl) : Decl × Bool :=
  ({ d with members := d.members ++ d.missing.map .accessor }, !d.missing.isEmpty)

end Decl

end CaseAccessors
