import CaseAccessors.Enumeration
import CaseAccessors.Layout

/-! Completing a Swift source text: every enum in it gets the accessors that it lacks. What is
inserted is worked out for the text as it is and then carried out, the last place first, so that no
insertion moves the place of another. -/
namespace CaseAccessors

/-- Replaces the bytes from `start` to `stop`, mostly none. -/
structure Insertion where
  start : Nat
  stop : Nat
  text : Text
  deriving DecidableEq, Repr

namespace Insertion

/-- None if the bytes are not those of whole characters of the text. -/
def carryOut? (i : Insertion) (s : Text) : Option Text := do
  let (before, rest) ← s.cutAt? i.start
  let (_, after) ← rest.cutAt? (i.stop - i.start)
  return before ++ i.text ++ after

def insertByStart (i : Insertion) : List Insertion → List Insertion
  | [] => [i]
  | j :: rest => if j.start ≤ i.start then i :: j :: rest else j :: insertByStart i rest

/-- The last place first; insertions at one place keep their order. -/
def latestFirst (is : List Insertion) : List Insertion := is.foldr insertByStart []

def carryOutAll? (is : List Insertion) (s : Text) : Option Text :=
  (latestFirst is).foldlM (fun s i => i.carryOut? s) s

end Insertion

/-- What happened to an enum: the accessors added, and the cases whose name a member has. -/
structure Change where
  name : Text
  added : List Text
  kept : List Text
  deriving DecidableEq, Repr

structure Completion where
  output : Text
  changes : List Change
  deriving DecidableEq, Repr

/-- Why completing a text breaks off without an answer. -/
inductive Panic where
  /-- Two enums share a body, and what is inserted for one is cut inside a character by the other.
  -/
  | overlap
  /-- A text would have more bytes than a text can have. -/
  | capacity
  deriving DecidableEq, Repr

inductive Refusal where
  | source (e : SourceError)
  | panic (p : Panic)
  deriving DecidableEq, Repr

namespace Completion

def changed (c : Completion) : Bool := c.changes.any fun d => !d.added.isEmpty

end Completion

namespace Enumeration

def change (e : Enumeration) : Change :=
  let added := e.decl.complete.1.accessors.map Accessor.name
  ⟨e.decl.name, added, (e.decl.cases.map Case.name).filter fun n => !added.contains n⟩

def insertion? (o : Options) (src : Text) (e : Enumeration) : Option Insertion :=
  let (completed, changed) := e.decl.complete
  if changed then
    let before := match src.cutAt? e.closeOffset with
      | some (before, _) => before
      | none => []
    let layout := Layout.ofBefore o e.memberIndent e.indent before
    let block := Accessor.printAll ⟨layout.indent, o.unit, o.showAccess⟩ completed.accessors
    let newline := if src.hasCrlf then ['\r', '\n'] else ['\n']
    let start := Text.byteSize layout.kept
    some ⟨start, start + Text.byteSize layout.dropped, (layout.surround block).withNewline newline⟩
  else none

end Enumeration

def completeEnums (o : Options) (src : Text) (enums : List Enumeration) :
    Except Refusal Completion :=
  match Insertion.carryOutAll? (enums.filterMap (·.insertion? o src)) src with
  | some output => .ok ⟨output, enums.map Enumeration.change⟩
  | none => .error (.panic .overlap)

/-- Completing a text if there is room for any output. -/
def complete (o : Options) (src : Text) : Except Refusal Completion := do
  let enums ← (readEnumerations src).mapError Refusal.source
  completeEnums o src enums

/-- Completing a text where no text has more than `Text.maxSize` bytes. The blanks of a level are
made before anything is inserted, for the first enum that lacks an accessor. -/
def completeBounded (o : Options) (src : Text) : Except Refusal Completion := do
  let enums ← (readEnumerations src).mapError Refusal.source
  if enums.any (·.decl.complete.2) ∧ Text.maxSize < o.indentWidth then .error (.panic .capacity)
  else
    let c ← completeEnums o src enums
    if Text.byteSize c.output ≤ Text.maxSize then .ok c else .error (.panic .capacity)

end CaseAccessors
