import CaseAccessors.Accessor.Printing

/-! Where accessors go in front of the brace that closes a body, and what surrounds them. -/
namespace CaseAccessors

structure Options where
  /-- Spaces for each level of nesting, where the body has no indentation to copy. -/
  indentWidth : Nat
  /-- Whether accessors are written as accessible as their enum. -/
  showAccess : Bool
  deriving DecidableEq, Repr

def Options.default : Options := ⟨4, true⟩

def Options.unit (o : Options) : Text := List.replicate o.indentWidth ' '

/-- The text before the accessors, the blanks that they replace, and what surrounds them. -/
structure Layout where
  kept : Text
  dropped : Text
  indent : Text
  lead : Text
  trail : Text
  deriving DecidableEq, Repr

namespace Layout

def beforeLastLine (s : Text) : Text := s.take (s.length - (Text.lastLine s).length)

/-- Whether accessors can follow a text that ends in a line end without a blank line between. -/
def needsNoGap (before : Text) : Bool :=
  let line := (Text.lastLine before.dropLast).trim
  line.isEmpty || line.getLast? == some '{'

/-- The layout in front of a brace that `before` precedes. A brace with nothing but blanks before it
on its line keeps that line; any other one is moved to a line of its own. -/
def ofBefore (o : Options) (memberIndent : Option Text) (declIndent before : Text) : Layout :=
  let line := Text.lastLine before
  if line.trim.isEmpty then
    let kept := beforeLastLine before
    { kept, dropped := [], indent := memberIndent.getD (line.takeWhile Text.isIndent ++ o.unit),
      lead := if needsNoGap kept then [] else ['\n'], trail := [] }
  else
    let kept := before.dropIndentEnd
    { kept, dropped := before.drop kept.length, indent := memberIndent.getD (declIndent ++ o.unit),
      lead := ['\n', '\n'], trail := declIndent }

def surround (l : Layout) (block : Text) : Text := l.lead ++ block ++ l.trail

end Layout

end CaseAccessors
