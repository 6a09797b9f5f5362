import CaseAccessors.Glob.Expansion
import CaseAccessors.Settings

/-! The files that the inputs of a run stand for, and why a run ends before it completes any. -/
namespace CaseAccessors

inductive Failure where
  | unreadableSettings (path : Text) (fault : PathFault)
  | invalidSettings (path : Text) (fault : Settings.Fault)
  | badExclude (bad : BadPattern)
  | badInput (bad : BadPattern)
  /-- A pattern among the inputs that stands for no file. -/
  | noMatches (pattern : Text)
  deriving DecidableEq, Repr

def BadPattern.message (bad : BadPattern) : Text :=
  Json.inTicks bad.pattern ++ ": ".toList ++ bad.error.message

namespace Failure

/-- The fault of a path or a pattern that a failure comes from. -/
def cause? : Failure → Option Text
  | unreadableSettings _ fault => some fault.text
  | badExclude bad => some bad.error.message
  | badInput bad => some bad.error.message
  | _ => none

def message : Failure → Text
  | unreadableSettings path fault =>
    "failed to read config ".toList ++ path ++ ": ".toList ++ fault.text
  | invalidSettings path fault =>
    "invalid config ".toList ++ path ++ ": ".toList ++ fault.message
  | badExclude bad =>
    "invalid exclude pattern ".toList ++ bad.message
  | badInput bad =>
    "invalid glob pattern ".toList ++ bad.message
  | noMatches pattern => "glob pattern matched no files: ".toList ++ pattern

end Failure

namespace Settings

def ofJsonAt (path source : Text) : Except Failure Settings :=
  (ofJson source).mapError (.invalidSettings path)

def load (t : FileTree) (path : Text) : Except Failure Settings := do
  let source ← (t.readText path).mapError (.unreadableSettings path)
  ofJsonAt path source

end Settings

namespace Inputs

def isPattern (input : Text) : Bool := input.any fun c => c == '*' || c == '?' || c == '['

def fixedNames (input : Text) : List Text :=
  (Path.segments input).takeWhile fun name => !isPattern name

def expandPattern (t : FileTree) (pattern : Text) : Except Failure (List Text) :=
  (Glob.files t pattern).mapError fun e => .badInput ⟨pattern, e⟩

def directoryPattern (directory extension : Text) : Text :=
  (directory.reverse.dropWhile (· == '/')).reverse ++ "/**/*.".toList ++ extension

/-- The paths that an input stands for: those that fit a pattern, the files of a directory, or
itself. -/
def expand (t : FileTree) (s : Settings) (input : Text) : Except Failure (List Text) := do
  if isPattern input then
    let paths ← expandPattern t input
    if paths.isEmpty then throw (.noMatches input) else return paths
  else if t.isDirectory input then
    let paths ← s.extensions.mapM fun e => expandPattern t (directoryPattern input e)
    return paths.flatten
  else return [input]

def firstsFrom (met : List Text) : List Text → List Text
  | [] => []
  | path :: rest =>
    if met.any (Path.same path) then firstsFrom met rest
    else path :: firstsFrom (path :: met) rest

def firsts (paths : List Text) : List Text := firstsFrom [] paths

def resolve (t : FileTree) (s : Settings) (inputs : List Text) : Except Failure (List Text) := do
  let excluded ← s.excludePatterns.mapError Failure.badExclude
  let paths ← inputs.mapM (expand t s)
  return (firsts paths.flatten).filter fun path => !excluded.any (Glob.accepts · path)

end Inputs

end CaseAccessors
