import CaseAccessors.FileTree
import CaseAccessors.Glob

/-! The files of a tree that a pattern stands for, directory by directory in the order of names. A
directory comes before what it holds. -/
namespace CaseAccessors

namespace FileTree

def meetsFirst : Location → Location → Bool
  | [], _ => true
  | _ :: _, [] => false
  | a :: p, b :: q => if a = b then meetsFirst p q else Path.precedes a b

def insertPlace (place : Location) : List Location → List Location
  | [] => [place]
  | other :: rest =>
    if meetsFirst place other then place :: other :: rest else other :: insertPlace place rest

def below (t : FileTree) (directory : Text) : List Location :=
  match t.find directory with
  | .ok (.directory top) =>
    let places := (t.directories ++ t.files.map Prod.fst).filter fun p =>
      top.isPrefixOf p && p.length != top.length
    (places.foldr insertPlace []).map (·.drop top.length)
  | _ => []

end FileTree

namespace Glob

inductive Component where
  | literal (name : Text)
  | pieces (ps : List Piece)
  /-- Any number of directories. -/
  | anyDepth
  deriving DecidableEq, Repr

namespace Component

def ofText (s : Text) : Except Error Component :=
  if s = ['*', '*'] then .ok .anyDepth
  else
    (compile s).map fun ps =>
      if ps.all fun p => p matches .char _ then .literal s else .pieces ps

def fits (c : Component) (name : Text) : Bool :=
  match c with
  | .literal s => s == name
  | .pieces ps => accepts ps name
  | .anyDepth => true

end Component

/-- The components of a pattern. A slash at its end begins no further one. -/
def components (pattern : Text) : Except Error (List Component) := do
  let _ ← compile pattern
  let names := Path.segments (if Path.isAbsolute pattern then pattern.drop 1 else pattern)
  (if names.getLast? = some [] then names.dropLast else names).mapM Component.ofText

def selfName : Text := ['.']

def parentName : Text := ['.', '.']

/-- The names by which a directory and the one above it fit a component: it has to begin with a
point. -/
def dotNames (ps : List Piece) : List Text :=
  if ps.head? = some (.char '.') then [parentName, selfName].filter (accepts ps) else []

def expand (t : FileTree) : List Component → (directory : Text) → List Text
  | [], path => [path]
  | .literal name :: rest, directory =>
    let path := Path.child directory name
    let found := if name = selfName ∨ name = parentName then t.isDirectory directory
      else t.hasEntry path
    if found then expand t rest path else []
  | .pieces ps :: rest, directory =>
    if t.isDirectory directory then
      ((dotNames ps).flatMap fun name => expand t rest (Path.join directory name)) ++
        ((t.names directory).filter (accepts ps)).flatMap fun name =>
          expand t rest (Path.child directory name)
    else []
  | .anyDepth :: .anyDepth :: rest, directory => expand t (.anyDepth :: rest) directory
  | .anyDepth :: c :: rest, directory =>
    ((t.below directory).filter fun names => names.getLast?.any c.fits).flatMap fun names =>
      expand t rest (names.foldl Path.child directory)
  | [.anyDepth], directory =>
    ((t.below directory).map fun names => names.foldl Path.child directory).filter t.isDirectory

/-- The files that a pattern stands for. With a slash at its end it stands for directories only. -/
def files (t : FileTree) (pattern : Text) : Except Error (List Text) := do
  let cs ← components pattern
  let top := if Path.isAbsolute pattern then ['/'] else selfName
  return if pattern.getLast? = some '/' then [] else (expand t cs top).filter t.isFile

end Glob

end CaseAccessors
