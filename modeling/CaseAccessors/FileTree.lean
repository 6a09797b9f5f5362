import CaseAccessors.Text

/-! Files and directories, and the paths that lead to them. Places are lists of names from the root
down, so each file has one however a path to it is spelled. -/
namespace CaseAccessors

namespace Path

def segments : Text → List Text
  | [] => [[]]
  | c :: s =>
    if c = '/' then [] :: segments s
    else
      match segments s with
      | [] => [[c]]
      | name :: names => (c :: name) :: names

def isAbsolute (path : Text) : Bool := path.head? == some '/'

/-- What tells paths apart: repeated slashes, one at the end, and points but for a leading one do
not count. Two points are kept. -/
def components (path : Text) : List Text :=
  let names := (segments path).filter fun name => !name.isEmpty
  match names with
  | [] => if isAbsolute path then [['/']] else []
  | first :: rest =>
    let rest := rest.filter (· != ['.'])
    if isAbsolute path then ['/'] :: (if first = ['.'] then rest else first :: rest)
    else first :: rest

def same (a b : Text) : Bool := components a == components b

def isCurrent (path : Text) : Bool := components path == [['.']]

def join (directory name : Text) : Text :=
  if directory.isEmpty || directory.getLast? == some '/' then directory ++ name
  else directory ++ '/' :: name

/-- The path of an entry of a directory. The current directory is not written in front of it. -/
def child (directory name : Text) : Text :=
  if isCurrent directory then name else join directory name

/-- The order of names by their characters, which is also that of their bytes. -/
def precedes : Text → Text → Bool
  | [], _ => true
  | _ :: _, [] => false
  | a :: s, b :: t => a < b || (a == b && precedes s t)

def insertName (name : Text) : List Text → List Text
  | [] => [name]
  | other :: rest =>
    if precedes name other then name :: other :: rest else other :: insertName name rest

def sortNames (names : List Text) : List Text := names.foldr insertName []

end Path

inductive Content where
  | text (s : Text)
  | bytes (bs : List UInt8)
  deriving DecidableEq, Repr

abbrev Location := List Text

structure FileTree where
  /-- Where relative paths begin. -/
  working : Location
  /-- All directories but the root. -/
  directories : List Location
  files : List (Location × Content)
  deriving DecidableEq, Repr

inductive Entry where
  | directory (place : Location)
  | file (place : Location) (content : Content)
  deriving DecidableEq, Repr

inductive PathFault where
  | missing
  | notDirectory
  | isDirectory
  | notText
  | nulCharacter
  deriving DecidableEq, Repr

def PathFault.text : PathFault → Text
  | .missing => "No such file or directory (os error 2)".toList
  | .notDirectory => "Not a directory (os error 20)".toList
  | .isDirectory => "Is a directory (os error 21)".toList
  | .notText => "stream did not contain valid UTF-8".toList
  | .nulCharacter => "file name contained an unexpected NUL byte".toList

namespace FileTree

/-- A place and the directories above it, the root left out. -/
def upTo (place : Location) : List Location :=
  (List.range place.length).map fun n => place.take (n + 1)

def empty (working : Location) : FileTree := ⟨working, upTo working, []⟩

def enter (here : Location) (name : Text) : Location :=
  if name = [] ∨ name = ['.'] then here
  else if name = ['.', '.'] then here.dropLast
  else here ++ [name]

def walk (t : FileTree) (here : Location) : List Text → Except PathFault Entry
  | [] => .ok (.directory here)
  | name :: names =>
    let place := enter here name
    if place.length ≤ here.length || t.directories.contains place then t.walk place names
    else
      match t.files.lookup place with
      | some content => if names.isEmpty then .ok (.file place content) else .error .notDirectory
      | none => .error .missing

def find (t : FileTree) (path : Text) : Except PathFault Entry :=
  if path.contains '\x00' then .error .nulCharacter
  else if path.isEmpty then .error .missing
  else t.walk (if Path.isAbsolute path then [] else t.working) (Path.segments path)

def hasEntry (t : FileTree) (path : Text) : Bool := (t.find path).isOk

def isDirectory (t : FileTree) (path : Text) : Bool :=
  match t.find path with
  | .ok (.directory _) => true
  | _ => false

def isFile (t : FileTree) (path : Text) : Bool :=
  match t.find path with
  | .ok (.file ..) => true
  | _ => false

def readText (t : FileTree) (path : Text) : Except PathFault Text :=
  match t.find path with
  | .ok (.file _ (.text s)) => .ok s
  | .ok (.file _ (.bytes _)) => .error .notText
  | .ok (.directory _) => .error .isDirectory
  | .error e => .error e

def names (t : FileTree) (path : Text) : List Text :=
  match t.find path with
  | .ok (.directory place) =>
    let places := t.directories ++ t.files.map Prod.fst
    Path.sortNames ((places.filter fun p => p.dropLast == place).filterMap (·.getLast?))
  | _ => []

def update (place : Location) (content : Content) :
    List (Location × Content) → List (Location × Content)
  | [] => []
  | f :: rest => if f.1 = place then (place, content) :: rest else f :: update place content rest

def write (t : FileTree) (path s : Text) : FileTree :=
  match t.find path with
  | .ok (.file place _) => { t with files := update place (.text s) t.files }
  | _ => t

def addDirectory (t : FileTree) (place : Location) : FileTree :=
  { t with directories := t.directories ++ (upTo place).filter fun p => !t.directories.contains p }

def put (t : FileTree) (place : Location) (content : Content) : FileTree :=
  let files := match t.files.lookup place with
    | some _ => update place content t.files
    | none => t.files ++ [(place, content)]
  { t.addDirectory place.dropLast with files }

def remove (t : FileTree) (place : Location) : FileTree :=
  { t with files := t.files.filter fun f => f.1 ≠ place }

end FileTree

end CaseAccessors
