import CaseAccessors.Program

/-! The command line on the files of this machine. What a command can meet is read into a tree
first, and what it changes there is written back. -/
namespace CaseAccessors

namespace Machine

def pathOf (place : Location) : String := String.ofList ('/' :: Text.joinWith ['/'] place)

/-- Adds what stands at a place, and what is below it down to a depth. Contents are left out. -/
def observe (depth : Nat) (t : FileTree) (place : Location) : IO FileTree := do
  let path := System.mkFilePath [pathOf place]
  if ← path.isDir then
    let t := t.addDirectory place
    match depth with
    | 0 => return t
    | depth + 1 =>
      let entries ← try path.readDir catch _ => pure #[]
      entries.foldlM (fun t entry => observe depth t (place ++ [entry.fileName.toList])) t
  else if ← path.pathExists then return t.put place (.bytes [])
  else return t

def observeAlong (depth : Nat) (t : FileTree) (here : Location) : List Text → IO FileTree
  | [] => observe depth t here
  | name :: names => do
    let place := FileTree.enter here name
    observeAlong depth (← observe 0 t place) place names

def observePath (depth : Nat) (t : FileTree) (path : List Text) : IO FileTree :=
  observeAlong depth t (if path.head? = some [] then [] else t.working) path

def readContent (t : FileTree) (path : Text) : IO FileTree := do
  match t.find path with
  | .ok (.file place _) =>
    try
      let bytes ← IO.FS.readBinFile (pathOf place)
      match String.fromUTF8? bytes with
      | some s => return t.put place (.text s.toList)
      | none => return t.put place (.bytes bytes.toList)
    catch _ => return t.remove place
  | _ => return t

def greatestDepth : Nat := 64

/-- The files that a command can meet, with the contents of those that it reads. -/
def treeFor (i : Invocation) (empty : FileTree) : IO FileTree := do
  let t ← i.inputs.foldlM (fun t input =>
    observePath greatestDepth t (Inputs.fixedNames input)) empty
  let t ← match i.settingsPath with
    | some path => do readContent (← observePath 0 t (Path.segments path)) path
    | none => pure t
  match i.plan t with
  | .ok (_, paths) => paths.foldlM readContent t
  | .error _ => return t

def writeBack (before after : FileTree) : IO Unit :=
  after.files.forM fun (place, content) =>
    match content with
    | .text s =>
      if before.files.lookup place = some content then pure ()
      else IO.FS.writeFile (pathOf place) (String.ofList s)
    | .bytes _ => pure ()

/-- Whether shades are wanted: as the environment says, or if a terminal shows them. -/
def wantsShades (force without choice : Option String) (terminal : Bool) : Bool :=
  if force.any (· != "0") then true
  else if without.isSome then false
  else choice.all (· != "0") && terminal

end Machine

end CaseAccessors

open CaseAccessors in
def main (arguments : List String) : IO UInt32 := do
  let words := arguments.map String.toList
  let working := (Path.segments (← IO.currentDir).toString.toList).filter fun name => name ≠ []
  let empty := FileTree.empty working
  let before ← match CommandLine.read words with
    | some (.run i) => Machine.treeFor i empty
    | _ => pure empty
  let shaded := Machine.wantsShades (← IO.getEnv "CLICOLOR_FORCE") (← IO.getEnv "NO_COLOR")
    (← IO.getEnv "CLICOLOR") (← (← IO.getStdout).isTty)
  let outcome := Program.run words shaded before
  Machine.writeBack before outcome.tree
  IO.print (String.ofList outcome.output)
  IO.eprint (String.ofList outcome.errors)
  return outcome.exitCode.toUInt32
