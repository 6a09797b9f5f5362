import CaseAccessors.CommandLine
import CaseAccessors.Inputs
import CaseAccessors.Report

/-! What a command does to a tree of files, and what it prints. -/
namespace CaseAccessors

/-- What a command leaves: its exit code, the texts it prints on its two outputs, and the files. -/
structure Outcome where
  exitCode : Nat
  output : Text
  errors : Text
  tree : FileTree
  deriving DecidableEq, Repr

/-- The exit code of a run that breaks off. -/
def panicCode : Nat := 101

inductive Stage where
  | settings
  | inputs
  deriving DecidableEq, Repr

def Stage.text : Stage → Text
  | .settings => "failed to load configuration".toList
  | .inputs => "failed to resolve input file paths".toList

def Failure.account (f : Failure) (stage : Stage) : Text :=
  let cause := match f.cause? with
    | some cause => ": ".toList ++ cause
    | none => []
  "error: ".toList ++ stage.text ++ ": ".toList ++ f.message ++ cause ++ ['\n']

namespace Command

def mode : Command → Mode
  | generate false => .write
  | _ => .preview

/-- Whether the report of a command is a good one. A check is to find nothing to add. -/
def succeeds (c : Command) (r : Report) : Bool :=
  match c with
  | generate _ => r.failed == 0
  | check => r.failed == 0 && r.changed == 0

end Command

namespace Report

/-- The completed texts of the files that a run would change, each below a comment with its path. -/
def preview (r : Report) : Text :=
  r.files.flatMap fun f => match f.output with
    | some s => "// ".toList ++ f.path ++ ['\n'] ++ s
    | none => []

end Report

namespace Invocation

def settings (i : Invocation) (t : FileTree) : Except Failure Settings :=
  match i.settingsPath with
  | some path => Settings.load t path
  | none => .ok .default

def plan (i : Invocation) (t : FileTree) : Except (Failure × Stage) (Settings × List Text) := do
  let s ← (i.settings t).mapError fun f => (f, .settings)
  let paths ← (Inputs.resolve t s i.inputs).mapError fun f => (f, .inputs)
  return (s, paths)

/-- Texts for people go to the second output, and so does the document if the first one holds a
preview. A panic at one of the files ends the run once the others are done, and then nothing is
printed. -/
def perform (i : Invocation) (shaded : Bool) (t : FileTree) : Outcome :=
  match i.plan t with
  | .error (failure, stage) => ⟨1, [], failure.account stage, t⟩
  | .ok (settings, paths) =>
    let (report, t) := runBatch settings i.command.mode t paths
    if report.panicked then ⟨panicCode, [], [], t⟩
    else
      let exitCode := if i.command.succeeds report then 0 else 1
      let document := report.document.lines ++ ['\n']
      match i.command, i.format with
      | .generate true, .listing => ⟨exitCode, report.preview, report.listing shaded, t⟩
      | .generate true, .json => ⟨exitCode, report.preview, document, t⟩
      | _, .listing => ⟨exitCode, [], report.listing shaded, t⟩
      | _, .json => ⟨exitCode, document, [], t⟩

end Invocation

namespace Program

def version : Text := "enum-props 0.1.0\n".toList

def usage : Text :=
  "usage: enum-props [-v] generate [--dry-run] [--config FILE] [--report text|json] INPUT...
       enum-props [-v] check [--config FILE] [--report text|json] INPUT...
       enum-props --version\n".toList

def run (words : List Text) (shaded : Bool) (t : FileTree) : Outcome :=
  match CommandLine.read words with
  | none => ⟨2, [], usage, t⟩
  | some .version => ⟨0, version, [], t⟩
  | some .help => ⟨0, usage, [], t⟩
  | some (.run i) => i.perform shaded t

end Program

end CaseAccessors
