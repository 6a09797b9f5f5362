import CaseAccessors.Completion
import CaseAccessors.FileTree
import CaseAccessors.Settings

/-! Completing files. Each is read and completed on its own, and written if that is asked for and
changes it; a file that cannot be read, or whose text cannot, stops no other. -/
namespace CaseAccessors

inductive Mode where
  /-- Leaves the files as they are. -/
  | preview
  | write
  deriving DecidableEq, Repr

inductive Status where
  | updated
  | wouldUpdate
  | unchanged
  | failed
  deriving DecidableEq, Repr

inductive FileFault where
  | unreadable (fault : PathFault)
  | refused (refusal : Refusal)
  deriving DecidableEq, Repr

/-- None for a panic, which is not reported: it ends the run. -/
def FileFault.message? (path : Text) : FileFault → Option Text
  | .unreadable fault => some ("I/O error on ".toList ++ path ++ ": ".toList ++ fault.text)
  | .refused (.source e) => some (path ++ [':'] ++ e.message)
  | .refused (.panic _) => none

structure FileReport where
  path : Text
  status : Status
  changes : List Change
  fault : Option FileFault
  /-- The completed text of a file that it changes. -/
  output : Option Text
  deriving DecidableEq, Repr

def completeFile (o : Options) (t : FileTree) (path : Text) : Except FileFault Completion := do
  let source ← (t.readText path).mapError FileFault.unreadable
  (completeBounded o source).mapError FileFault.refused

namespace FileReport

def of (mode : Mode) (path : Text) : Except FileFault Completion → FileReport
  | .error fault => ⟨path, .failed, [], some fault, none⟩
  | .ok c =>
    if c.changed then
      let status := match mode with
        | .preview => .wouldUpdate
        | .write => .updated
      ⟨path, status, c.changes, none, some c.output⟩
    else ⟨path, .unchanged, c.changes, none, none⟩

def panicked (r : FileReport) : Bool :=
  match r.fault with
  | some (.refused (.panic _)) => true
  | _ => false

def carryOut (r : FileReport) (t : FileTree) : FileTree :=
  match r.status, r.output with
  | .updated, some s => t.write r.path s
  | _, _ => t

end FileReport

structure Report where
  files : List FileReport
  deriving DecidableEq, Repr

namespace Report

def count (status : Status) (r : Report) : Nat := r.files.countP fun f => f.status = status

def failed (r : Report) : Nat := r.count .failed

def changed (r : Report) : Nat := r.count .updated + r.count .wouldUpdate

/-- Whether completing broke off at one of the files. Such a report is shown to nobody. -/
def panicked (r : Report) : Bool := r.files.any FileReport.panicked

end Report

def completeFiles (o : Options) (mode : Mode) : FileTree → List Text → List FileReport × FileTree
  | t, [] => ([], t)
  | t, path :: paths =>
    let report := FileReport.of mode path (completeFile o t path)
    let (reports, t) := completeFiles o mode (report.carryOut t) paths
    (report :: reports, t)

def runBatch (s : Settings) (mode : Mode) (t : FileTree) (paths : List Text) : Report × FileTree :=
  let (files, t) := completeFiles s.options mode t paths
  (⟨files⟩, t)

end CaseAccessors
