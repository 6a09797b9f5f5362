import CaseAccessors.Batch
import CaseAccessors.Json.Document

/-! The report of a run as a document, and for people to read: a line for each file that is not left
unchanged, the accessors it lacked below it, and the numbers at the end. -/
namespace CaseAccessors

open Json (Document)

def Status.code : Status → Text
  | .updated => "updated".toList
  | .wouldUpdate => "would_update".toList
  | .unchanged => "unchanged".toList
  | .failed => "failed".toList

namespace Change

def document (c : Change) : Document :=
  .record [("name".toList, .text c.name), ("added".toList, .list (c.added.map .text)),
    ("skipped".toList, .list (c.kept.map .text))]

end Change

namespace FileReport

def error (r : FileReport) : Option Text := r.fault.bind (·.message? r.path)

/-- A file without enums has no declarations, and one without a fault no error. -/
def document (r : FileReport) : Document :=
  let declarations := if r.changes.isEmpty then []
    else [("declarations".toList, Document.list (r.changes.map Change.document))]
  let error := match r.error with
    | some message => [("error".toList, Document.text message)]
    | none => []
  .record ([("path".toList, .text r.path), ("status".toList, .text r.status.code)] ++
    declarations ++ error)

end FileReport

namespace Report

def document (r : Report) : Document :=
  .record [("files".toList, .list (r.files.map FileReport.document))]

end Report

inductive Shade where
  | green
  | yellow
  | boldRed
  | bold
  | dim
  deriving DecidableEq, Repr

namespace Shade

def code : Shade → Text
  | green => "32".toList
  | yellow => "33".toList
  | boldRed => "1;31".toList
  | bold => "1".toList
  | dim => "2".toList

def begin (shade : Shade) : Text := ['\x1b', '['] ++ shade.code ++ ['m']

def ending : Text := "\x1b[0m".toList

/-- A text that begins its shade again wherever it ends one itself. -/
def resume (shade : Shade) : Text → Text
  | '\x1b' :: '[' :: '0' :: 'm' :: s => ending ++ shade.begin ++ resume shade s
  | c :: s => c :: resume shade s
  | [] => []

def paint (shade : Shade) (shaded : Bool) (s : Text) : Text :=
  if shaded then shade.begin ++ shade.resume s ++ ending else s

end Shade

namespace Status

def heading? (shaded : Bool) : Status → Option Text
  | .updated => some (Shade.green.paint shaded "updated".toList)
  | .wouldUpdate => some (Shade.yellow.paint shaded "would update".toList)
  | .unchanged => none
  | .failed => some (Shade.boldRed.paint shaded "error".toList)

end Status

namespace Change

def listing (shaded : Bool) (c : Change) : Text :=
  if c.added.isEmpty then []
  else
    let kept := if c.kept.isEmpty then []
      else ' ' :: Shade.dim.paint shaded
        ("(kept: ".toList ++ Text.joinWith ", ".toList c.kept ++ [')'])
    "  ".toList ++ Shade.bold.paint shaded c.name ++ ": ".toList ++
      Text.joinWith ", ".toList (c.added.map ('+' :: ·)) ++ kept ++ ['\n']

end Change

namespace FileReport

def listing (shaded : Bool) (r : FileReport) : Text :=
  match r.status.heading? shaded with
  | none => []
  | some heading =>
    let error := match r.error with
      | some message => "  ".toList ++ message ++ ['\n']
      | none => []
    heading ++ [' '] ++ r.path ++ ['\n'] ++ error ++ r.changes.flatMap (Change.listing shaded)

end FileReport

namespace Report

def summary (r : Report) : Text :=
  Nat.toDigits 10 r.files.length ++ " file(s) scanned, ".toList ++ Nat.toDigits 10 r.changed ++
    " with new accessors, ".toList ++ Nat.toDigits 10 r.failed ++ " failed".toList

def listing (shaded : Bool) (r : Report) : Text :=
  r.files.flatMap (FileReport.listing shaded) ++ Shade.dim.paint shaded r.summary ++ ['\n']

end Report

end CaseAccessors
