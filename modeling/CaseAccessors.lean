import CaseAccessors.Accessor.Printing
import CaseAccessors.Batch
import CaseAccessors.CommandLine
import CaseAccessors.Completion
import CaseAccessors.Enumeration
import CaseAccessors.Glob.Expansion
import CaseAccessors.Inputs
import CaseAccessors.Main
import CaseAccessors.Program
import CaseAccessors.Report
import CaseAccessors.Settings
import CaseAccessors.Token.Lexing
import CaseAccessors.Proofs.Piece
import CaseAccessors.Proofs.StringLiteral
import CaseAccessors.Proofs.TokenForm
import CaseAccessors.Proofs.Boundary
import CaseAccessors.Proofs.Balance
import CaseAccessors.Proofs.BodyEnd
import CaseAccessors.Proofs.Splice
import CaseAccessors.Proofs.InsertedText
import CaseAccessors.Proofs.InsertionPlace
import CaseAccessors.Proofs.Hunk
import CaseAccessors.Proofs.InsertOnly
import CaseAccessors.Proofs.Transparency
import CaseAccessors.Proofs.Spelling
import CaseAccessors.Proofs.Inert
import CaseAccessors.Proofs.TypeExpr
import CaseAccessors.Proofs.AccessorWords
import CaseAccessors.Proofs.BodyReading
import CaseAccessors.Proofs.Agreement
import CaseAccessors.Proofs.FieldReading
import CaseAccessors.Proofs.Part
import CaseAccessors.Proofs.EnumTree
import CaseAccessors.Proofs.Filling
import CaseAccessors.Proofs.Idempotence
import CaseAccessors.Proofs.ElementReading
import CaseAccessors.Proofs.Evaluation
import CaseAccessors.Proofs.SharedBody
import CaseAccessors.Proofs.ClauseReading
import CaseAccessors.Proofs.Moved
import CaseAccessors.Proofs.AppendReading
import CaseAccessors.Proofs.AppendCompletion
import CaseAccessors.Proofs.FileWriting
import CaseAccessors.Proofs.Schedule
import CaseAccessors.Proofs.VisibleChange
import CaseAccessors.Proofs.Checking
import CaseAccessors.Proofs.Counterpart
import CaseAccessors.Proofs.ReadAlike
import CaseAccessors.Proofs.LayoutFree
import CaseAccessors.Proofs.Squeeze
import CaseAccessors.Proofs.SqueezedTrivia
import CaseAccessors.Proofs.ReaderSteps
import CaseAccessors.Proofs.TypeText
import CaseAccessors.Proofs.Tiling
import CaseAccessors.Proofs.LiteralContents
import CaseAccessors.Proofs.AddedAccessors
import CaseAccessors.Proofs.Redeclaration
import CaseAccessors.Proofs.EmittedName
import CaseAccessors.Proofs.Expression
import CaseAccessors.Proofs.DefaultValues
import CaseAccessors.Proofs.BoundNames
import CaseAccessors.Proofs.OwnBody
import CaseAccessors.Proofs.DirectoryPattern
import CaseAccessors.Proofs.InputResolution
import CaseAccessors.Proofs.PreviewHeaders
import CaseAccessors.Proofs.DelimiterMatching
import CaseAccessors.Proofs.LineEndings
import CaseAccessors.Proofs.Position
import CaseAccessors.Proofs.LineSeam
import CaseAccessors.Proofs.FieldSplitting
import CaseAccessors.Proofs.ByteCursor
import CaseAccessors.Proofs.CheckedLexing
import CaseAccessors.Proofs.CheckedMatching
import CaseAccessors.Proofs.CheckedFields
import CaseAccessors.Proofs.CheckedReading
import CaseAccessors.Proofs.BoundedCompletion
