import ModelText.Location
import ModelText.Number.Double
import ModelText.Dialect
import ModelText.Source.Lines
import ModelText.Template.Unparse
import ModelText.Template.Diagnostic
import ModelText.Template.Draft
import ModelText.Template.Expression
import ModelText.Template.Statement
import ModelText.Script.File
import ModelText.Template.Document
import ModelText.Template.Reference
import ModelText.Trace.Index
import ModelText.Text.Case
import ModelText.Model.Accessor
import ModelText.Text.Bytes
import ModelText.Value.Append
import ModelText.Failure
import ModelText.Service.Basic
import ModelText.Service.Builtin
import ModelText.Service.Simple
import ModelText.Evaluation.Operator
import ModelText.Evaluation.State
import ModelText.Evaluation.Run
import ModelText.Generator.Output
import ModelText.Proofs.Trace.Coverage
import ModelText.Proofs.Trace.Narrowest
import ModelText.Proofs.Value.Assembly
import ModelText.Proofs.Generator.History
import ModelText.Proofs.Generator.Traceable
import ModelText.Proofs.Generator.ReverseIndex
import ModelText.Proofs.Generator.Attribution
import ModelText.Proofs.Generator.Linked
import ModelText.Proofs.Generator.Lookup
import ModelText.Proofs.Generator.Diagnosed
import ModelText.Proofs.Template.Mirrored
import ModelText.Proofs.Source.Walk
import ModelText.Proofs.Template.Embedded
import ModelText.Proofs.Template.Spelling
import ModelText.Proofs.Template.Enclosed
import ModelText.Proofs.Evaluation.Calls
import ModelText.Proofs.Evaluation.Reachable
import ModelText.Proofs.Evaluation.Discipline
import ModelText.Proofs.Evaluation.Congruence
import ModelText.Proofs.Evaluation.Preview
import ModelText.Proofs.Evaluation.Cancellation
import ModelText.Proofs.Template.CallTexts
import ModelText.Proofs.Template.LiteralTexts
import ModelText.Proofs.Template.Reprinted
import ModelText.Proofs.Template.Shown
import ModelText.Proofs.Template.Unparsed
import ModelText.Proofs.Template.Requoted
import ModelText.Proofs.Evaluation.Apart
import ModelText.Proofs.Template.DocumentOrder
import ModelText.Proofs.Template.Lossless
import ModelText.Proofs.Watched.Faultless
import ModelText.Proofs.Evaluation.Ending
import ModelText.Proofs.Template.Formatted
import ModelText.Proofs.Script.Properties
import ModelText.Proofs.Trace.Determined
import ModelText.Proofs.Evaluation.Concatenated
import ModelText.Proofs.Template.Reproduced
import ModelText.Proofs.Evaluation.LeftFold
import ModelText.Proofs.Trace.Committed
import ModelText.Proofs.Trace.Lookups
import ModelText.Proofs.Text.Offsets
import ModelText.Proofs.Trace.Reworded
import ModelText.Proofs.Value.CaseChanges
import ModelText.Proofs.Value.Indented
import ModelText.Proofs.Value.Issues
import ModelText.Proofs.Evaluation.Filtered
import ModelText.Proofs.Number.Comparison
import ModelText.Proofs.Value.Symmetry
import ModelText.Proofs.Evaluation.IntegerOrder
import ModelText.Proofs.Value.Appended
import ModelText.Proofs.Service.Lists
import ModelText.Proofs.Service.Minimized
import ModelText.Proofs.Service.Separated
import ModelText.Proofs.Value.Coercions
import ModelText.Proofs.Template.FrontLines
import ModelText.Proofs.Template.KeptBreaks
import ModelText.Proofs.Source.Locations
import ModelText.Proofs.Source.Masked
import ModelText.Proofs.Evaluation.Selected
import ModelText.Proofs.Model.Containment
