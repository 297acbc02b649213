import FlatGrammar.Text.Blank
import FlatGrammar.Text.Digit
import FlatGrammar.Text.Printable
import FlatGrammar.Text.Uppercase
import FlatGrammar.Text.Word
import FlatGrammar.Text.Quoted
import FlatGrammar.Style
import FlatGrammar.Fault
import FlatGrammar.Token
import FlatGrammar.Expr.Edit
import FlatGrammar.Expr.Outline
import FlatGrammar.Expr.Trace
import FlatGrammar.Source.Span
import FlatGrammar.Rule.Name
import FlatGrammar.Rule.Order
import FlatGrammar.Grammar.Load
import FlatGrammar.Grammar.Merge
import FlatGrammar.Dump.Listing
import FlatGrammar.Dump.Turtle
import FlatGrammar.Workspace.Request
import FlatGrammar.Command.Directory
import FlatGrammar.Main
import FlatGrammar.Proofs.Grammar.FlatLanguage
import FlatGrammar.Proofs.Expr.GroupEnds
import FlatGrammar.Proofs.Grammar.LeastMerging
import FlatGrammar.Proofs.Grammar.Loading
import FlatGrammar.Proofs.Grammar.FlatNames
import FlatGrammar.Proofs.Grammar.PartIds
import FlatGrammar.Proofs.Grammar.PureRules
import FlatGrammar.Proofs.Grammar.MergedLanguage
import FlatGrammar.Proofs.Grammar.RoundTrip
import FlatGrammar.Proofs.Grammar.Superseded
import FlatGrammar.Proofs.Grammar.FlatIds
import FlatGrammar.Proofs.Grammar.ClosedRules
import FlatGrammar.Proofs.Grammar.SourceRules
import FlatGrammar.Proofs.Grammar.RuleOrder
import FlatGrammar.Proofs.Expr.Rendering
import FlatGrammar.Proofs.Source.Comments
import FlatGrammar.Proofs.Grammar.QuotedText
import FlatGrammar.Proofs.Grammar.FlatSize
import FlatGrammar.Proofs.Grammar.MergePasses
import FlatGrammar.Proofs.Grammar.FirstFault
import FlatGrammar.Proofs.Dump.SExprReader
import FlatGrammar.Proofs.Grammar.FlatOrder
import FlatGrammar.Proofs.Grammar.SpanForms
import FlatGrammar.Proofs.Dump.TurtleComment
import FlatGrammar.Proofs.Dump.TurtleReading
import FlatGrammar.Proofs.Expr.Tracing
import FlatGrammar.Proofs.Expr.InPlace
import FlatGrammar.Proofs.Expr.Progress
import FlatGrammar.Proofs.Expr.Walking
