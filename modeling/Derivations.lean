import Derivations.Analysis.Basic
import Derivations.Analysis.BitRelation
import Derivations.Analysis.Settled
import Derivations.Chart.Item
import Derivations.Chart.Parser
import Derivations.Chart.StateSet
import Derivations.Collection.Chain
import Derivations.Collection.OrderedSet
import Derivations.Collection.Queue
import Derivations.Collection.Rope
import Derivations.Collection.Supply
import Derivations.CommandLine.Flags
import Derivations.CommandLine.Invocation
import Derivations.CommandLine.Run
import Derivations.CommandLine.Suggestion
import Derivations.Console.Outline
import Derivations.Console.Style
import Derivations.Console.Table
import Derivations.Digest.Fnv
import Derivations.Digest.Md5
import Derivations.Drawing.Layout
import Derivations.Drawing.Svg
import Derivations.Files.Directory
import Derivations.Files.Path
import Derivations.Grammar.Basic
import Derivations.Grammar.Derivation
import Derivations.Grammar.File.Line
import Derivations.Grammar.File.Load
import Derivations.Grammar.File.Token
import Derivations.Grammar.Fingerprint
import Derivations.Grammar.Listing
import Derivations.Grammar.Workbench
import Derivations.Log
import Derivations.Main
import Derivations.Output.Sink
import Derivations.Output.Stage
import Derivations.Proofs.Analysis.Reachable
import Derivations.Proofs.Analysis.Settled
import Derivations.Proofs.Chart.Deduction
import Derivations.Proofs.Chart.Expansion
import Derivations.Proofs.Chart.Filling
import Derivations.Proofs.Chart.Parse
import Derivations.Proofs.Chart.Worklist
import Derivations.Proofs.Collection.OrderedSet
import Derivations.Proofs.Equality
import Derivations.Proofs.Grammar.Derivation
import Derivations.Report.Basic
import Derivations.Report.Page
import Derivations.Session.Basic
import Derivations.Session.Command
import Derivations.Session.Typed
import Derivations.Settings
import Derivations.Span
import Derivations.Symbol
import Derivations.Text.Basic
import Derivations.Text.Blank
import Derivations.Text.Cut
import Derivations.Text.Escape
import Derivations.Text.Lower
import Derivations.Text.Numeral
import Derivations.Text.Printable
import Derivations.Text.Quoted
import Derivations.Text.Utf8
import Derivations.Tree.Basic
import Derivations.Tree.Measured
import Derivations.Tree.Order
import Derivations.Tree.Walk
import Derivations.Tree.Yield
import Derivations.Proofs.Analysis.Ambiguity
import Derivations.Proofs.Chart.Context
import Derivations.Proofs.Chart.Limit
import Derivations.Proofs.Chart.Turn
import Derivations.Proofs.Chart.RaisedLimit
import Derivations.Proofs.Chart.Safety
import Derivations.Proofs.Analysis.Pumping
import Derivations.Proofs.Analysis.Marking
import Derivations.Proofs.Analysis.Replacement
import Derivations.Proofs.Grammar.File.Tokens
import Derivations.Proofs.Grammar.File.Format
import Derivations.Proofs.Session.History
import Derivations.Proofs.Session.Cache
import Derivations.Proofs.Analysis.Search
import Derivations.Proofs.Chart.Comparison
import Derivations.Proofs.Collection.Iteration
import Derivations.Proofs.Grammar.Fingerprint.Separation
import Derivations.Proofs.Tree.Mirror
import Derivations.Proofs.Drawing.Arrangement
import Derivations.Proofs.Grammar.Commits
import Derivations.Proofs.Text.Characters
import Derivations.Proofs.Tree.Attributes
import Derivations.Proofs.Tree.Bracketed
import Derivations.Proofs.Tree.Presentation
import Derivations.Proofs.Grammar.File.Scanning
import Derivations.Proofs.Output.Delivery
import Derivations.Proofs.Text.Words
