import Whittle.Command.Run
import Whittle.Main
import Whittle.Program
import Whittle.Removal.Reduction
import Whittle.Session
import Whittle.Tree.Outline
import Whittle.Proofs.Grammar.Contract
import Whittle.Proofs.Grammar.Progress
import Whittle.Proofs.Grammar.Form
import Whittle.Proofs.Grammar.Termination
import Whittle.Proofs.Grammar.Stack
import Whittle.Proofs.Tree.Regular
import Whittle.Proofs.Tree.Leaves
import Whittle.Proofs.Declaration.Layout
import Whittle.Proofs.Declaration.Name
import Whittle.Proofs.Declaration.Inventory
import Whittle.Proofs.Removal.Range
import Whittle.Proofs.Removal.Outcome
import Whittle.Proofs.Removal.Safety
import Whittle.Proofs.Name.Visibility
import Whittle.Proofs.Name.Walk
import Whittle.Proofs.Name.Order
import Whittle.Proofs.Name.Resolution
import Whittle.Proofs.Declaration.Level
import Whittle.Proofs.Removal.Escape
import Whittle.Proofs.Tree.Bare
import Whittle.Proofs.Declaration.Bare
import Whittle.Proofs.Name.Declared
import Whittle.Proofs.Name.Bare
import Whittle.Proofs.Analysis
import Whittle.Proofs.Removal.Reduction
import Whittle.Proofs.Removal.Refusal
import Whittle.Proofs.Command.Run
import Whittle.Proofs.Command.Sources
import Whittle.Proofs.Command.Listing
import Whittle.Proofs.Token.Bytes
import Whittle.Proofs.Token.Lines
import Whittle.Proofs.Token.Alone
import Whittle.Proofs.Renaming
import Whittle.Proofs.Expression.RoundTrip
import Whittle.Proofs.Removal.Patch
import Whittle.Proofs.Removal.Extent
import Whittle.Proofs.Name.Replay
import Whittle.Proofs.Grammar.Scoping
import Whittle.Proofs.Name.Denotes
import Whittle.Proofs.Name.Sketched
import Whittle.Proofs.Report.Position
import Whittle.Proofs.Name.Exports
import Whittle.Proofs.Name.TypeName
import Whittle.Proofs.Grammar.Labels
import Whittle.Proofs.Declaration.Scan
import Whittle.Proofs.Name.Params
import Whittle.Proofs.Removal.Arrangement
import Whittle.Proofs.Removal.Label
import Whittle.Proofs.Declarator.Basic
import Whittle.Proofs.Declarator.Reading
import Whittle.Proofs.Declarator.Derivation
import Whittle.Proofs.Declarator.RoundTrip
import Whittle.Proofs.Grammar.Confined
import Whittle.Proofs.Grammar.Errors
import Whittle.Proofs.Grammar.Precedence
import Whittle.Proofs.Expression.Precedence
import Whittle.Proofs.Grammar.Abstraction
import Whittle.Proofs.Grammar.Brackets
import Whittle.Proofs.Grammar.Margins
