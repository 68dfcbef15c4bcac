import GrammarOutline.Text.Quoted
import GrammarOutline.Text.Blank
import GrammarOutline.Text.Position
import GrammarOutline.Table
import GrammarOutline.Expr.Basic
import GrammarOutline.Expr.Render
import GrammarOutline.Expr.Inline
import GrammarOutline.Fault
import GrammarOutline.Parsing.Run
import GrammarOutline.Definition.Reader
import GrammarOutline.Production.Reader
import GrammarOutline.Conversion
import GrammarOutline.Resources
import GrammarOutline.Text.Order
import GrammarOutline.CommandLine.Run
import GrammarOutline.Files.Tree
import GrammarOutline.Main
import GrammarOutline.Proofs.Conversion.Meaning
import GrammarOutline.Proofs.Conversion.Kept
import GrammarOutline.Proofs.Definition.RoundTrip
import GrammarOutline.Proofs.Expr.Words
import GrammarOutline.Proofs.Definition.Derivation
import GrammarOutline.Proofs.Definition.Acceptance
import GrammarOutline.Proofs.Definition.Nesting
import GrammarOutline.Proofs.Definition.Reprint
import GrammarOutline.Proofs.Layout
import GrammarOutline.Proofs.Production.Printing
import GrammarOutline.Proofs.Production.ActionBlocks
import GrammarOutline.Proofs.Production.Lexemes
import GrammarOutline.Proofs.Production.Reading
import GrammarOutline.Proofs.Production.Acceptance
import GrammarOutline.Proofs.Definition.Scan
import GrammarOutline.Proofs.CommonNotation
import GrammarOutline.Proofs.Conversion.Nesting
import GrammarOutline.Proofs.Conversion.Reprint
import GrammarOutline.Proofs.Parsing.Evaluation
import GrammarOutline.Proofs.Parsing.Termination
import GrammarOutline.Proofs.Parsing.Hints
import GrammarOutline.Proofs.Parsing.Recorded
import GrammarOutline.Proofs.Parsing.Abort
import GrammarOutline.Proofs.Production.Malformed
import GrammarOutline.Proofs.Conversion.Determined
import GrammarOutline.Proofs.Conversion.Dropped
import GrammarOutline.Proofs.Conversion.DeclarationOrder
import GrammarOutline.Proofs.Conversion.Cycles
import GrammarOutline.Proofs.Conversion.Again
import GrammarOutline.Proofs.Conversion.WrittenOrder
import GrammarOutline.Proofs.Conversion.Clash
import GrammarOutline.Proofs.Definition.Lossless
import GrammarOutline.Proofs.Definition.Roles
import GrammarOutline.Proofs.Parsing.Replies
import GrammarOutline.Proofs.Definition.Expected
import GrammarOutline.Proofs.Definition.FirstImpossible
import GrammarOutline.Proofs.Conversion.Dependencies
import GrammarOutline.Proofs.Graph.OfReferences
import GrammarOutline.Proofs.Conversion.Recursion
import GrammarOutline.Proofs.Parsing.Bounds
import GrammarOutline.Proofs.Production.Section
import GrammarOutline.Proofs.FaultPlaces
import GrammarOutline.Proofs.Expr.DoubleQuantification
import GrammarOutline.Proofs.Expr.Passes
import GrammarOutline.Proofs.Parsing.Furthest
import GrammarOutline.Proofs.Parsing.Associativity
import GrammarOutline.Proofs.Production.SectionAlone
import GrammarOutline.Proofs.Expr.Grouping
import GrammarOutline.Proofs.Text.Position
import GrammarOutline.Proofs.Production.Construction
import GrammarOutline.Proofs.Conversion.OnePass
