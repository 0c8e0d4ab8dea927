import ImageImports.Document
import ImageImports.Shapes
import ImageImports.Image.Pass
import ImageImports.Tree.Traversal
import ImageImports.Tree.Path
import ImageImports.Json.Normal
import ImageImports.Settings
import ImageImports.Cli.Run
import ImageImports.Main
import ImageImports.Proofs.Json.Lookup
import ImageImports.Proofs.Json.Record
import ImageImports.Proofs.Json.Canonical
import ImageImports.Proofs.Json.Grammar
import ImageImports.Proofs.Estree.Content
import ImageImports.Proofs.Estree.RoundTrip
import ImageImports.Proofs.Mdast.Content
import ImageImports.Proofs.Mdast.RoundTrip
import ImageImports.Proofs.Mdast.Preservation
import ImageImports.Proofs.Mdast.Grammar
import ImageImports.Proofs.Tree.Path
import ImageImports.Proofs.Tree.Traversal
import ImageImports.Proofs.Tree.Replacement
import ImageImports.Proofs.Tree.Termination
import ImageImports.Proofs.Tree.StepBound
import ImageImports.Proofs.Image.Name
import ImageImports.Proofs.Image.TwoPass
import ImageImports.Proofs.Image.Bindings
import ImageImports.Proofs.Image.WellFormed
import ImageImports.Proofs.Image.SecondPass
import ImageImports.Proofs.Image.ModuleScope
import ImageImports.Proofs.Image.Statement
import ImageImports.Proofs.Image.Url
import ImageImports.Proofs.Image.Appending
import ImageImports.Proofs.Document.Rereading
import ImageImports.Proofs.Document.Grammar
import ImageImports.Proofs.Decimal.Rounding
import ImageImports.Proofs.Estree.Preservation
import ImageImports.Proofs.Document.Nesting
import ImageImports.Proofs.Document.Obtained
import ImageImports.Proofs.Cli.Documents
import ImageImports.Proofs.Cli.Alone
import ImageImports.Proofs.Cli.SecondRun
import ImageImports.Proofs.Cli.Ending
import ImageImports.Proofs.Metadata
