import DeclSchema.Main
import DeclSchema.Proofs.Extraction.Accounting
import DeclSchema.Proofs.Parser.Attribution
import DeclSchema.Proofs.Parser.Sealing
import DeclSchema.Proofs.Extraction.Concatenation
import DeclSchema.Proofs.Number.Whole
import DeclSchema.Proofs.Token.Quoting
import DeclSchema.Proofs.Token.Spelling
import DeclSchema.Proofs.Extraction.Invariants
import DeclSchema.Proofs.Extraction.Leaves
import DeclSchema.Proofs.Phrase.Documents
import DeclSchema.Proofs.Extraction.Printing
import DeclSchema.Proofs.Model.Json
import DeclSchema.Proofs.Schema.Composition
import DeclSchema.Proofs.Schema.Language
import DeclSchema.Proofs.Schema.Repetition
import DeclSchema.Proofs.Schema.Legality
import DeclSchema.Proofs.Parser.Rounds
import DeclSchema.Proofs.Parser.Height
import DeclSchema.Proofs.Extraction.Agreement
import DeclSchema.Proofs.Checked.Pipeline
import DeclSchema.Proofs.Token.Newlines
import DeclSchema.Proofs.Parser.Resuming
import DeclSchema.Proofs.Extraction.Decorated
import DeclSchema.Proofs.Parser.StayingStatements
import DeclSchema.Proofs.Token.Malformed
import DeclSchema.Proofs.Token.Maximal
import DeclSchema.Proofs.Parser.CoveringStatements
import DeclSchema.Proofs.Text.Documentation
import DeclSchema.Proofs.Parser.Brackets
import DeclSchema.Proofs.Parser.Walking
import DeclSchema.Proofs.Parser.Abandoning
import DeclSchema.Proofs.Parser.Documenting
import DeclSchema.Proofs.Parser.Namespaces
import DeclSchema.Proofs.Extraction.Options
import DeclSchema.Proofs.Schema.Decimals
import DeclSchema.Proofs.Extraction.Notations
import DeclSchema.Proofs.Extraction.Classes
import DeclSchema.Proofs.Parser.Groups
import DeclSchema.Proofs.Parser.Depth
import DeclSchema.Proofs.Xml.Lines
import DeclSchema.Proofs.Schema.Alternatives
import DeclSchema.Proofs.Extraction.SourceOrder
