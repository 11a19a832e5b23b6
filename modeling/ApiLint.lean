import ApiLint.Main
import ApiLint.Proofs.Walk.Descent
import ApiLint.Proofs.Walk.Members
import ApiLint.Proofs.Walk.Entering
import ApiLint.Proofs.Walk.PlainWalk
import ApiLint.Proofs.Walk.Separation
import ApiLint.Proofs.Dialects.Grammars
import ApiLint.Proofs.Walk.Fidelity
import ApiLint.Proofs.Dialects.Walks
import ApiLint.Proofs.Walk.Machine
import ApiLint.Proofs.Walk.Run
import ApiLint.Proofs.Document.Distinct
import ApiLint.Proofs.Document.Ignored
import ApiLint.Proofs.Lint.Blocks
import ApiLint.Proofs.Walk.Without
import ApiLint.Proofs.Dialects.Ignored
import ApiLint.Proofs.Rule.Places
import ApiLint.Proofs.Lint.Places
import ApiLint.Proofs.Rule.Isolation
import ApiLint.Proofs.Lint.Isolation
import ApiLint.Proofs.Config.Reading
import ApiLint.Proofs.Config.Flattening
import ApiLint.Proofs.Dialects.Order
import ApiLint.Proofs.Config.Names
import ApiLint.Proofs.Lint.Uniqueness
import ApiLint.Proofs.Document.Reordering
import ApiLint.Proofs.Rule.Reordering
import ApiLint.Proofs.Walk.Reordering
import ApiLint.Proofs.Dialects.Reordering
import ApiLint.Proofs.Lint.Reordering
import ApiLint.Proofs.Config.Cycles
import ApiLint.Proofs.Walk.References
import ApiLint.Proofs.Dialects.References
import ApiLint.Proofs.Document.Pruning
import ApiLint.Proofs.Lint.Pruning
import ApiLint.Proofs.Document.Extending
import ApiLint.Proofs.Walk.Extending
import ApiLint.Proofs.Walk.ExtendedWalk
import ApiLint.Proofs.Dialects.Extending
import ApiLint.Proofs.Walk.Failures
import ApiLint.Proofs.Lint.Failures
import ApiLint.Proofs.Config.Composition
import ApiLint.Proofs.Text.Replacing
import ApiLint.Proofs.Document.Resolution
import ApiLint.Proofs.Finding.Rendering
import ApiLint.Proofs.Rule.Messages
import ApiLint.Proofs.Document.Filtering
import ApiLint.Proofs.Walk.Operations
import ApiLint.Proofs.Dialects.Operations
import ApiLint.Proofs.Lint.Operations
import ApiLint.Proofs.Walk.Mirroring
import ApiLint.Proofs.Dialects.Schemas
import ApiLint.Proofs.Lint.Defaults
import ApiLint.Proofs.Config.Overlaying
import ApiLint.Proofs.Config.Encoding
import ApiLint.Proofs.Rule.Casings
import ApiLint.Proofs.Json.Escaping
import ApiLint.Proofs.Json.Printing
import ApiLint.Proofs.Finding.Encoding
import ApiLint.Proofs.Rule.Data
import ApiLint.Proofs.CommandLine.Lines
import ApiLint.Proofs.Lint.Validation
import ApiLint.Proofs.Files.Following
import ApiLint.Proofs.Config.Discovery
import ApiLint.Proofs.Config.Histories
