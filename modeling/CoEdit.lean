import CoEdit.Word
import CoEdit.Result
import CoEdit.Text.Quoted
import CoEdit.Text.Splice
import CoEdit.Json.Parser
import CoEdit.Json.Printer
import CoEdit.Json.Tagged
import CoEdit.Path.Pointer
import CoEdit.Position
import CoEdit.Reorder
import CoEdit.Element.Mint
import CoEdit.Transform.Coverage
import CoEdit.Document.History
import CoEdit.Path.Rebase
import CoEdit.Participant
import CoEdit.Record.Path
import CoEdit.Record.Reference
import CoEdit.Record.Control
import CoEdit.Proofs.Magnitude
import CoEdit.Proofs.Relocate
import CoEdit.Proofs.Confluence.Joins
import CoEdit.Proofs.Agreement
import CoEdit.Proofs.Confluence.Array
import CoEdit.Proofs.Confluence.String
import CoEdit.Proofs.Confluence.Object
import CoEdit.Proofs.Confluence.View
import CoEdit.Proofs.Document.Sound
import CoEdit.Proofs.Confluence.Shadow
import CoEdit.Proofs.Document.Commit
import CoEdit.Proofs.Document.Plan
import CoEdit.Proofs.Document.Apply
import CoEdit.Proofs.Document.Runs
import CoEdit.Proofs.Document.Trees
import CoEdit.Proofs.Document.Stored
import CoEdit.Proofs.Document.Shape
import CoEdit.Proofs.Document.Refinement
import CoEdit.Proofs.Document.Alike
import CoEdit.Proofs.Document.Undo
import CoEdit.Proofs.Document.Shows
import CoEdit.Proofs.Document.Masked
import CoEdit.Proofs.Undo
import CoEdit.Proofs.Atomicity
import CoEdit.Proofs.Convergence
import CoEdit.Proofs.Client
import CoEdit.Proofs.Reconciliation
import CoEdit.Proofs.Exchange
import CoEdit.Proofs.Sequencing
import CoEdit.Proofs.Stage
import CoEdit.Proofs.Ledger
import CoEdit.Proofs.Deployment
import CoEdit.Proofs.Calls
import CoEdit.Proofs.Grid
import CoEdit.Proofs.Numbering
import CoEdit.Proofs.Confluence.Leaving
import CoEdit.Proofs.Document.Same
import CoEdit.Proofs.Document.Crossing
import CoEdit.Proofs.Confluence.Shared
import CoEdit.Proofs.Document.Passing
import CoEdit.Proofs.Retraction
import CoEdit.Proofs.Descent
import CoEdit.Proofs.Anchors
import CoEdit.Proofs.Record.Element
import CoEdit.Proofs.Record.Operation
import CoEdit.Proofs.Document.Writable
import CoEdit.Proofs.Record.Faithful
import CoEdit.Proofs.Overflow
import CoEdit.Proofs.Merge.Object
import CoEdit.Proofs.Merge.Array
import CoEdit.Proofs.Merge.Text
import CoEdit.Proofs.Path.Rebase
import CoEdit.Proofs.Document.Accounts
import CoEdit.Proofs.Document.ReadBack
import CoEdit.Proofs.Anchors.Items
import CoEdit.Proofs.Anchors.Text
import CoEdit.Proofs.Position
import CoEdit.Proofs.Mint
import CoEdit.Proofs.Reorder.Passes
import CoEdit.Proofs.Checked.Document
