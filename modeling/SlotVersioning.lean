import SlotVersioning.Versioning.Versioner
import SlotVersioning.Proofs.Phi.Exact
import SlotVersioning.Proofs.Trace.Wiring
import SlotVersioning.Proofs.Facts.Order
import SlotVersioning.Proofs.Run.Naming
import SlotVersioning.Proofs.Pass.Crossing
import SlotVersioning.Proofs.Pass.Extending
import SlotVersioning.Proofs.Flow.References
import SlotVersioning.Proofs.Pass.Tireless
import SlotVersioning.Proofs.Convergence.Usage
import SlotVersioning.Proofs.Pass.Turn
import SlotVersioning.Proofs.Pass.Sequence
import SlotVersioning.Proofs.Phi.Sharing
import SlotVersioning.Proofs.Course.Relate
import SlotVersioning.Proofs.Pass.Retaining
import SlotVersioning.Proofs.Convergence.Shrinking
import SlotVersioning.Proofs.Flow.Cycles
import SlotVersioning.Proofs.Pass.Balanced
import SlotVersioning.Proofs.Pass.Alone
import SlotVersioning.Proofs.Convergence.History
import SlotVersioning.Proofs.Convergence.Merging
import SlotVersioning.Proofs.Convergence.Plain
import SlotVersioning.Proofs.Dominance.Correct
import SlotVersioning.Proofs.Graph.Nodes
import SlotVersioning.Proofs.Ownership.Owners
import SlotVersioning.Proofs.Ownership.Seeds
import SlotVersioning.Proofs.Ownership.Steps
import SlotVersioning.Proofs.Ownership.Visits
import SlotVersioning.Proofs.Pass.Upholding
import SlotVersioning.Proofs.Graph.Shape
import SlotVersioning.Proofs.Ownership.Runs
import SlotVersioning.Proofs.Shape.Steps
import SlotVersioning.Proofs.Graph.Keyed
import SlotVersioning.Proofs.Shape.Coverage
import SlotVersioning.Proofs.Shape.Runs
import SlotVersioning.Proofs.Course.Needs
import SlotVersioning.Proofs.Rest.Books
import SlotVersioning.Proofs.Rest.Idle
import SlotVersioning.Proofs.Rest.Visits
import SlotVersioning.Proofs.Rest.Reads
import SlotVersioning.Proofs.Rest.Passes
import SlotVersioning.Proofs.Landing.Entering
import SlotVersioning.Proofs.Trace.Outcomes
import SlotVersioning.Proofs.Slots.Runs
import SlotVersioning.Proofs.Pass.Guards
import SlotVersioning.Proofs.Pass.Forgetting
import SlotVersioning.Proofs.Pass.Verdicts
import SlotVersioning.Proofs.Fields.Runs
import SlotVersioning.Proofs.Pass.Writing
import SlotVersioning.Proofs.Ranges.Runs
import SlotVersioning.Proofs.Live.Runs
import SlotVersioning.Proofs.Checked.Runs
import SlotVersioning.Proofs.Exits.Filtering
import SlotVersioning.Proofs.Copies.Records
import SlotVersioning.Proofs.Phantoms.Runs
import SlotVersioning.Proofs.Pass.Forward
import SlotVersioning.Proofs.Dominance.Jointly
import SlotVersioning.Proofs.Run.Rewiring
import SlotVersioning.Proofs.Version.Enumeration
import SlotVersioning.Proofs.Facts.Operations
import SlotVersioning.Proofs.Graph.History
import SlotVersioning.Proofs.Run.Duality
import SlotVersioning.Proofs.Facts.Outcomes
import SlotVersioning.Proofs.Dominance.Moments
import SlotVersioning.Proofs.Statement.Preorder
import SlotVersioning.Proofs.Flow.Requests
