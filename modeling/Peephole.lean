import Peephole.Arena.Edit
import Peephole.Circuit.Snapshot
import Peephole.Command.Execute
import Peephole.Json.Reader
import Peephole.Main
import Peephole.Netlist.Serial
import Peephole.Proofs.Circuit.Links
import Peephole.Proofs.Traversal
import Peephole.Proofs.Circuit.Linear
import Peephole.Proofs.Circuit.Meaning
import Peephole.Proofs.Circuit.Block
import Peephole.Proofs.Circuit.Neighbours
import Peephole.Proofs.Circuit.Rewrite
import Peephole.Proofs.Gate
import Peephole.Proofs.Cancel.Slide
import Peephole.Proofs.Cancel.Rule
import Peephole.Proofs.Run
import Peephole.Proofs.Cancel.Sweep
import Peephole.Proofs.Hadamard.Step
import Peephole.Proofs.Hadamard.Reduction
import Peephole.Proofs.Circuit.Inspection
import Peephole.Proofs.Pipeline
import Peephole.Proofs.Circuit.Renaming
import Peephole.Proofs.Circuit.Snapshot
import Peephole.Proofs.Circuit.Integrity
import Peephole.Proofs.Cancel.Search
import Peephole.Proofs.Cancel.Merge
import Peephole.Proofs.Cancel.Tracking
import Peephole.Proofs.Circuit.Depth
import Peephole.Proofs.Circuit.Embedding
import Peephole.Proofs.Shrinking
import Peephole.Proofs.Circuit.Wires
import Peephole.Proofs.Barriers
import Peephole.Proofs.Netlist.RoundTrip
import Peephole.Proofs.Netlist.NormalForm
import Peephole.Proofs.Circuit.Rewiring
import Peephole.Proofs.Rewiring
import Peephole.Proofs.Accounting
import Peephole.Proofs.Netlist.Grammar
import Peephole.Proofs.Circuit.Commutation
import Peephole.Proofs.Circuit.Removal
import Peephole.Proofs.Circuit.Order
import Peephole.Proofs.Hadamard.Queue
import Peephole.Proofs.Hadamard.Fixpoint
import Peephole.Proofs.Cancel.Termination
import Peephole.Proofs.Circuit.Swaps
import Peephole.Proofs.Circuit.Reordering
import Peephole.Proofs.Circuit.Detour
import Peephole.Proofs.Netlist.Serial
import Peephole.Proofs.Dict
import Peephole.Proofs.Arena.Represents
import Peephole.Proofs.Arena.Links
import Peephole.Proofs.Arena.Simulation
import Peephole.Proofs.Arena.Build
import Peephole.Proofs.Arena.History
import Peephole.Proofs.Cancel.Exact
