import BlockEngine.Main
import BlockEngine.Config.Manifest
import BlockEngine.Run.Trial
import BlockEngine.Session.Scenario
import BlockEngine.Wire.Message
import BlockEngine.Proofs.Library.Restoration
import BlockEngine.Proofs.Library.Safety
import BlockEngine.Proofs.Library.Termination
import BlockEngine.Proofs.Machine.Scoping
import BlockEngine.Proofs.Program.Counts
import BlockEngine.Proofs.Run.Isolation
import BlockEngine.Proofs.Structured.Refinement
import BlockEngine.Proofs.Machine.Observed
import BlockEngine.Proofs.Library.Ending
import BlockEngine.Proofs.Run.Capacity
import BlockEngine.Proofs.Machine.Paced
import BlockEngine.Proofs.Machine.Occupied
import BlockEngine.Proofs.Run.Callers
import BlockEngine.Proofs.Run.Interleaving
import BlockEngine.Proofs.Double.Exact
import BlockEngine.Proofs.Wire.Documented
import BlockEngine.Proofs.Wire.Cbor.Writing
import BlockEngine.Proofs.Wire.Cbor.Reading
import BlockEngine.Proofs.Wire.Cbor.Filling
import BlockEngine.Proofs.Wire.Values
import BlockEngine.Proofs.Wire.RoundTrip
import BlockEngine.Proofs.Program.Links
import BlockEngine.Proofs.Program.Growth
import BlockEngine.Proofs.Program.Moves
import BlockEngine.Proofs.Program.Trees
import BlockEngine.Proofs.Run.Linking
import BlockEngine.Proofs.Machine.Watched
import BlockEngine.Proofs.Library.Modest
import BlockEngine.Proofs.Machine.Echo
import BlockEngine.Proofs.Library.Stopping
import BlockEngine.Proofs.Run.Cancellation
import BlockEngine.Proofs.Run.Blame
import BlockEngine.Proofs.Library.Conditional
import BlockEngine.Proofs.Library.Branching
import BlockEngine.Proofs.Library.Looping
import BlockEngine.Proofs.Library.Repetition
import BlockEngine.Proofs.Wire.Accepted
import BlockEngine.Proofs.Wire.Stability
import BlockEngine.Proofs.Machine.History
import BlockEngine.Proofs.Machine.Frames
import BlockEngine.Proofs.Library.Returning
import BlockEngine.Proofs.Library.Binding
import BlockEngine.Proofs.Registry.Procedures
import BlockEngine.Proofs.Library.Arguments
import BlockEngine.Proofs.Library.Procedures
import BlockEngine.Proofs.Program.Grammar
import BlockEngine.Proofs.Program.Splicing
import BlockEngine.Proofs.Program.Kinds
import BlockEngine.Proofs.Library.Closing
import BlockEngine.Proofs.Double.Whole
import BlockEngine.Proofs.Library.Comparison
import BlockEngine.Proofs.Machine.Jumps
import BlockEngine.Proofs.Run.Copies
import BlockEngine.Proofs.Registry.Failing
import BlockEngine.Proofs.Program.Failing
import BlockEngine.Proofs.Library.Addition
import BlockEngine.Proofs.Library.Handover
import BlockEngine.Proofs.Program.Layers
