import SoundGraph.Catalog.Builtin
import SoundGraph.Compile
import SoundGraph.Describe
import SoundGraph.Settings.Folder
import SoundGraph.Proofs.Graph.Validity
import SoundGraph.Proofs.Graph.Violations
import SoundGraph.Proofs.Expansion.Outcome
import SoundGraph.Proofs.Expansion.Sound
import SoundGraph.Proofs.Expansion.Composed
import SoundGraph.Proofs.Expansion.Growth
import SoundGraph.Proofs.Expansion.Rejection
import SoundGraph.Proofs.Expansion.Faultless
import SoundGraph.Proofs.Expansion.Plain
import SoundGraph.Proofs.Expansion.Threshold
import SoundGraph.Proofs.Expansion.Broadcast
import SoundGraph.Proofs.Expansion.Emission
import SoundGraph.Proofs.Expansion.FanOut
import SoundGraph.Proofs.Expansion.Instances
import SoundGraph.Proofs.Expansion.Twins
import SoundGraph.Proofs.Expansion.Lockstep
import SoundGraph.Proofs.Expansion.Origins
import SoundGraph.Proofs.Expansion.Hollow
import SoundGraph.Proofs.Expansion.Shapes
import SoundGraph.Proofs.Expansion.Outlines
import SoundGraph.Proofs.Expansion.Sums
import SoundGraph.Proofs.Schedule.Merged
import SoundGraph.Proofs.Schedule.Linked
import SoundGraph.Proofs.Schedule.Sorted
import SoundGraph.Proofs.Schedule.Renumbered
import SoundGraph.Proofs.Schedule.Appended
import SoundGraph.Proofs.Schedule.FirstReads
import SoundGraph.Proofs.Schedule.Repeated
import SoundGraph.Proofs.Schedule.Raised
import SoundGraph.Proofs.Sketch.Calls
import SoundGraph.Proofs.Sketch.Controls
import SoundGraph.Proofs.Sketch.Handles
import SoundGraph.Proofs.Sketch.Scope
import SoundGraph.Proofs.Sketch.Continuation
import SoundGraph.Proofs.Sketch.Accepted
import SoundGraph.Proofs.Sketch.Again
import SoundGraph.Proofs.Sketch.References
import SoundGraph.Proofs.Sketch.Enlarged
import SoundGraph.Proofs.Sketch.Admission
import SoundGraph.Proofs.Sketch.Deferral
import SoundGraph.Proofs.Traversal.Composed
import SoundGraph.Proofs.Traversal.Growth
import SoundGraph.Proofs.Traversal.Dependency
import SoundGraph.Proofs.Traversal.Turns
import SoundGraph.Proofs.Traversal.Threaded
import SoundGraph.Proofs.Traversal.Halting
import SoundGraph.Proofs.Traversal.PostOrder
import SoundGraph.Proofs.Traversal.Replay
import SoundGraph.Proofs.Traversal.Origins
import SoundGraph.Proofs.Traversal.Continuation
import SoundGraph.Proofs.Traversal.Recorded
import SoundGraph.Proofs.Traversal.Settled
import SoundGraph.Proofs.Traversal.Lockstep
import SoundGraph.Proofs.Compile.Order
import SoundGraph.Proofs.Compile.Validity
import SoundGraph.Proofs.Compile.Sharing
import SoundGraph.Proofs.Compile.Discovery
import SoundGraph.Proofs.Compile.Constants
import SoundGraph.Proofs.Compile.Cycles
import SoundGraph.Proofs.Compile.Faultless
import SoundGraph.Proofs.Compile.Rates
import SoundGraph.Proofs.Compile.Controls
import SoundGraph.Proofs.Compile.Appending
import SoundGraph.Proofs.Compile.Threshold
import SoundGraph.Proofs.Compile.Loop
import SoundGraph.Proofs.Compile.Copied
import SoundGraph.Proofs.Compile.Repeated
import SoundGraph.Proofs.Compile.Raised
import SoundGraph.Proofs.Compile.Enlarged
import SoundGraph.Proofs.Wire.Cursor
import SoundGraph.Proofs.Wire.Records
import SoundGraph.Proofs.Wire.RoundTrip
import SoundGraph.Proofs.Wire.Encodable
import SoundGraph.Proofs.Wire.Checked
import SoundGraph.Proofs.Catalog.Registration
import SoundGraph.Proofs.Compile.Registered
import SoundGraph.Proofs.Wire.Extension
import SoundGraph.Proofs.Wire.Truthful
import SoundGraph.Proofs.Wire.Offences
import SoundGraph.Proofs.Wire.Allocation
import SoundGraph.Proofs.Wire.Names
import SoundGraph.Proofs.Settings.Registration
import SoundGraph.Proofs.Settings.Consistent
import SoundGraph.Proofs.Catalog.Consistent
import SoundGraph.Proofs.Settings.RoundTrip
