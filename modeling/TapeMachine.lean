import TapeMachine.Main
import TapeMachine.Tape.Operation
import TapeMachine.Proofs.Bracket
import TapeMachine.Proofs.Link
import TapeMachine.Proofs.Block
import TapeMachine.Proofs.Meaning
import TapeMachine.Proofs.Refine
import TapeMachine.Proofs.Follow
import TapeMachine.Proofs.Machine
import TapeMachine.Proofs.Alike
import TapeMachine.Proofs.Cells
import TapeMachine.Proofs.Repeat
import TapeMachine.Proofs.Fold
import TapeMachine.Proofs.Parse
import TapeMachine.Proofs.Loop
import TapeMachine.Proofs.Replace
import TapeMachine.Proofs.Optimiser
import TapeMachine.Proofs.Termination
import TapeMachine.Proofs.Emit
import TapeMachine.Proofs.Compiled
import TapeMachine.Proofs.Size
import TapeMachine.Proofs.Session
import TapeMachine.Proofs.Unmatched
import TapeMachine.Proofs.Lockstep
import TapeMachine.Proofs.Checker
import TapeMachine.Proofs.Rejection
import TapeMachine.Proofs.Grouping
import TapeMachine.Proofs.Regroup
import TapeMachine.Proofs.Containment
import TapeMachine.Proofs.Event
import TapeMachine.Proofs.Flushing
import TapeMachine.Proofs.Fault
import TapeMachine.Proofs.Composition
import TapeMachine.Proofs.Unread
import TapeMachine.Proofs.Jumps
import TapeMachine.Proofs.Lowering
import TapeMachine.Proofs.NormalForm
import TapeMachine.Proofs.Printing
import TapeMachine.Proofs.Encoding
import TapeMachine.Proofs.Matching
import TapeMachine.Proofs.HandMade
import TapeMachine.Proofs.Words
import TapeMachine.Proofs.Progress
import TapeMachine.Proofs.Refusal
import TapeMachine.Proofs.Scan
import TapeMachine.Proofs.Title
import TapeMachine.Proofs.Calls
import TapeMachine.Proofs.Files
import TapeMachine.Proofs.Reports
import TapeMachine.Proofs.Frame
import TapeMachine.Proofs.Counting
import TapeMachine.Proofs.Measurement
