import ReversibleTape.Config.Codec
import ReversibleTape.Console
import ReversibleTape.Kind.Codec
import ReversibleTape.Listing
import ReversibleTape.Machine.Run
import ReversibleTape.Proofs.Acceptance
import ReversibleTape.Proofs.Alignment
import ReversibleTape.Proofs.Atomicity
import ReversibleTape.Proofs.Canonical
import ReversibleTape.Proofs.Conservation
import ReversibleTape.Proofs.OnePass
import ReversibleTape.Proofs.Outcomes
import ReversibleTape.Proofs.Passes
import ReversibleTape.Proofs.Places
import ReversibleTape.Proofs.Recurrence
import ReversibleTape.Proofs.Rendering
import ReversibleTape.Proofs.Replay
import ReversibleTape.Proofs.Reversal
import ReversibleTape.Proofs.Rewinding
import ReversibleTape.Proofs.Schedules
import ReversibleTape.Proofs.Shape
import ReversibleTape.Proofs.Transparency
import ReversibleTape.Proofs.Underflow
import ReversibleTape.Proofs.Validation
import ReversibleTape.Proofs.Visibility
import ReversibleTape.Proofs.Words
import ReversibleTape.Tape.View
