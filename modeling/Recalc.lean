import Recalc.Graph.Command
import Recalc.Host.Program
import Recalc.Host.Sum
import Recalc.Sheet.Format
import Recalc.Sheet.Listeners
import Recalc.Sheet.Operation
import Recalc.Signal.Script
import Recalc.Proofs.Graph.Rollback
import Recalc.Proofs.Sheet.Atomicity
import Recalc.Proofs.Digraph.Order
import Recalc.Proofs.Sheet.Convergence
import Recalc.Proofs.Graph.Session
import Recalc.Proofs.Sheet.Upkeep
import Recalc.Proofs.Sheet.Transcript
import Recalc.Proofs.Sheet.Flags
import Recalc.Proofs.Sheet.Resume
import Recalc.Proofs.Graph.Additions
import Recalc.Proofs.Sheet.Mirror
import Recalc.Proofs.Sheet.Mirrored
import Recalc.Proofs.Graph.Signals
import Recalc.Proofs.Sheet.EditNews
import Recalc.Proofs.Sheet.History
import Recalc.Proofs.Sheet.Repeats
import Recalc.Proofs.Graph.CycleSearch
import Recalc.Proofs.Signal.Handles
import Recalc.Proofs.Sheet.Vouched
import Recalc.Proofs.Sheet.Blame
import Recalc.Proofs.Sheet.Sweep
import Recalc.Proofs.Graph.Invalidation
import Recalc.Proofs.Graph.Stamping
import Recalc.Proofs.Sheet.Cancellation
import Recalc.Proofs.Sheet.Footprint
import Recalc.Proofs.Graph.SignalCounts
