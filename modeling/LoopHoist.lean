import LoopHoist.Code.Builder
import LoopHoist.Machine.Run
import LoopHoist.Motion.Report
import LoopHoist.Motion.SettingsText
import LoopHoist.Motion.Sink
import LoopHoist.Proofs.Flow.DepthFirst
import LoopHoist.Proofs.Flow.Candidates
import LoopHoist.Proofs.Code.Coherence
import LoopHoist.Proofs.Code.Rearrangement
import LoopHoist.Proofs.Flow.DominatorTree
import LoopHoist.Proofs.Flow.NaturalLoops
import LoopHoist.Proofs.Flow.Nest
import LoopHoist.Proofs.Motion.Placement
import LoopHoist.Proofs.Machine.Effects
import LoopHoist.Proofs.Machine.Kinds
import LoopHoist.Proofs.Machine.Purity
import LoopHoist.Proofs.Machine.Soundness
import LoopHoist.Proofs.Motion.Preservation
import LoopHoist.Proofs.Flow.Containment
import LoopHoist.Proofs.Flow.Preheaders
import LoopHoist.Proofs.Memory.MayWrite
import LoopHoist.Proofs.Machine.Interference
import LoopHoist.Proofs.Motion.Layout
import LoopHoist.Proofs.Motion.Turns
import LoopHoist.Proofs.Motion.Stability
import LoopHoist.Proofs.Motion.Fixpoint
import LoopHoist.Proofs.Motion.Outcome
import LoopHoist.Proofs.Code.Renumbering
import LoopHoist.Proofs.Flow.Renumbering
import LoopHoist.Proofs.Motion.Rounds
import LoopHoist.Proofs.Motion.Census
import LoopHoist.Proofs.Motion.Permissive
import LoopHoist.Proofs.Motion.Modules
import LoopHoist.Proofs.Motion.Reordering
import LoopHoist.Proofs.Motion.Renumbering
import LoopHoist.Proofs.Memory.Confinement
import LoopHoist.Proofs.Code.History
import LoopHoist.Proofs.Code.FirstViolation
import LoopHoist.Proofs.Machine.Stays
import LoopHoist.Proofs.Motion.Steadiness
import LoopHoist.Proofs.Flow.Numbering
import LoopHoist.Proofs.Flow.Termination
import LoopHoist.Proofs.Motion.Persistence
import LoopHoist.Proofs.Motion.Readback
