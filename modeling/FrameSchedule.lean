import FrameSchedule.Backend.Faulty
import FrameSchedule.Backend.Memory
import FrameSchedule.Backend.Traced
import FrameSchedule.Chain.Waiting
import FrameSchedule.Config.Format
import FrameSchedule.Proofs.Alarms
import FrameSchedule.Proofs.AnyOrder
import FrameSchedule.Proofs.Batches
import FrameSchedule.Proofs.Bindings
import FrameSchedule.Proofs.Completeness
import FrameSchedule.Proofs.Diagnosis
import FrameSchedule.Proofs.Interleavings
import FrameSchedule.Proofs.Layouts
import FrameSchedule.Proofs.Leftovers
import FrameSchedule.Proofs.Lifecycle
import FrameSchedule.Proofs.Numbering
import FrameSchedule.Proofs.Overflows
import FrameSchedule.Proofs.Partition
import FrameSchedule.Proofs.Primitives
import FrameSchedule.Proofs.Releases
import FrameSchedule.Proofs.RenderPasses
import FrameSchedule.Proofs.Repetitions
import FrameSchedule.Proofs.Requirements
import FrameSchedule.Proofs.Slots
import FrameSchedule.Proofs.Spellings
import FrameSchedule.Proofs.Splits
import FrameSchedule.Proofs.Stability
import FrameSchedule.Proofs.Stamps
import FrameSchedule.Proofs.Submissions
import FrameSchedule.Proofs.Tallies
import FrameSchedule.Proofs.Transcripts
import FrameSchedule.Proofs.Wakeups
import FrameSchedule.Session
import FrameSchedule.Tracker.Waiting
