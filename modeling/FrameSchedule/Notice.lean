import FrameSchedule.CommandList
import FrameSchedule.Plan.Boundary

/-!
# Notices

The journal of a call is a list of notices in the order they were made.  A notice is
a fact about the schedule; its severity and its wording are functions of it.
-/

namespace FrameSchedule

/-- The version that a scheduler announces. -/
def version : String :=
  "0.1.0"

/-- How urgent a notice is. -/
inductive Severity where
  | trace
  | debug
  | info
  | warn
  deriving DecidableEq, Inhabited

def Severity.text : Severity → String
  | .trace => "TRACE"
  | .debug => "DEBUG"
  | .info => "INFO"
  | .warn => "WARN"

/-- One entry of a journal. -/
inductive Notice where
  | initialized (backend : String) (devices : Nat) (policy : SchedulePolicy)
  | partitioned (scopes groups handlers presentations : Nat)
  | unreachable (tracker : Nat) (reachable required : UInt32)
  | flushing (scope : String) (boundary : Boundary)
  | merging (scope : String) (cost threshold : UInt32)
  | isolating (scope : String) (lists cost threshold : UInt32)
  | presenting (swapchain : SwapchainId) (scope : String) (required : UInt32)
  | recording (lists : Nat)
  | submitting (kind : Level) (group : GroupId) (groups lists : Nat)
  | unsubmitted (handlers : Nat)
  | overSignalled (signalled required : UInt32)
  | noTracker (count : UInt32)
  | listBegun (spec : ListSpec)
  | scopeRecorded (scope : String) (items : ItemRange) (label : String)
  | batchKept (group : GroupId) (queue : QueueClass) (device : DeviceIndex) (lists : Nat)
    (layout : Layout)
  deriving DecidableEq

def Notice.severity : Notice → Severity
  | .initialized .. => .info
  | .partitioned .. => .debug
  | .unreachable .. | .unsubmitted .. | .overSignalled .. | .noTracker .. => .warn
  | .flushing .. | .merging .. | .isolating .. | .presenting .. | .recording ..
  | .submitting .. | .listBegun .. | .scopeRecorded .. | .batchKept .. => .trace

/-- The reasons of a boundary, each with its truth value. -/
def Boundary.text (b : Boundary) : String :=
  "cost: " ++ toString b.cost ++ ", swapchains: " ++ toString b.swapchains ++
    ", queue: " ++ toString b.queue ++ ", device: " ++ toString b.device ++
    ", sync: " ++ toString b.sync ++ ", isolate: " ++ toString b.isolate

def Notice.message : Notice → String
  | .initialized backend devices policy =>
    "RedLilium RHI v" ++ version ++ " frame graph executer initialized on " ++ backend ++ " (" ++
      toString devices ++ " devices, " ++ policy.text ++ " scheduling)"
  | .partitioned scopes groups handlers presentations =>
    "Partitioned " ++ toString scopes ++ " scopes into " ++ toString groups ++
      " execute groups and " ++ toString handlers ++ " handlers (" ++
      toString presentations ++ " swapchain trackers)"
  | .unreachable tracker reachable required =>
    "Semaphore tracker " ++ toString tracker ++ " requires " ++ toString required.toNat ++
      " signals but at most " ++ toString reachable.toNat ++
      " can reach it; its presentation will never be released"
  | .flushing scope boundary =>
    "Flushing before '" ++ scope ++ "' (" ++ boundary.text ++ ")"
  | .merging scope cost threshold =>
    "Merging '" ++ scope ++ "' (cost " ++ toString cost.toNat ++ " of " ++
      toString threshold.toNat ++ ")"
  | .isolating scope lists cost threshold =>
    "Isolating '" ++ scope ++ "' into " ++ toString lists.toNat ++
      " secondary command lists (cost " ++ toString cost.toNat ++ " of " ++
      toString threshold.toNat ++ ")"
  | .presenting swapchain scope required =>
    "Swapchain " ++ swapchain.text ++ " presented by '" ++ scope ++ "' waits for " ++
      toString required.toNat ++ " semaphores"
  | .recording lists => "Recording " ++ toString lists ++ " command lists on 1 threads"
  | .submitting kind group groups lists =>
    "Submitting " ++ kind.text ++ " handler for " ++ group.text ++ " (" ++
      toString groups ++ " groups, " ++ toString lists ++ " command lists)"
  | .unsubmitted handlers =>
    "Ending frame with " ++ toString handlers ++ " handlers that never submitted"
  | .overSignalled signalled required =>
    "Semaphore tracker over-signalled (" ++ toString signalled.toNat ++ " of " ++
      toString required.toNat ++ " required)"
  | .noTracker count =>
    "Adding " ++ toString count.toNat ++ " required semaphores to an empty tracker chain"
  | .listBegun spec =>
    "DummyBackend: begin " ++ spec.level.text ++ " command list " ++ toString spec.index ++
      " of group " ++ toString spec.group ++ " (" ++ spec.label ++ ")"
  | .scopeRecorded scope items label =>
    "DummyBackend: record '" ++ scope ++ "' items " ++ items.text ++ " into '" ++ label ++ "'"
  | .batchKept group queue device lists layout =>
    "DummyBackend: submit " ++ group.text ++ " on " ++ queue.text ++ " queue of device " ++
      device.text ++ ": " ++ toString lists ++ " command lists, " ++ layout.text

/-- A notice as a line: its severity, a colon and its wording. -/
def Notice.line (n : Notice) : String :=
  n.severity.text ++ ": " ++ n.message

/-- The notices of a journal that a reader of severity `trace`, or of warnings only,
sees. -/
def Notice.lines (trace : Bool) (journal : List Notice) : List String :=
  (journal.filter fun n => trace || n.severity = .warn).map Notice.line

end FrameSchedule
