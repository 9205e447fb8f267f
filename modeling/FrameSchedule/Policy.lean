/-!
# Queues, levels and policies

The closed choices of a schedule: which hardware queue a scope runs on, whether a
command list is submitted by itself or inside a render pass, and how a frame is
partitioned and recorded.
-/

namespace FrameSchedule

/-- A class of hardware queue. -/
inductive QueueClass where
  | graphics
  | compute
  | copy
  deriving DecidableEq, Inhabited

/-- A primary command list is submitted by itself; secondary ones are the parts of
a render pass. -/
inductive Level where
  | primary
  | secondary
  deriving DecidableEq, Inhabited

/-- How the command lists of a group may be recorded. -/
inductive JobPolicy where
  | parallel
  | serial
  deriving DecidableEq, Inhabited

/-- How a frame is partitioned: merging and splitting scopes for parallel
recording, or one group for each scope in lockstep. -/
inductive SchedulePolicy where
  | parallel
  | lockstep
  deriving DecidableEq, Inhabited

/-- Lockstep frames record one list after the other. -/
def SchedulePolicy.job : SchedulePolicy → JobPolicy
  | .parallel => .parallel
  | .lockstep => .serial

def QueueClass.text : QueueClass → String
  | .graphics => "Graphics"
  | .compute => "Compute"
  | .copy => "Copy"

def Level.text : Level → String
  | .primary => "Primary"
  | .secondary => "Secondary"

def SchedulePolicy.text : SchedulePolicy → String
  | .parallel => "Parallel"
  | .lockstep => "SerialLockstep"

end FrameSchedule
