/-!
# Boundaries between batches

A batch of merged scopes ends before a scope for one of six reasons.
-/

namespace FrameSchedule

/-- Which rules forbid a scope to join the batch before it. -/
structure Boundary where
  /-- The joint cost passes the threshold of the scope. -/
  cost : Bool
  /-- A list would present more swapchains than the device allows. -/
  swapchains : Bool
  /-- The scope runs on another class of queue. -/
  queue : Bool
  /-- The scope runs on another device. -/
  device : Bool
  /-- The scope waits, or the scope before it signals. -/
  sync : Bool
  /-- The scope has lists of its own. -/
  isolate : Bool
  deriving DecidableEq

/-- The scope starts a new batch. -/
def Boundary.any (b : Boundary) : Bool :=
  b.cost || b.swapchains || b.queue || b.device || b.sync || b.isolate

end FrameSchedule
