import FrameSchedule.Chain

/-!
# Waiting for the trackers of a chain

A `WaitHall` is a chain with the waiters at its trackers.  After each step on the
chain, those whose tracker is satisfied leave.
-/

namespace FrameSchedule

/-- A chain with the waiters at its trackers. -/
structure WaitHall where
  chain : Chain := {}
  /-- The position of the tracker of each waiter that has not left. -/
  waiting : List Nat := []
  released : Nat := 0
  deriving DecidableEq, Inhabited

namespace WaitHall

/-- The tracker at this position is satisfied. -/
def ready (h : WaitHall) (index : Nat) : Bool :=
  h.chain.trackers[index]?.any Tracker.satisfied

/-- Those whose tracker is satisfied leave. -/
def settle (h : WaitHall) : WaitHall :=
  { h with
    waiting := h.waiting.filter fun i => !h.ready i
    released := h.released + h.waiting.countP h.ready }

/-- A step on the chain, after which waiters may leave. -/
def onChain {α : Type} (x : Step Chain α) : Step WaitHall α :=
  x.zoom (·.chain) fun c h => settle { h with chain := c }

/-- A waiter comes for a tracker, if there is one at this position. -/
def arrive (index : Nat) : Step WaitHall Bool := do
  let h ← Step.read
  if index < h.chain.trackers.length then
    Step.write (settle { h with waiting := h.waiting ++ [index] })
    return true
  else
    return false

end WaitHall

end FrameSchedule
