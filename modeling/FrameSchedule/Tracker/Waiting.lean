import FrameSchedule.Tracker

/-!
# Waiting for a tracker

A waiter looks at the tracker and leaves if it is satisfied, else it parks.  A signal
that turns the tracker from unsatisfied to satisfied decides to wake the waiters; the
notification itself is a later step, so that nobody wakes into a held lock, and a
woken waiter looks again before it leaves.  The moves of a `WaitRoom` are the atomic
steps of this protocol, and waiters are told apart by nothing but where they are.

`WaitRoom.settle` is a schedule of the moves: all notifications, then all second
looks.
-/

namespace FrameSchedule

/-- A tracker with those who wait for it. -/
structure WaitRoom where
  tracker : Tracker
  /-- Waiters asleep. -/
  parked : Nat := 0
  /-- Waiters that were notified and have not looked again. -/
  woken : Nat := 0
  /-- Notifications that a signal has decided on and not sent. -/
  pending : Nat := 0
  /-- Waiters that have left. -/
  released : Nat := 0
  deriving DecidableEq, Inhabited

namespace WaitRoom

/-- The atomic steps of signallers and waiters. -/
inductive Move where
  | require (count : UInt32)
  /-- Count signals, and decide whether to notify. -/
  | signal (count : UInt32)
  /-- Send a notification that was decided on. -/
  | notify
  /-- A new waiter looks. -/
  | arrive
  /-- A woken waiter looks again. -/
  | recheck
  deriving DecidableEq

/-- A waiter that looks leaves, or parks. -/
def look (r : WaitRoom) : WaitRoom :=
  if r.tracker.satisfied then { r with released := r.released + 1 }
  else { r with parked := r.parked + 1 }

/-- A notification wakes all who are asleep. -/
def sendNotice (r : WaitRoom) : WaitRoom :=
  if r.pending = 0 then r
  else { r with pending := r.pending - 1, woken := r.woken + r.parked, parked := 0 }

/-- One woken waiter looks again. -/
def lookAgain (r : WaitRoom) : WaitRoom :=
  if r.woken = 0 then r
  else look { r with woken := r.woken - 1 }

/-- A step on the tracker; waiters are notified if it has become satisfied. -/
def onTracker (x : Step Tracker Unit) : Step WaitRoom Unit :=
  x.zoom (·.tracker) fun t r =>
    { r with
      tracker := t
      pending := if !r.tracker.satisfied && t.satisfied then r.pending + 1 else r.pending }

def move : Move → Step WaitRoom Unit
  | .require count => (Tracker.require count).zoom (·.tracker) fun t r => { r with tracker := t }
  | .signal count => onTracker (Tracker.signal count)
  | .notify => Step.modify sendNotice
  | .arrive => Step.modify look
  | .recheck => Step.modify lookAgain

/-- Send what is pending, then let all woken waiters look again. -/
def settle (r : WaitRoom) : WaitRoom :=
  let sent := Nat.repeat sendNotice r.pending r
  Nat.repeat lookAgain sent.woken sent

/-- A move, and what it leads to before anybody else moves. -/
def turn (m : Move) : Step WaitRoom Unit := fun r =>
  let o := (move m).run r
  { o with state := settle o.state }

end WaitRoom

end FrameSchedule
