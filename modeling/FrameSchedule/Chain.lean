import FrameSchedule.Tracker

/-!
# Chains of trackers

A chain has one tracker for each epoch of presentations, the latest last.  A new
tracker starts with everything required so far; later requirements go to the last
tracker only.  A handle remembers how many trackers there were when it was made, and
its signals reach exactly those.
-/

namespace FrameSchedule

/-- The trackers of the epochs, and the sum of all requirements. -/
structure Chain where
  trackers : List Tracker := []
  total : UInt32 := 0
  deriving DecidableEq, Inhabited

/-- The right to signal the first trackers of a chain. -/
structure Handle where
  /-- How many trackers the handle reaches. -/
  reach : Nat
  deriving DecidableEq, Inhabited

namespace Chain

/-- The chain with one more tracker, which starts with all that is required so far. -/
def grow (c : Chain) : Chain :=
  { c with trackers := c.trackers ++ [{ required := c.total }] }

/-- The handle that reaches every tracker there is. -/
def handle (c : Chain) : Handle :=
  ⟨c.trackers.length⟩

/-- The chain with another last tracker. -/
def putLast (t : Tracker) (c : Chain) : Chain :=
  { c with trackers := c.trackers.dropLast ++ [t] }

/-- The chain with another tracker at a position. -/
def putAt (index : Nat) (t : Tracker) (c : Chain) : Chain :=
  { c with trackers := c.trackers.set index t }

/-- The sum of all requirements with `count` more, if they can be counted. -/
def addTotal? (count : UInt32) (c : Chain) : Except Fault Chain :=
  (Count.add c.total count).map fun total => { c with total := total }

/-- The tracker of the present epoch. -/
def current? (c : Chain) : Option Tracker :=
  c.trackers.getLast?

/-- Open an epoch. -/
def createHandle : Step Chain Handle := do
  Step.modify grow
  return (← Step.read).handle

/-- Require further signals of the last tracker.  A chain without trackers has
nothing to require them of. -/
def require (count : UInt32) : Step Chain Unit := do
  match (← Step.read).current? with
  | none => Step.note (.noTracker count)
  | some last =>
    (Tracker.require count).zoom (fun _ => last) putLast
    Step.update (addTotal? count)

/-- Signal the first `reach` trackers of a list in order; one that faults ends it. -/
def signalFirst (count : UInt32) : Nat → List Tracker → Outcome (List Tracker) Unit
  | 0, ts => ⟨ts, [], .ok ()⟩
  | _ + 1, [] => ⟨[], [], .ok ()⟩
  | reach + 1, t :: ts =>
    let first := (Tracker.signal count).run t
    match first.result with
    | .error stop => ⟨first.state :: ts, first.journal, .error stop⟩
    | .ok () =>
      let rest := signalFirst count reach ts
      ⟨first.state :: rest.state, first.journal ++ rest.journal, rest.result⟩

/-- Signal the first `reach` trackers of the chain. -/
def signal (reach : Nat) (count : UInt32) : Step Chain Unit :=
  Step.zoom (·.trackers) (fun ts c => { c with trackers := ts }) (signalFirst count reach)

/-- Signal one tracker, and say whether it exists. -/
def signalAt (index : Nat) (count : UInt32) : Step Chain Bool := do
  match (← Step.read).trackers[index]? with
  | none => return false
  | some tracker =>
    (Tracker.signal count).zoom (fun _ => tracker) (putAt index)
    return true

end Chain

/-- Signal the trackers that the handle reaches. -/
def Handle.signal (h : Handle) (count : UInt32) : Step Chain Unit :=
  Chain.signal h.reach count

end FrameSchedule
