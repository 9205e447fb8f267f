import FrameSchedule.Scheduler

/-!
# Sessions

A tracker that somebody has asked for outlives its frame.  A session is a scheduler
with the chains of the frames it has closed and the list of the trackers asked for,
each named by its frame and its position in the chain of that frame.
-/

namespace FrameSchedule

variable {σ Λ α : Type}

/-- A tracker by the number of its frame and its position there. -/
structure TrackerRef where
  frame : Nat
  position : Nat
  deriving DecidableEq

/-- A scheduler with the trackers that outlive its frames. -/
structure Session (σ Λ : Type) where
  scheduler : Scheduler σ Λ
  /-- The chains of the frames that have been closed, as they were left. -/
  closed : List Chain := []
  kept : List TrackerRef := []

namespace Session

def onScheduler (x : Step (Scheduler σ Λ) α) : Step (Session σ Λ) α :=
  x.zoom (·.scheduler) fun s t => { t with scheduler := s }

/-- Plan a frame of these scopes and open it; the answer is its plan. -/
def start (scopes : List Scope) : Step (Session σ Λ) Plan := do
  let (_, graph) ← Step.fresh {} (Graph.addAll scopes)
  onScheduler (Scheduler.start graph)

/-- Close the frame and keep its chain. -/
def finish : Step (Session σ Λ) Unit := do
  let chain := (← Step.read).scheduler.chain?.getD {}
  onScheduler Scheduler.finish
  Step.modify fun s => { s with closed := s.closed ++ [chain] }

/-- Close the frame and open another one with the same scopes.  The answer is `none`
without a frame; the second frame is tried whatever came of closing the first. -/
def restart : Step (Session σ Λ) (Option (Except Stop Unit × Except Stop Plan)) := do
  match (← Step.read).scheduler.frame? with
  | none => return none
  | some frame =>
    let closing ← Step.attempt finish
    let opening ← Step.attempt (onScheduler (Scheduler.start frame.graph))
    return some (closing, opening)

/-- The chain of a frame: the open one comes after those that are closed. -/
def chainOf? (s : Session σ Λ) (frame : Nat) : Option Chain :=
  if frame = s.closed.length then s.scheduler.chain? else s.closed[frame]?

/-- The present state of a tracker. -/
def tracker? (s : Session σ Λ) (ref : TrackerRef) : Option Tracker := do
  (← s.chainOf? ref.frame).trackers[ref.position]?

/-- The present state of all trackers kept. -/
def trackers (s : Session σ Λ) : List Tracker :=
  s.kept.filterMap s.tracker?

/-- Keep the tracker of a swapchain; the answer is its position and its state. -/
def keepTracker (swapchain : SwapchainId) : Step (Session σ Λ) (Option (Nat × Tracker)) := do
  let s ← Step.read
  match s.scheduler.trackerFor? swapchain with
  | none => return none
  | some position =>
    let ref := ⟨s.closed.length, position⟩
    match s.tracker? ref with
    | none => return none
    | some tracker =>
      Step.write { s with kept := s.kept ++ [ref] }
      return some (position, tracker)

/-- A step on the chain of a frame that has been closed. -/
def onClosed (frame : Nat) (x : Step Chain α) : Step (Session σ Λ) α :=
  x.zoom (fun s => s.closed[frame]?.getD {}) fun c s =>
    { s with closed := s.closed.set frame c }

/-- Signal a tracker, of the open frame or of a closed one. -/
def signalRef (ref : TrackerRef) (count : UInt32) : Step (Session σ Λ) Unit := do
  let signal := Chain.signalAt ref.position count
  if ref.frame = (← Step.read).closed.length then
    discard (onScheduler (Scheduler.onChain signal))
  else
    discard (onClosed ref.frame signal)

/-- Signal a tracker that is kept; the answer is its state, or `none` if it is not. -/
def signalKept (index : Nat) (count : UInt32) : Step (Session σ Λ) (Option Tracker) := do
  match (← Step.read).kept[index]? with
  | none => return none
  | some ref =>
    signalRef ref count
    return (← Step.read).tracker? ref

/-- Signal what the handle of a group reaches; the answer is how many trackers it
reaches, or `none` without a handle. -/
def signalGroup (index : Nat) (count : UInt32) : Step (Session σ Λ) (Option Nat) := do
  let s ← Step.read
  let handle? := do
    let group ← (← s.scheduler.frame?).plan.groups[index]?
    group.handle?
  match handle? with
  | none => return none
  | some handle =>
    discard (onScheduler (Scheduler.onChain (handle.signal count)))
    return some handle.reach

/-- Require signals of the frame's last tracker; the answer is the sum of all
requirements. -/
def require (count : UInt32) : Step (Session σ Λ) (Option UInt32) :=
  onScheduler (Scheduler.onChain do
    Chain.require count
    return (← Step.read).total)

/-- Open an epoch by hand; the answer is how many trackers there are now. -/
def createHandle : Step (Session σ Λ) (Option Nat) :=
  onScheduler (Scheduler.onChain do return (← Chain.createHandle).reach)

end Session

end FrameSchedule
