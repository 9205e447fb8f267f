import FrameSchedule.Live

/-!
# The scheduler

A scheduler is configured once, then takes one frame after the other: `start` plans a
frame, the recording steps fill and submit it, `finish` drops it.  A call that comes
at the wrong time is refused and changes nothing.
-/

namespace FrameSchedule

variable {σ Λ α : Type}

/-- A scheduler over a backend in state `device`. -/
structure Scheduler (σ Λ : Type) where
  backend : Backend σ Λ
  policy : SchedulePolicy
  device : σ
  config? : Option Config := none
  frame? : Option (Frame Λ) := none

namespace Scheduler

/-- Take a configuration, if it is fit for use. -/
def init (config : Config) : Step (Scheduler σ Λ) Unit := do
  let s ← Step.read
  Step.failIf s.frame?.isSome .frameInProgress
  Step.ofError config.check
  Step.note (.initialized s.backend.name config.entries.length s.policy)
  Step.write { s with config? := some config }

/-- Note the trackers that the frame cannot satisfy. -/
def warnUnreachable (plan : Plan) : Step (Scheduler σ Λ) Unit := do
  let unreachable ← Step.ofFault plan.unreachable
  Step.forEach (fun u => Step.note (.unreachable u.1 u.2.1 u.2.2)) unreachable

/-- Plan a frame and open it; the answer is the plan. -/
def start (graph : Graph) : Step (Scheduler σ Λ) Plan := do
  let s ← Step.read
  match s.config? with
  | none => Step.fail .notInitialized
  | some config =>
    Step.failIf s.frame?.isSome .frameInProgress
    let plan ← Plan.ofGraph config s.policy graph
    Step.note (.partitioned graph.scopes.length plan.groups.length plan.handlers.length
      plan.presentations.length)
    warnUnreachable plan
    Step.write { s with frame? := some (.ofPlan graph plan) }
    return plan

/-- A step of the open frame and its backend. -/
def inFrame (x : Backend σ Λ → Step (Live σ Λ) α) : Step (Scheduler σ Λ) α := do
  let s ← Step.read
  match s.frame? with
  | none => Step.fail .noFrame
  | some frame =>
    (x s.backend).zoom (fun s => ⟨s.device, frame⟩) fun live s =>
      { s with device := live.backend, frame? := some live.frame }

/-- Record the whole frame. -/
def record : Step (Scheduler σ Λ) Unit := do
  let policy := (← Step.read).policy
  inFrame fun b => Live.record b policy

/-- Record one group; the answer is whether it is complete. -/
def recordGroup (index : Nat) : Step (Scheduler σ Λ) Bool :=
  inFrame fun b => Live.recordGroup b index

/-- Submit the batch that a group belongs to, if it and those before it are ready. -/
def executeGroup (index : Nat) : Step (Scheduler σ Λ) Unit :=
  inFrame fun b => Live.executeGroup b index

/-- Close the frame; handlers that have not submitted are worth a warning. -/
def finish : Step (Scheduler σ Λ) Unit := do
  let s ← Step.read
  match s.frame? with
  | none => Step.fail .noFrame
  | some frame =>
    Step.write { s with frame? := none }
    Step.onlyIf (frame.unsubmitted ≠ 0) (Step.note (.unsubmitted frame.unsubmitted))

/-- The trackers of the open frame. -/
def chain? (s : Scheduler σ Λ) : Option Chain :=
  s.frame?.bind (·.chain?)

/-- A step on the trackers of the open frame, or `none` without trackers. -/
def onChain (x : Step Chain α) : Step (Scheduler σ Λ) (Option α) := do
  let s ← Step.read
  match s.frame? with
  | none => return none
  | some frame =>
    match frame.chain? with
    | none => return none
    | some chain =>
      some <$> x.zoom (fun _ => chain) fun c s =>
        { s with frame? := some { frame with chain? := some c } }

/-- The position of the tracker of the last presentation of a swapchain. -/
def trackerFor? (s : Scheduler σ Λ) (swapchain : SwapchainId) : Option Nat := do
  let frame ← s.frame?
  (frame.plan.presentations.reverse.find? (·.1 = swapchain)).map (·.2)

/-- One line on the state of the scheduler. -/
def summary (s : Scheduler σ Λ) : String :=
  let plan := (s.frame?.map (·.plan)).getD {}
  "FrameGraphExecuter \x7b backend: \"" ++ s.backend.name ++ "\", policy: " ++ s.policy.text ++
    ", initialized: " ++ toString s.config?.isSome ++
    ", groups: " ++ toString plan.groups.length ++
    ", handlers: " ++ toString plan.handlers.length ++ " \x7d"

end Scheduler

end FrameSchedule
