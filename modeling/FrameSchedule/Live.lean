import FrameSchedule.Frame

/-!
# Frames on a backend

The lists of a frame are recorded on a backend, one after the other.  The handlers
submit in order: whenever a group becomes complete, or on request, the handlers from
the cursor on retire as long as they are complete.

A recording or a submission that stops halfway leaves everything done before it as it
is.  A handler counts as executed from the moment its submission is tried.
-/

namespace FrameSchedule

variable {σ Λ : Type}

/-- A frame with the state of the backend it is recorded on. -/
structure Live (σ Λ : Type) where
  backend : σ
  frame : Frame Λ
  deriving DecidableEq

namespace Live

/-- A call to the backend. -/
def onBackend {α : Type} (x : Step σ α) : Step (Live σ Λ) α :=
  x.zoom (·.backend) fun s l => { l with backend := s }

/-- A step of the frame alone. -/
def onFrame {α : Type} (x : Step (Frame Λ) α) : Step (Live σ Λ) α :=
  x.zoom (·.frame) fun f l => { l with frame := f }

variable (b : Backend σ Λ)

/-! ## Submission -/

/-- Submit the batch of the handler at a position, unless that has been tried before;
then signal the trackers that wait for its scopes. -/
def submit (position : Nat) (h : Handler) : Step (Live σ Λ) Unit := do
  if (← Step.read).frame.handlerExecuted position then return
  onFrame (Step.modify (Frame.markExecuted position))
  let (lists, signals) ← onFrame (Frame.takeAll 0 0 h.groups)
  Step.note (.submitting h.kind h.id h.groups.length lists.length)
  onBackend (b.submit (h.batch lists))
  if signals = 0 then return
  match h.first.handle? with
  | none => return
  | some handle => onFrame (Frame.signal handle signals)

/-- Retire handlers, the first of them at a position, as long as they are complete. -/
def retireFrom : Nat → List Handler → Step (Live σ Λ) Unit
  | _, [] => return
  | position, h :: hs => do
    if (← Step.read).frame.handlerComplete h then
      onFrame (Step.modify (Frame.retired position))
      submit b position h
      retireFrom (position + 1) hs

/-- Retire the handlers from the cursor on. -/
def retire : Step (Live σ Λ) Unit := do
  let f := (← Step.read).frame
  retireFrom b f.cursor (f.plan.handlers.drop f.cursor)

/-- The group at a position. -/
def group (index : Nat) : Step (Live σ Λ) Group := do
  match (← Step.read).frame.plan.groups[index]? with
  | none => Step.fail (.invalidGroup index)
  | some g => return g

/-- A group says that it may be submitted: if its handler is complete and has not
submitted, handlers retire. -/
def executeGroup (index : Nat) : Step (Live σ Λ) Unit := do
  let g ← group index
  let f := (← Step.read).frame
  match f.plan.handlerIndex? g.id with
  | none => Step.abort (.unhandledGroup g.id)
  | some position =>
    if f.handlerExecuted position || !f.plan.handlers[position]?.any f.handlerComplete then return
    retire b

/-! ## Recording -/

/-- Record scopes into list `i` of a group, in order. -/
def recordScopes (g : Group) (i : Nat) : Λ → List PlacedScope → Step (Live σ Λ) Λ
  | list, [] => return list
  | list, s :: ss => do
    let list ← onBackend (b.recordScope list (g.recordJob i s))
    recordScopes g i list ss

/-- Record list `i` of a group; the answer is whether the group became complete. -/
def recordList (g : Group) (i : Nat) : Step (Live σ Λ) Bool := do
  Step.abortIf (g.lists.toNat ≤ i) (.listOutOfRange i g.label)
  let list ← onBackend (b.beginList (g.spec i))
  let list ← recordScopes b g i list g.members
  onFrame (Frame.store g i list)

/-- Record list `i` of a group, and submit what has become complete by it. -/
def recordTask (task : Group × Nat) : Step (Live σ Λ) Unit := do
  if ← recordList b task.1 task.2 then executeGroup b task.1.index

/-- Record all lists of the group at a position; the answer is whether the group is
complete. -/
def recordGroup (index : Nat) : Step (Live σ Λ) Bool := do
  let g ← group index
  Step.forEach (recordTask b) g.tasks
  return (← Step.read).frame.groupComplete g

/-- Record all lists of the frame in order, once. -/
def record (policy : SchedulePolicy) : Step (Live σ Λ) Unit := do
  let f := (← Step.read).frame
  Step.failIf f.recorded .alreadyRecorded
  onFrame (Step.modify Frame.markRecorded)
  Step.onlyIf (policy.job = .parallel) (Step.note (.recording f.plan.tasks.length))
  Step.forEach (recordTask b) f.plan.tasks

end Live

end FrameSchedule
