import FrameSchedule.Plan
import FrameSchedule.Plan.Handoff

/-!
# Frames

A frame follows its plan while the lists are recorded.  Each group has a slot for
each of its lists, and the group is complete when the last slot has been filled.
Each handler has a mark that says whether it has submitted, or tried to, and a cursor
stands before the first handler that has not retired.
-/

namespace FrameSchedule

variable {Λ : Type}

/-- The lists of a group. -/
structure Progress (Λ : Type) where
  slots : List (Option Λ)
  /-- How many lists are still to come; it wraps when lists are recorded again. -/
  remaining : UInt32
  complete : Bool := false
  deriving DecidableEq

/-- Nothing has been recorded. -/
def Progress.blank (lists : UInt32) : Progress Λ :=
  { slots := List.replicate lists.toNat none, remaining := lists }

/-- There is a list in slot `i`. -/
def Progress.filled (p : Progress Λ) (i : Nat) : Bool :=
  p.slots[i]?.join.isSome

/-- The progress with one more list stored; it is complete if that was the last. -/
def Progress.fill (p : Progress Λ) (i : Nat) (list : Λ) : Progress Λ where
  slots := p.slots.set i (some list)
  remaining := p.remaining - 1
  complete := p.complete || p.remaining = 1

/-- The lists taken out. -/
def Progress.emptied (p : Progress Λ) : Progress Λ :=
  { p with slots := p.slots.map fun _ => none }

/-- The lists stored, in order. -/
def Progress.lists (p : Progress Λ) : List Λ :=
  p.slots.filterMap id

/-- A frame between its beginning and its end. -/
structure Frame (Λ : Type) where
  graph : Graph
  plan : Plan
  /-- The progress of each group. -/
  progress : List (Progress Λ)
  /-- For each handler, whether it has submitted or tried to. -/
  executed : List Bool
  /-- The handlers before this position have retired. -/
  cursor : Nat := 0
  /-- The whole frame has been recorded, or was to be. -/
  recorded : Bool := false
  /-- The trackers, as they have been signalled. -/
  chain? : Option Chain
  deriving DecidableEq

namespace Frame

/-- A frame of which nothing has been recorded. -/
def ofPlan (graph : Graph) (plan : Plan) : Frame Λ where
  graph := graph
  plan := plan
  progress := plan.groups.map fun g => .blank g.lists
  executed := plan.handlers.map fun _ => false
  chain? := plan.chain?

def groupComplete (f : Frame Λ) (g : Group) : Bool :=
  f.progress[g.index]?.any (·.complete)

def handlerComplete (f : Frame Λ) (h : Handler) : Bool :=
  h.groups.all f.groupComplete

def handlerExecuted (f : Frame Λ) (position : Nat) : Bool :=
  f.executed[position]?.getD false

/-- The handlers that have not submitted. -/
def unsubmitted (f : Frame Λ) : Nat :=
  f.executed.count false

/-- The frame of which recording has begun as a whole. -/
def markRecorded (f : Frame Λ) : Frame Λ :=
  { f with recorded := true }

/-- The frame in which the handler at a position has submitted, or tried to. -/
def markExecuted (position : Nat) (f : Frame Λ) : Frame Λ :=
  { f with executed := f.executed.set position true }

/-- The frame in which the handler at a position has retired. -/
def retired (position : Nat) (f : Frame Λ) : Frame Λ :=
  { f with cursor := position + 1 }

def setProgress (g : Group) (p : Progress Λ) (f : Frame Λ) : Frame Λ :=
  { f with progress := f.progress.set g.index p }

/-- Store list `i` of a group; the answer is whether the group became complete. -/
def store (g : Group) (i : Nat) (list : Λ) : Step (Frame Λ) Bool := do
  match (← Step.read).progress[g.index]? with
  | none => return false
  | some p =>
    Step.abortIf (p.filled i) (.listRecordedTwice i g.label)
    Step.modify (setProgress g (p.fill i list))
    return p.remaining = 1

/-- Take the lists of a group out of their slots. -/
def takeLists (g : Group) : Step (Frame Λ) (List Λ) := do
  match (← Step.read).progress[g.index]? with
  | none => return []
  | some p =>
    Step.modify (setProgress g p.emptied)
    return p.lists

/-- Take the lists of groups, which are subpasses from `subpass` on, and add up the
signals of the groups. -/
def takeAll : Nat → UInt32 → List Group → Step (Frame Λ) (List (RecordedList Λ) × UInt32)
  | _, signals, [] => return ([], signals)
  | subpass, signals, g :: gs => do
    let lists ← takeLists g
    let signals ← Step.ofFault (Count.add signals g.signals)
    let (others, signals) ← takeAll (subpass + 1) signals gs
    return (lists.map (g.recorded subpass) ++ others, signals)

/-- Signal the trackers that a handle reaches. -/
def signal (handle : Handle) (count : UInt32) : Step (Frame Λ) Unit := do
  match (← Step.read).chain? with
  | none => return
  | some chain =>
    (handle.signal count).zoom (fun _ => chain) fun c f => { f with chain? := some c }

end Frame

end FrameSchedule
