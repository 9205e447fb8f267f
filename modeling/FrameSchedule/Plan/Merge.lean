import FrameSchedule.Config
import FrameSchedule.Plan.Group
import FrameSchedule.Plan.Tracking

/-!
# Merging and splitting

One walk over the scopes, front to back.  A cheap scope joins the batch before it
unless a rule forbids it (`Boundary`); a scope that is a subpass of a render pass, or
that costs a list of its own, is set apart and split over secondary lists.  A batch
that ends before a scope is closed before that scope is entered into the ledger, so
it keeps the handle of the epoch in which it was gathered.
-/

namespace FrameSchedule

/-- A scope with the profile of its device. -/
structure SitedScope extends PlacedScope where
  profile : DeviceProfile
  deriving DecidableEq

/-- Find the profile of each scope's device; the error names the first without one. -/
def Config.site (c : Config) : List PlacedScope → Except Error (List SitedScope)
  | [] => .ok []
  | s :: ss =>
    match c.find? s.device with
    | none => .error (.missingLimits s.device)
    | some profile => (c.site ss).map ({ s with profile } :: ·)

/-- The scope is a subpass: a neighbour has the same group. -/
def PlacedScope.inSubpass (previous? next? : Option PlacedScope) (s : PlacedScope) : Bool :=
  previous?.any (·.group = s.group) || next?.any (·.group = s.group)

/-- What a scope weighs on its device. -/
structure Weight where
  threshold : UInt32
  cost : UInt32
  swapchains : UInt32
  deriving DecidableEq

def SitedScope.weight (s : SitedScope) : Except Fault Weight := do
  let threshold ← s.profile.limits.threshold s.items
  let cost := s.profile.limits.cost s.items s.attachments
  return { threshold, cost, swapchains := s.sync.swapchainCount }

/-- The scope costs a list of its own. -/
def Weight.heavy (w : Weight) : Bool :=
  w.threshold ≤ w.cost

/-- How many lists a heavy scope is split over. -/
def Weight.lists (w : Weight) : Except Fault UInt32 :=
  (Count.ceilDiv w.cost w.threshold).map (max · 1)

/-- Scopes gathered for one primary group. -/
structure Gathering where
  start : Nat
  members : List PlacedScope := []
  cost : UInt32 := 0
  swapchains : UInt32 := 0
  queue : QueueClass
  device : DeviceIndex
  deriving DecidableEq

namespace Gathering

/-- Which rules keep a scope of weight `w` out. -/
def boundary (g : Gathering) (previous? : Option PlacedScope) (s : SitedScope) (w : Weight)
    (isolate : Bool) : Except Fault Boundary := do
  let swapchains ← Count.add g.swapchains w.swapchains
  return {
    cost := w.threshold < Count.satAdd g.cost w.cost
    swapchains := s.profile.limits.swapchainsMax < swapchains
    queue := g.queue ≠ s.queue
    device := g.device ≠ s.device
    sync := s.sync.hasWaits || previous?.any (·.sync.hasSignals)
    isolate }

/-- Take a scope in. -/
def join (g : Gathering) (s : SitedScope) (w : Weight) : Except Fault Gathering := do
  let swapchains ← Count.add g.swapchains w.swapchains
  return { g with
    members := g.members ++ [s.toPlacedScope]
    cost := Count.satAdd g.cost w.cost
    swapchains }

end Gathering

/-- The state of the walk. -/
structure Merge where
  /-- The groups decided on, in order. -/
  drafts : List Draft := []
  gathering? : Option Gathering := none
  /-- The account of presentations, if they are tracked. -/
  ledger? : Option Ledger := none
  deriving DecidableEq

namespace Merge

def handle? (m : Merge) : Option Handle :=
  m.ledger?.map (·.handle)

/-- Make a group of what is gathered. -/
def close (m : Merge) : Merge :=
  match m.gathering? with
  | none => m
  | some g =>
    let draft := { kind := .primary, start := g.start, members := g.members, handle? := m.handle? }
    { m with drafts := m.drafts ++ [draft], gathering? := none }

/-- Close the gathering at a boundary before a scope, if there is one. -/
def closeAt (scope : String) (boundary : Boundary) : Step Merge Unit :=
  Step.onlyIf boundary.any do
    Step.note (.flushing scope boundary)
    Step.modify close

/-- Close the gathering before a scope that may not join it. -/
def closeBefore (previous? : Option PlacedScope) (s : SitedScope) (w : Weight) (isolate : Bool) :
    Step Merge Unit := do
  match (← Step.read).gathering? with
  | none => return
  | some g => closeAt s.name (← Step.ofFault (g.boundary previous? s w isolate))

/-- Enter a scope into the ledger, if there is one. -/
def enter (position : Nat) (previous? : Option PlacedScope) (s : PlacedScope) :
    Step Merge Unit := do
  match (← Step.read).ledger? with
  | none => return
  | some ledger =>
    (Ledger.enter position previous? s).zoom (fun _ => ledger) fun l m =>
      { m with ledger? := some l }

/-- The gathering that a scope joins: the present one, or one that starts with it. -/
def gatheringFor (m : Merge) (position : Nat) (s : SitedScope) : Gathering :=
  m.gathering?.getD { start := position, queue := s.queue, device := s.device }

/-- Let a scope join the gathering, or start one. -/
def gather (position : Nat) (s : SitedScope) (w : Weight) : Step Merge Unit := do
  Step.update fun m =>
    ((m.gatheringFor position s).join s w).map fun g => { m with gathering? := some g }
  Step.note (.merging s.name w.cost w.threshold)

/-- A group of one scope, split over lists. -/
def pushSplit (m : Merge) (position : Nat) (s : PlacedScope) (lists : UInt32) : Merge :=
  let draft := { kind := .secondary lists, start := position, members := [s], handle? := m.handle? }
  { m with drafts := m.drafts ++ [draft] }

/-- Make a group of one scope. -/
def setApart (position : Nat) (s : SitedScope) (w : Weight) : Step Merge Unit := do
  let lists ← Step.ofFault w.lists
  Step.note (.isolating s.name lists w.cost w.threshold)
  Step.modify (·.pushSplit position s.toPlacedScope lists)

/-- Walk over one scope, between its neighbours. -/
def visit (position : Nat) (previous? next? : Option PlacedScope) (s : SitedScope) :
    Step Merge Unit := do
  let w ← Step.ofFault s.weight
  let isolate := s.inSubpass previous? next? || w.heavy
  closeBefore previous? s w isolate
  enter position previous? s.toPlacedScope
  if isolate then setApart position s w else gather position s w

/-- Walk over the scopes from a position on, behind `previous?`. -/
def walk : Nat → Option PlacedScope → List SitedScope → Step Merge Unit
  | _, _, [] => Step.modify close
  | position, previous?, s :: ss => do
    visit position previous? (ss.head?.map (·.toPlacedScope)) s
    walk (position + 1) (some s.toPlacedScope) ss

/-- The walk before its first scope.  Presentations are tracked if the device of that
scope allows it. -/
def initial (ss : List SitedScope) : Merge :=
  if ss.head?.any (·.profile.tracking) then { ledger? := some .opening } else {}

/-- Walk over a frame. -/
def ofScopes {σ : Type} (ss : List SitedScope) : Step σ Merge :=
  (·.2) <$> Step.fresh (initial ss) (walk 0 none ss)

end Merge

/-- One group for each scope, without merging, splitting or tracking. -/
def lockstep : Nat → Option PlacedScope → List PlacedScope → List Draft
  | _, _, [] => []
  | position, previous?, s :: ss =>
    let kind := if s.inSubpass previous? ss.head? then .secondary 1 else .primary
    { kind, start := position, members := [s] } :: lockstep (position + 1) (some s) ss

end FrameSchedule
