import FrameSchedule.Chain
import FrameSchedule.CommandList
import FrameSchedule.Scope

/-!
# Execution groups and handlers

A group is a run of scopes that share command lists: merged scopes in one primary
list, or one scope split over secondary lists.  A handler submits a run of groups
with one group number as one batch.  The constructors take apart what does not make
a group or a handler.
-/

namespace FrameSchedule

/-- How the scopes of a group are laid into lists. -/
inductive GroupKind where
  /-- All scopes in one list. -/
  | primary
  /-- One scope, split over so many lists. -/
  | secondary (lists : UInt32)
  deriving DecidableEq, Inhabited

def GroupKind.level : GroupKind → Level
  | .primary => .primary
  | .secondary _ => .secondary

def GroupKind.lists : GroupKind → UInt32
  | .primary => 1
  | .secondary lists => lists

/-- A run of scopes that are to make a group. -/
structure Draft where
  kind : GroupKind
  /-- Position of the first scope in the frame. -/
  start : Nat
  members : List PlacedScope
  handle? : Option Handle := none
  deriving DecidableEq

/-- A run of scopes recorded together. -/
structure Group where
  /-- Position in the list of groups. -/
  index : Nat
  kind : GroupKind
  label : String
  id : GroupId
  device : DeviceIndex
  queue : QueueClass
  /-- Position of the first scope in the frame. -/
  start : Nat
  members : List PlacedScope
  job : JobPolicy
  /-- The trackers that wait for the group. -/
  handle? : Option Handle
  /-- The signals that those trackers get when the group is submitted. -/
  signals : UInt32
  deriving DecidableEq

namespace Group

def level (g : Group) : Level :=
  g.kind.level

def lists (g : Group) : UInt32 :=
  g.kind.lists

/-- The position after the last scope. -/
def stop (g : Group) : Nat :=
  g.start + g.members.length

/-- The command lists of the group: each with the group and its position there. -/
def tasks (g : Group) : List (Group × Nat) :=
  (List.range g.lists.toNat).map (g, ·)

/-- The items of a scope that go into list `i`. -/
def items (g : Group) (i : Nat) (scope : PlacedScope) : ItemRange :=
  match g.kind with
  | .primary => .whole scope.items
  | .secondary lists => .slice scope.items i lists.toNat

/-- A group is named for its first scope and the number of the others. -/
def labelOf (first : PlacedScope) : Nat → String
  | 0 => first.name
  | others => first.name ++ "+" ++ toString others

/-- The group made of a draft: it has a scope, and a split one has one scope and at
least one list.  Number, device and queue are those of the first scope. -/
def ofDraft (index : Nat) (job : JobPolicy) (signals : UInt32) (d : Draft) : Except Fault Group :=
  match d.members with
  | [] => .error (.emptyGroup index)
  | first :: others =>
    if d.kind.level = .secondary ∧ others ≠ [] then .error (.sharedSecondary index)
    else if d.kind.lists = 0 then .error (.noLists index)
    else .ok {
      index, job, signals
      kind := d.kind
      label := labelOf first others.length
      id := first.group
      device := first.device
      queue := first.queue
      start := d.start
      members := d.members
      handle? := d.handle? }

end Group

/-- A run of groups submitted together. -/
structure Handler where
  kind : Level
  id : GroupId
  /-- The groups, of which there is at least one. -/
  first : Group
  others : List Group
  deriving DecidableEq

namespace Handler

def groups (h : Handler) : List Group :=
  h.first :: h.others

/-- The position of the first group. -/
def start (h : Handler) : Nat :=
  h.first.index

/-- The position after the last group. -/
def stop (h : Handler) : Nat :=
  h.start + h.groups.length

/-- The scopes of all groups, in order. -/
def members (h : Handler) : List PlacedScope :=
  h.groups.flatMap (·.members)

/-- A handler of one primary group is primary, every other one is a render pass. -/
def kindOf (first : Group) (others : List Group) : Level :=
  if others = [] then first.level else .secondary

/-- The handler of a run of groups. -/
def ofRun? : List Group → Option Handler
  | [] => none
  | first :: others => some ⟨kindOf first others, first.id, first, others⟩

/-- No two handlers have one number; the first number that comes again is a fault. -/
def checkIds : List GroupId → List Handler → Except Fault Unit
  | _, [] => .ok ()
  | seen, h :: hs => if h.id ∈ seen then .error (.splitGroup h.id) else checkIds (h.id :: seen) hs

/-- One handler for each longest run of groups with one number. -/
def ofGroups (groups : List Group) : Except Fault (List Handler) := do
  let handlers := (groups.splitBy fun a b => a.id = b.id).filterMap ofRun?
  checkIds [] handlers
  return handlers

/-- How a batch of the handler makes up render passes. -/
def layout (h : Handler) : Layout :=
  match h.kind with
  | .primary => .perScope
  | .secondary => .subpasses (UInt32.ofNat h.groups.length)

end Handler

end FrameSchedule
