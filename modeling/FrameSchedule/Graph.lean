import FrameSchedule.Count
import FrameSchedule.Scope
import FrameSchedule.Step

/-!
# Frame graphs

The scopes of a frame in the order in which they run.  A scope that names a group
joins the run of scopes of that group, which must be the last one or a new one; a
scope that names none gets a group of its own, numbered from
`GroupId.implicitBase`.  A scope that is refused leaves the graph as it was.
-/

namespace FrameSchedule

/-- The ordered scopes of a frame. -/
structure Graph where
  scopes : List PlacedScope := []
  /-- How many groups have been handed out. -/
  implicitGroups : UInt32 := 0
  deriving DecidableEq, Inhabited

namespace Graph

/-- A scope of this group may follow: the last scope is of the group, or none is. -/
def admits (g : Graph) (group : GroupId) : Bool :=
  (g.scopes.getLast?.map (·.group)) = some group || g.scopes.all (·.group ≠ group)

/-- The number of the next scope. -/
def nextId (g : Graph) : ScopeId :=
  ⟨UInt32.ofNat g.scopes.length⟩

/-- The next group number to hand out, if there is one. -/
def nextGroup (g : Graph) : Except Fault GroupId :=
  (Count.add (UInt32.ofNat GroupId.implicitBase) g.implicitGroups).map fun word => ⟨word⟩

/-- The graph with one more scope, of this group. -/
def push (g : Graph) (scope : Scope) (group : GroupId) : Graph :=
  { g with scopes := g.scopes ++ [{ scope with id := g.nextId, group := group }] }

/-- The graph with a scope that asks for a group. -/
def joinGroup (g : Graph) (scope : Scope) (group : GroupId) : Except Fault Graph :=
  if GroupId.implicitBase ≤ group.word.toNat then .error (.reservedGroup group)
  else if g.admits group then .ok (g.push scope group)
  else .error (.scatteredGroup group scope.name)

/-- The graph with a scope that has a group of its own. -/
def openGroup (g : Graph) (scope : Scope) : Except Fault Graph :=
  g.nextGroup.map fun group =>
    { g.push scope group with implicitGroups := g.implicitGroups + 1 }

/-- The graph with one more scope. -/
def place (g : Graph) (scope : Scope) : Except Fault Graph :=
  match scope.group? with
  | some group => g.joinGroup scope group
  | none => g.openGroup scope

/-- Add a scope at the end; the answer is its number. -/
def add (scope : Scope) : Step Graph ScopeId := do
  let id := (← Step.read).nextId
  Step.update (·.place scope)
  return id

/-- Add scopes one after the other; the first refusal ends it. -/
def addAll (scopes : List Scope) : Step Graph Unit :=
  Step.forEach (fun scope => discard (add scope)) scopes

def scope? (g : Graph) (id : ScopeId) : Option PlacedScope :=
  g.scopes[id.word.toNat]?

/-- Add a copy of a scope of the graph, which asks for the group it has. -/
def addAgain (id : ScopeId) : Step Graph (Option ScopeId) := do
  match (← Step.read).scope? id with
  | some scope => some <$> add scope.again
  | none => return none

/-- The devices in use, in the order of their first scopes. -/
def devices (g : Graph) : List DeviceIndex :=
  (g.scopes.map (·.device)).eraseDups

/-- The graph without its scopes. -/
def clear (_ : Graph) : Graph :=
  {}

end Graph

end FrameSchedule
