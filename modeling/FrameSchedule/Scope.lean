import FrameSchedule.Error
import FrameSchedule.Policy
import FrameSchedule.Sync

/-!
# Scopes

A scope is one piece of GPU work of a frame: how much of it there is, where it runs
and what it synchronizes with.  A `PlacedScope` is a scope that belongs to a graph,
which has given it a number and a group.
-/

namespace FrameSchedule

/-- A piece of work. -/
structure Scope where
  name : String := ""
  queue : QueueClass := .graphics
  device : DeviceIndex := ⟨0⟩
  /-- The group that the scope asks for. -/
  group? : Option GroupId := none
  /-- An estimate of the items to record. -/
  items : UInt32 := 0
  attachments : UInt32 := 0
  sync : Sync := {}
  deriving DecidableEq, Inhabited

/-- A scope in a graph. -/
structure PlacedScope extends Scope where
  id : ScopeId
  group : GroupId
  deriving DecidableEq, Inhabited

/-- The group of a scope outside any graph: the one that it asks for. -/
def Scope.group (s : Scope) : Except Fault GroupId :=
  match s.group? with
  | some group => .ok group
  | none => .error .unplacedScope

/-- A placed scope as a scope that asks for the group it has. -/
def PlacedScope.again (s : PlacedScope) : Scope :=
  { s.toScope with group? := some s.group }

end FrameSchedule
