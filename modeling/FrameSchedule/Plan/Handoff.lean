import FrameSchedule.Backend
import FrameSchedule.Plan.Group

/-!
# What a plan hands to a backend

The descriptions that a backend is given while a group is recorded, and the batch
that it is given when a handler submits.
-/

namespace FrameSchedule

variable {Λ : Type}

/-- A list of a group that is a subpass. -/
def Group.recorded (g : Group) (subpass : Nat) (list : Λ) : RecordedList Λ where
  level := g.level
  group := g.index
  subpass := UInt32.ofNat subpass
  scopes := g.members.map (·.id)
  native := list

/-- What list `i` of a group is begun with. -/
def Group.spec (g : Group) (i : Nat) : ListSpec where
  label := g.label
  level := g.level
  queue := g.queue
  device := g.device
  group := g.index
  index := i

/-- What a scope contributes to list `i` of a group. -/
def Group.recordJob (g : Group) (i : Nat) (scope : PlacedScope) : RecordJob where
  scope := scope
  group := g.index
  level := g.level
  list := i
  lists := g.lists
  items := g.items i scope
  policy := g.job

/-- The batch of a handler with these lists. -/
def Handler.batch (h : Handler) (lists : List (RecordedList Λ)) : Batch Λ where
  group := h.id
  queue := h.first.queue
  device := h.first.device
  layout := h.layout
  lists := lists
  sync := Sync.unionAll (h.members.map (·.sync))

end FrameSchedule
