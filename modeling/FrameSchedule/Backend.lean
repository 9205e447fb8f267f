import FrameSchedule.Scope
import FrameSchedule.CommandList
import FrameSchedule.Step

/-!
# Backends

A backend begins command lists, records scopes into them and takes submissions.  It
is a state machine over a state `σ` of its own; `Λ` is the type of its command lists,
which the scheduler hands around and never looks into.
-/

namespace FrameSchedule

/-- What one scope contributes to one list. -/
structure RecordJob where
  scope : PlacedScope
  /-- Position of the group in the frame. -/
  group : Nat
  level : Level
  /-- Position of the list in its group. -/
  list : Nat
  /-- How many lists the group has. -/
  lists : UInt32
  items : ItemRange
  policy : JobPolicy
  deriving DecidableEq

/-- Command lists for a queue, with their synchronization. -/
structure Submission (ℓ : Type) where
  group : GroupId
  queue : QueueClass
  device : DeviceIndex
  layout : Layout
  lists : List ℓ
  sync : Sync
  deriving DecidableEq

/-- A list of the backend, and what it was recorded for. -/
structure RecordedList (Λ : Type) where
  level : Level
  /-- Position of the group in the frame. -/
  group : Nat
  subpass : UInt32
  scopes : List ScopeId
  native : Λ
  deriving DecidableEq

/-- A batch as a backend receives it. -/
abbrev Batch (Λ : Type) := Submission (RecordedList Λ)

/-- A backend with states `σ` and command lists `Λ`. -/
structure Backend (σ Λ : Type) where
  name : String
  beginList : ListSpec → Step σ Λ
  recordScope : Λ → RecordJob → Step σ Λ
  submit : Batch Λ → Step σ Unit

end FrameSchedule
