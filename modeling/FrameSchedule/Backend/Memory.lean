import FrameSchedule.Backend

/-!
# The backend in memory

This backend drives no hardware.  Its command lists are records of what was recorded
into them, and it keeps every submission for inspection.  It can be told to refuse
submissions, and it refuses lists that are not its own.
-/

namespace FrameSchedule

/-- What was recorded into a list, in order. -/
structure CommandList where
  label : String
  level : Level
  subpass : UInt32 := 0
  recorded : List (ScopeId × ItemRange) := []
  deriving DecidableEq

/-- A list that the backend is handed: one of its own, or something else. -/
inductive MemoryList where
  | own (list : CommandList)
  | foreign
  deriving DecidableEq

/-- The submissions kept, and whether further ones are refused. -/
structure Memory where
  submissions : List (Submission CommandList) := []
  failing : Bool := false
  deriving DecidableEq

namespace Memory

def foreignText : String :=
  "foreign command list passed to DummyBackend"

/-- The list that is kept of a recorded one. -/
def kept? (l : RecordedList MemoryList) : Option CommandList :=
  match l.native with
  | .own list => some { list with subpass := l.subpass }
  | .foreign => none

def beginList (spec : ListSpec) : Step Memory MemoryList := do
  Step.note (.listBegun spec)
  return .own { label := spec.label, level := spec.level }

def recordScope (list : MemoryList) (job : RecordJob) : Step Memory MemoryList :=
  match list with
  | .foreign => Step.fail (.recordingFailed foreignText)
  | .own list => do
    Step.note (.scopeRecorded job.scope.name job.items list.label)
    return .own { list with recorded := list.recorded ++ [(job.scope.id, job.items)] }

/-- Keep a batch with these lists. -/
def keep (batch : Batch MemoryList) (lists : List CommandList) : Step Memory Unit := do
  Step.note (.batchKept batch.group batch.queue batch.device lists.length batch.layout)
  Step.modify fun m => { m with submissions := m.submissions ++ [{ batch with lists := lists }] }

def submit (batch : Batch MemoryList) : Step Memory Unit := do
  if (← Step.read).failing then
    Step.fail (.submissionFailed ("DummyBackend rejected batch for " ++ batch.group.text))
  else
    match batch.lists.mapM kept? with
    | none => Step.fail (.submissionFailed foreignText)
    | some lists => keep batch lists

/-- The backend that keeps its submissions. -/
def backend : Backend Memory MemoryList where
  name := "Dummy Backend"
  beginList := beginList
  recordScope := recordScope
  submit := submit

/-- Forget the submissions. -/
def clear (m : Memory) : Memory :=
  { m with submissions := [] }

end Memory

end FrameSchedule
