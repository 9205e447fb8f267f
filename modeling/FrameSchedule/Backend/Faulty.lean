import FrameSchedule.Backend

/-!
# A backend with faults

A wrapper that numbers the calls to a backend, each kind of call from one, and fails
those whose number is on a list.  A call that is not to fail is passed on.
-/

namespace FrameSchedule

/-- The numbers of the calls that are to fail. -/
structure FaultPlan where
  /-- Beginnings that are refused. -/
  beginning : List Nat := []
  /-- Beginnings that answer with a list that is not the backend's. -/
  foreign : List Nat := []
  /-- Recordings that are refused. -/
  recording : List Nat := []
  /-- Recordings that end in a fault. -/
  abrupt : List Nat := []
  /-- Submissions that are refused. -/
  submission : List Nat := []
  deriving DecidableEq, Inhabited

/-- A backend's state with the number of calls of each kind. -/
structure Faulty (σ : Type) where
  inner : σ
  beginnings : Nat := 0
  recordings : Nat := 0
  submissions : Nat := 0
  deriving DecidableEq

namespace Faulty

variable {σ Λ : Type}

/-- A step of the wrapped backend. -/
def pass {α : Type} (x : Step σ α) : Step (Faulty σ) α :=
  x.zoom (·.inner) fun s f => { f with inner := s }

/-- A backend that fails as planned; `alien` is the list that is not its own. -/
def backend (plan : FaultPlan) (alien : Λ) (b : Backend σ Λ) : Backend (Faulty σ) Λ where
  name := b.name
  beginList spec := do
    Step.modify fun f => { f with beginnings := f.beginnings + 1 }
    let n := (← Step.read).beginnings
    if n ∈ plan.beginning then Step.fail (.recordingFailed ("injected begin " ++ toString n))
    else if n ∈ plan.foreign then return alien
    else pass (b.beginList spec)
  recordScope list job := do
    Step.modify fun f => { f with recordings := f.recordings + 1 }
    let n := (← Step.read).recordings
    if n ∈ plan.recording then Step.fail (.recordingFailed ("injected record " ++ toString n))
    else if n ∈ plan.abrupt then Step.abort (.backend ("injected panic " ++ toString n))
    else pass (b.recordScope list job)
  submit batch := do
    Step.modify fun f => { f with submissions := f.submissions + 1 }
    let n := (← Step.read).submissions
    if n ∈ plan.submission then Step.fail (.submissionFailed ("injected submit " ++ toString n))
    else pass (b.submit batch)

end Faulty

end FrameSchedule
