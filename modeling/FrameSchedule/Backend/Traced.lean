import FrameSchedule.Backend

/-!
# A backend with a trace

A wrapper that writes down every call before it passes it on, whatever comes of it.
-/

namespace FrameSchedule

/-- A call to a backend. -/
inductive Call (Λ : Type) where
  | beginList (spec : ListSpec)
  | recordScope (job : RecordJob)
  | submit (batch : Batch Λ)
  deriving DecidableEq

/-- A backend's state with the calls made so far. -/
structure Traced (σ Λ : Type) where
  inner : σ
  calls : List (Call Λ) := []
  deriving DecidableEq

namespace Traced

variable {σ Λ α : Type}

/-- Write down a call and pass it on. -/
def log (call : Call Λ) (x : Step σ α) : Step (Traced σ Λ) α := do
  Step.modify fun t => { t with calls := t.calls ++ [call] }
  x.zoom (·.inner) fun s t => { t with inner := s }

/-- A backend that writes down its calls. -/
def backend (b : Backend σ Λ) : Backend (Traced σ Λ) Λ where
  name := b.name
  beginList spec := log (.beginList spec) (b.beginList spec)
  recordScope list job := log (.recordScope job) (b.recordScope list job)
  submit batch := log (.submit batch) (b.submit batch)

end Traced

end FrameSchedule
