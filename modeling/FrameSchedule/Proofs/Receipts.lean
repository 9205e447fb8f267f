import FrameSchedule.Proofs.Stops
import FrameSchedule.Scheduler

/-!
# Receipts, and what may happen to an open frame

What a frame has submitted is said over a wrapped backend: the wrapper passes every call
on, to a backend that may refuse it or give up, and keeps a receipt of each batch
(`Receipted`).  A fault of the wrapped backend stays one of the backend, so a call that
ends in an overflow has counted too many signals itself.

An open frame serves requests in any order, and somebody else may signal its trackers
in between (`Event`).  `Scheduler.through` is the state that a sequence of events leads
to, whatever the calls among them end in.
-/

namespace FrameSchedule

variable {σ Λ α : Type}

/-! ## The wrapper -/

/-- A batch that was handed to a backend, and whether it was accepted. -/
structure Receipt (Λ : Type) where
  batch : Batch Λ
  accepted : Bool
  deriving DecidableEq

/-- A backend's state with the receipts so far, oldest first. -/
structure Receipted (σ Λ : Type) where
  inner : σ
  receipts : List (Receipt Λ) := []
  deriving DecidableEq

/-- How a stop of a backend reaches its caller. -/
def Stop.ofBackend : Stop → Stop
  | .error e => .error e
  | .fault f => .fault (.backend f.message)

namespace Receipted

/-- A step of the wrapped backend. -/
def pass (x : Step σ α) : Step (Receipted σ Λ) α := fun r =>
  ⟨{ r with inner := (x r.inner).state }, (x r.inner).journal,
    (x r.inner).result.mapError Stop.ofBackend⟩

/-- Hand a batch on, and keep a receipt of what came of it. -/
def submit (b : Backend σ Λ) (batch : Batch Λ) : Step (Receipted σ Λ) Unit := fun r =>
  let o := (pass (b.submit batch)).run r
  { o with state.receipts := o.state.receipts ++ [⟨batch, o.result.isOk⟩] }

/-- The backend that keeps receipts. -/
def backend (b : Backend σ Λ) : Backend (Receipted σ Λ) Λ where
  name := b.name
  beginList spec := pass (b.beginList spec)
  recordScope list job := pass (b.recordScope list job)
  submit := submit b

variable {r : Receipted σ Λ}

theorem run_pass (x : Step σ α) (r : Receipted σ Λ) :
    (pass x).run r = ⟨{ r with inner := (x.run r.inner).state }, (x.run r.inner).journal,
      (x.run r.inner).result.mapError Stop.ofBackend⟩ := rfl

theorem run_submit (b : Backend σ Λ) (batch : Batch Λ) (r : Receipted σ Λ) :
    ((backend b).submit batch).run r =
      ⟨⟨((pass (b.submit batch)).run r).state.inner,
        ((pass (b.submit batch)).run r).state.receipts ++
          [⟨batch, ((pass (b.submit batch)).run r).result.isOk⟩]⟩,
        ((pass (b.submit batch)).run r).journal, ((pass (b.submit batch)).run r).result⟩ := rfl

/-- A call that is passed on leaves the receipts alone, and its stops are the backend's. -/
theorem pass_leaves_of {x : Step σ α} {post : α → Prop}
    (h : x.Permits r.inner fun a _ => post a) :
    (pass x).Leaves r (fun a r' => post a ∧ r'.receipts = r.receipts) fun stop r' =>
      r'.receipts = r.receipts ∧ ∃ cause, stop = Stop.ofBackend cause := by
  unfold Step.Leaves
  rw [run_pass]
  cases hx : (x.run r.inner).result with
  | ok a => exact ⟨h a _ ⟨hx, rfl⟩, rfl⟩
  | error stop => exact ⟨rfl, stop, rfl⟩

theorem pass_leaves (x : Step σ α) :
    (pass x).Leaves r (fun _ r' => r'.receipts = r.receipts) fun _ r' =>
      r'.receipts = r.receipts := by
  have hany : x.Permits r.inner fun _ _ => True := fun _ _ _ => trivial
  exact (pass_leaves_of hany).mono (fun _ _ hr => hr.2) fun _ _ hr => hr.1

/-- A batch has one receipt, which says whether the call returned. -/
theorem submit_leaves (b : Backend σ Λ) (batch : Batch Λ) :
    ((backend b).submit batch).Leaves r
      (fun _ r' => r'.receipts = r.receipts ++ [⟨batch, true⟩])
      fun stop r' => r'.receipts = r.receipts ++ [⟨batch, false⟩] ∧
        ∃ cause, stop = Stop.ofBackend cause := by
  unfold Step.Leaves
  rw [run_submit, run_pass]
  cases ((b.submit batch).run r.inner).result with
  | ok _ => exact rfl
  | error cause => exact ⟨rfl, cause, rfl⟩

end Receipted

namespace Live

/-- A call that is passed on leaves the frame and the receipts alone. -/
theorem pass_leaves {l : Live (Receipted σ Λ) Λ} {x : Step σ α} {post : α → Prop}
    (h : x.Permits l.backend.inner fun a _ => post a) :
    (onBackend (Receipted.pass x)).Leaves l
      (fun a l' => post a ∧ l'.frame = l.frame ∧ l'.backend.receipts = l.backend.receipts)
      fun stop l' => (l'.frame = l.frame ∧ l'.backend.receipts = l.backend.receipts) ∧
        ∃ cause, stop = Stop.ofBackend cause := by
  rw [onBackend, Step.leaves_zoom]
  exact (Receipted.pass_leaves_of h).mono (fun _ _ hr => ⟨hr.1, rfl, hr.2⟩)
    fun _ _ hr => ⟨⟨rfl, hr.1⟩, hr.2⟩

/-- What the backend keeps while it records a scope, it keeps while scopes are recorded. -/
theorem recordScopes_keeps {b : Backend σ Λ} {inv : Live σ Λ → Prop}
    {halt : Stop → Live σ Λ → Prop}
    (hscope : ∀ l list job, inv l →
      (onBackend (b.recordScope list job)).Leaves l (fun _ => inv) halt)
    {l : Live σ Λ} (h : inv l) (G : Group) (i : Nat) (list : Λ) (ss : List PlacedScope) :
    (recordScopes b G i list ss).Leaves l (fun _ => inv) halt := by
  induction ss generalizing l list with
  | nil => exact Step.leaves_pure.2 h
  | cons s ss ih =>
    unfold recordScopes
    rw [Step.leaves_bind]
    exact (hscope l list _ h).mono (fun list' _ hl => ih hl list') fun _ _ hl => hl

end Live

/-! ## Requests and events -/

/-- A call that an open frame serves. -/
inductive Request where
  | record
  /-- One list of a group, as one of several recorders takes it. -/
  | recordList (index list : Nat)
  | recordGroup (index : Nat)
  | executeGroup (index : Nat)
  deriving DecidableEq

/-- What may happen to an open frame. -/
inductive Event where
  | request (r : Request)
  /-- Somebody else has signalled the trackers, and leaves them so. -/
  | disturb (chain : Chain)
  deriving DecidableEq

/-- The step of a request. -/
def Live.serve (b : Backend σ Λ) (policy : SchedulePolicy) : Request → Step (Live σ Λ) Unit
  | .record => Live.record b policy
  | .recordList index list => do
    let g ← Live.group index
    Live.recordTask b (g, list)
  | .recordGroup index => discard (Live.recordGroup b index)
  | .executeGroup index => Live.executeGroup b index

namespace Scheduler

/-- A request to the open frame. -/
def serve : Request → Step (Scheduler σ Λ) Unit
  | .record => record
  | .recordList index list => inFrame fun b => do
    let g ← Live.group index
    Live.recordTask b (g, list)
  | .recordGroup index => discard (recordGroup index)
  | .executeGroup index => executeGroup index

def meet : Event → Step (Scheduler σ Λ) Unit
  | .request r => serve r
  | .disturb chain => discard (onChain (Step.write chain))

/-- The state after some events. -/
def through (s : Scheduler σ Λ) (events : List Event) : Scheduler σ Λ :=
  events.foldl (fun s e => ((meet e).run s).state) s

/-- None of the events ends because signals cannot be counted. -/
def Calm : List Event → Scheduler σ Λ → Prop
  | [], _ => True
  | e :: es, s =>
    ((meet e).run s).result ≠ .error (.fault .addOverflow) ∧ Calm es ((meet e).run s).state

/-- The scheduler with another state of its device and of its open frame. -/
def put (s : Scheduler σ Λ) (l : Live σ Λ) : Scheduler σ Λ :=
  { s with device := l.backend, frame? := some l.frame }

variable {s : Scheduler σ Λ} {l : Live σ Λ}

/-- Whether all handlers have submitted can be computed from the plan and the run. -/
theorem executed_of_through {t : Scheduler σ Λ} {graph : Graph} {p : Plan} {events : List Event}
    (hstart : (start graph).Yields s p t) (hrun : t.through events = t.put l)
    (hall : ((start graph).run s).result.toOption.map (·.handlers.map fun _ => true) =
      (((start graph).run s).state.through events).frame?.map (·.executed)) :
    l.frame.executed = p.handlers.map fun _ => true := by
  obtain ⟨hresult, rfl⟩ := hstart
  rw [hrun, hresult] at hall
  exact (Option.some_inj.1 hall).symm

theorem leaves_inFrame {x : Backend σ Λ → Step (Live σ Λ) α} {post : α → Scheduler σ Λ → Prop}
    {halt : Stop → Scheduler σ Λ → Prop} :
    (inFrame x).Leaves (s.put l) post halt ↔
      (x s.backend).Leaves l (fun a m => post a (s.put m)) fun stop m => halt stop (s.put m) := by
  unfold inFrame
  rw [Step.leaves_bind, Step.leaves_read]
  exact Step.leaves_zoom

/-- A request is served by the open frame. -/
theorem leaves_serve (r : Request) {post : Unit → Scheduler σ Λ → Prop}
    {halt : Stop → Scheduler σ Λ → Prop} :
    (serve r).Leaves (s.put l) post halt ↔
      (Live.serve s.backend s.policy r).Leaves l (fun a m => post a (s.put m))
        fun stop m => halt stop (s.put m) := by
  cases r with
  | record =>
    unfold serve record
    rw [Step.leaves_bind, Step.leaves_read]
    exact leaves_inFrame
  | recordList index list => exact leaves_inFrame
  | recordGroup index =>
    unfold serve recordGroup
    rw [Step.leaves_discard, leaves_inFrame, Live.serve, Step.leaves_discard]
  | executeGroup index => exact leaves_inFrame

/-- Other people's signals change nothing but the trackers. -/
theorem leaves_disturb (chain : Chain) {halt : Stop → Scheduler σ Λ → Prop} :
    (meet (.disturb chain)).Leaves (s.put l) (fun _ s' => ∃ chain?,
      s' = s.put { l with frame := { l.frame with chain? := chain? } }) halt := by
  unfold meet onChain
  rw [Step.leaves_discard, Step.leaves_bind, Step.leaves_read]
  rcases l with ⟨device, graph, plan, progress, executed, cursor, recorded, chain?⟩
  cases chain? with
  | none => exact ⟨none, rfl⟩
  | some c => exact ⟨some chain, rfl⟩

end Scheduler

end FrameSchedule
