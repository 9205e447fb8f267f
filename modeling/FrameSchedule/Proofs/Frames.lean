import FrameSchedule.Proofs.Recording
import FrameSchedule.Scheduler

/-!
# Frames of a scheduler

Opening a frame leaves the device alone and sets up a frame that has been begun on a
formed plan (`Scheduler.start_permits`).  It succeeds on every graph that is built and
counted, for devices with a sound configuration (`Scheduler.start_ensures`).

A frame that has been begun is recorded to its end without a stop
(`Live.Begun.record`).
-/

namespace FrameSchedule

namespace Scheduler

variable {σ Λ α : Type}

/-! ## Opening a frame -/

theorem warnUnreachable_permits (p : Plan) (s : Scheduler σ Λ) :
    (warnUnreachable p).Permits s fun _ s' => s' = s ∧ ∃ us, p.unreachable = .ok us := by
  unfold warnUnreachable
  rw [Step.permits_bind, Step.permits_ofFault]
  intro us hus
  refine (Step.Permits.forEach (fun s' => s' = s) (fun u s' hs' => ?_) rfl).mono fun _ _ hs' => ?_
  · exact Step.permits_note.2 hs'
  · exact ⟨hs', us, hus⟩

theorem warnUnreachable_ensures {p : Plan} {us : List (Nat × UInt32 × UInt32)}
    (hus : p.unreachable = .ok us) (s : Scheduler σ Λ) :
    (warnUnreachable p).Ensures s fun _ s' => s' = s := by
  unfold warnUnreachable
  rw [Step.ensures_bind, Step.ensures_ofFault]
  refine ⟨us, hus, Step.Ensures.forEach (fun _ s' => s' = s) (fun u _ s' hs' => ?_) rfl⟩
  exact Step.ensures_note.2 hs'

/-- What holds of the plans of a graph holds of the plan of a frame that is opened. -/
theorem start_permits_of {graph : Graph} {s : Scheduler σ Λ} {post : Plan → Prop}
    (h : ∀ c, (Plan.ofGraph c s.policy graph : Step (Scheduler σ Λ) Plan).Permits s
      fun p _ => post p) :
    (start graph).Permits s fun p _ => post p := by
  unfold start
  rw [Step.permits_bind, Step.permits_read]
  cases s.config? with
  | none => exact Step.permits_fail
  | some c =>
    rw [Step.permits_bind, Step.failIf, Step.permits_onlyIf]
    refine ⟨fun _ => Step.permits_fail, fun _ => ?_⟩
    rw [Step.permits_bind]
    refine (h c).mono fun p s' hp => ?_
    simp only [Step.permits_bind, Step.permits_note, Step.permits_write, Step.permits_pure]
    exact fun _ _ _ => hp

/-- All that opening a frame does. -/
theorem start_permits (graph : Graph) (s : Scheduler σ Λ) :
    (start graph).Permits s fun p t =>
      p.Formed ∧ t = { s with frame? := some (.ofPlan graph p) } := by
  unfold start
  rw [Step.permits_bind, Step.permits_read]
  cases s.config? with
  | none => exact Step.permits_fail
  | some c =>
    rw [Step.permits_bind, Step.failIf, Step.permits_onlyIf]
    refine ⟨fun _ => Step.permits_fail, fun _ => ?_⟩
    rw [Step.permits_bind]
    refine (Plan.ofGraph_formed s.policy graph).mono ?_
    intro p s' hp
    rcases hp with ⟨rfl, hformed⟩
    simp only [Step.permits_bind, Step.permits_note]
    refine (warnUnreachable_permits p s').mono ?_
    intro _ s' hwarn
    rcases hwarn with ⟨rfl, us, hus⟩
    simp only [Step.permits_write, Step.permits_pure]
    exact ⟨hformed us hus, trivial⟩

/-- **A frame is opened** for every graph that is built and counted. -/
theorem start_ensures {graph : Graph} {c : Config} {s : Scheduler σ Λ}
    (hconfig : s.config? = some c) (hidle : s.frame? = none) (built : graph.Built)
    (countable : graph.Countable) (checked : c.check = .ok ()) (covers : c.Covers graph) :
    (start graph).Ensures s fun p t =>
      (∃ drafts, Plan.Drafted graph drafts p) ∧
        t = { s with frame? := some (.ofPlan graph p) } := by
  unfold start
  rw [Step.ensures_bind, Step.ensures_read, hconfig]
  have hopen : s.frame?.isSome = false := by rw [hidle]; rfl
  simp only [hopen, Step.failIf, Step.ensures_bind, Step.ensures_onlyIf_false]
  apply (Plan.ofGraph_ensures s.policy built countable checked covers).mono
  intro p s' hp
  rcases hp with ⟨rfl, drafts, hdrafts⟩
  obtain ⟨us, hus⟩ := hdrafts.unreachable
  simp only [Step.ensures_note]
  apply (warnUnreachable_ensures hus s').mono
  intro _ s' hs
  subst hs
  simp only [Step.ensures_write, Step.ensures_pure]
  exact ⟨⟨drafts, hdrafts⟩, trivial⟩

/-- A step of the open frame. -/
theorem ensures_inFrame {x : Backend σ Λ → Step (Live σ Λ) α} {s : Scheduler σ Λ} {f : Frame Λ}
    (hf : s.frame? = some f) {post : α → Scheduler σ Λ → Prop} :
    (inFrame x).Ensures s post ↔ (x s.backend).Ensures ⟨s.device, f⟩ fun a l =>
      post a { s with device := l.backend, frame? := some l.frame } := by
  unfold inFrame
  rw [Step.ensures_bind, Step.ensures_read, hf]
  exact Step.ensures_zoom

/-- A frame that has been opened is begun. -/
theorem begun_of_start {graph : Graph} {p : Plan} {s : Scheduler Memory MemoryList}
    (formed : p.Formed) (failing : s.device.failing = false) :
    Live.Begun ⟨s.device, .ofPlan graph p⟩ where
  formed := formed
  failing := failing
  progress := rfl
  executed := rfl
  cursor := rfl
  chain := rfl

end Scheduler

namespace Live

variable {l : Live Memory MemoryList}

/-- The frame and its submissions when all tasks are done. -/
def finished (l : Live Memory MemoryList) : Live Memory MemoryList :=
  l.after l.frame.plan.tasks l.frame.plan.handlers.length

/-- Whatever the order of the tasks, all of them lead to the end of the frame. -/
theorem Reached.finished {done : List Task} {l' : Live Memory MemoryList}
    (hl' : l.Reached done l') (formed : l.frame.plan.Formed)
    (hall : done.Perm l.frame.plan.tasks) : l' = l.finished := by
  have hmem : ∀ G i, (G, i) ∈ done ↔ (G, i) ∈ l.frame.plan.tasks := fun G i => hall.mem_iff
  have hprogress : ∀ G : Group, G.progressAt done = G.progressAt l.frame.plan.tasks := by
    intro G
    have hmissing : G.missing done = G.missing l.frame.plan.tasks := by
      ext i
      rw [Group.mem_missing, Group.mem_missing, hmem]
    rw [Group.progressAt, Group.progressAt, hmissing]
    simp only [hmem]
  rw [hl'.all formed fun t ht => hall.mem_iff.2 ht, Live.finished, after, after, Frame.filledBy,
    Frame.filledBy]
  simp only [hprogress]

/-- The end of a frame that has been recorded as a whole. -/
def completed (l : Live Memory MemoryList) : Live Memory MemoryList :=
  { l.finished with frame := l.finished.frame.markRecorded }

theorem submissions_completed : l.completed.backend.submissions =
    l.backend.submissions ++ l.frame.plan.handlers.map (·.submission) := by
  show l.backend.submissions ++ (l.frame.plan.handlers.take l.frame.plan.handlers.length).map _ = _
  rw [List.take_length]

/-- Every handler has submitted. -/
theorem executed_completed :
    l.completed.frame.executed = l.frame.plan.handlers.map fun _ => true := by
  show ((List.range l.frame.plan.handlers.length).map fun k =>
    decide (k < l.frame.plan.handlers.length)) = _
  apply List.ext_getElem (by simp)
  intro k hk _
  simpa using hk

/-- **A frame that has been begun is recorded to its end.** -/
theorem Begun.record (h : l.Begun) (hnew : l.frame.recorded = false) (policy : SchedulePolicy) :
    (Live.record Memory.backend policy).Ensures l fun _ l' => l' = l.completed := by
  -- the mark is set before the first task
  let marked : Live Memory MemoryList := { l with frame := l.frame.markRecorded }
  have hmarked : marked.Begun := { h with }
  have hrun : (Step.forEach (Live.recordTask Memory.backend) l.frame.plan.tasks).Ensures marked
      fun _ l' => l' = l.completed := by
    refine (hmarked.recordTasks (fun t ht => ht) h.formed.nodup_tasks (by simp)
      hmarked.reached).mono fun _ l' hl' => ?_
    rw [hl'.finished h.formed (by rw [List.append_nil]; exact List.reverse_perm _)]
    rfl
  unfold Live.record
  rw [Step.ensures_bind, Step.ensures_read]
  simp only [hnew, Step.failIf, Step.ensures_bind, Step.ensures_onlyIf_false, onFrame,
    Step.ensures_zoom, Step.ensures_modify]
  cases (decide (policy.job = .parallel)) with
  | false => exact Step.ensures_onlyIf_false.2 hrun
  | true =>
    rw [Step.ensures_onlyIf_true, Step.ensures_note]
    exact hrun

end Live

namespace Scheduler

variable {t : Scheduler Memory MemoryList} {l : Live Memory MemoryList}

/-- The scheduler with another state of its device and its open frame. -/
def withLive (t : Scheduler Memory MemoryList) (l : Live Memory MemoryList) :
    Scheduler Memory MemoryList :=
  { t with device := l.backend, frame? := some l.frame }

theorem ensures_withLive {α : Type}
    {x : Backend Memory MemoryList → Step (Live Memory MemoryList) α}
    (hbackend : t.backend = Memory.backend) {post : α → Scheduler Memory MemoryList → Prop} :
    (inFrame x).Ensures (t.withLive l) post ↔
      (x Memory.backend).Ensures l fun a m => post a (t.withLive m) := by
  rw [← hbackend]
  exact ensures_inFrame rfl

theorem record_ensures (hbackend : t.backend = Memory.backend) (begun : l.Begun)
    (hnew : l.frame.recorded = false) :
    (record : Step (Scheduler Memory MemoryList) Unit).Ensures (t.withLive l) fun _ u =>
      u = t.withLive l.completed := by
  unfold record
  rw [Step.ensures_bind, Step.ensures_read, ensures_withLive hbackend]
  exact (begun.record hnew t.policy).mono fun _ m hm => congrArg t.withLive hm

/-- A scheduler on the backend in memory, with one device. -/
def plain : Scheduler Memory MemoryList where
  backend := Memory.backend
  policy := .parallel
  device := {}
  config? := some .plain

end Scheduler

end FrameSchedule
