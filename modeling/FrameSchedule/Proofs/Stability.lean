import FrameSchedule.Proofs.Retirement

/-!
# What the steps of an open frame keep

An open frame changes in a few ways only: a list is recorded, the handler at the cursor
retires, the frame is marked as recorded, somebody else signals its trackers.  What each of
these keeps (`Live.Stable`) every request keeps, whatever it ends in, and so does every
sequence of events (`Live.Stable.through`).
-/

namespace FrameSchedule

namespace Live

variable {σ Λ : Type} {b : Backend σ Λ} {p : Plan} {inv : Live σ Λ → Prop} {ok : Stop → Prop}
  {l : Live σ Λ} {s : Scheduler σ Λ}

/-- The steps that calls to an open frame are made of keep `inv`, also where they stop, and
stop only for reasons that are `ok`. -/
structure Stable (b : Backend σ Λ) (p : Plan) (inv : Live σ Λ → Prop) (ok : Stop → Prop) :
    Prop where
  formed : p.Formed
  plan : ∀ {l}, inv l → l.frame.plan = p
  refuse : ∀ e, ok (.error e)
  mark : ∀ {l}, inv l → inv { l with frame := l.frame.markRecorded }
  disturb : ∀ {l} (chain? : Option Chain), inv l →
    inv { l with frame := { l.frame with chain? := chain? } }
  recordList : ∀ {l} {G : Group} (i : Nat), inv l → G ∈ p.groups →
    (recordList b G i).Leaves l (fun _ => inv) fun stop l' => inv l' ∧ ok stop
  /-- A complete handler at the cursor retires. -/
  retireOne : ∀ {l} {H : Handler}, inv l → p.handlers[l.frame.cursor]? = some H →
    l.frame.handlerComplete H = true →
      (do onFrame (Step.modify (Frame.retired l.frame.cursor))
          submit b l.frame.cursor H).Leaves l
        (fun _ l' => inv l' ∧ l'.frame.cursor = l.frame.cursor + 1)
        fun stop l' => inv l' ∧ ok stop

namespace Stable

theorem executeGroup (h : Stable b p inv ok) (hl : inv l) (k : Nat) :
    (Live.executeGroup b k).Leaves l (fun _ => inv) fun stop l' => inv l' ∧ ok stop := by
  have hplan := h.plan hl
  refine executeGroup_leaves (hplan ▸ h.formed) hl (fun e => ⟨hl, h.refuse e⟩) ?_ k
  unfold Live.retire
  rw [Step.leaves_bind, Step.leaves_read]
  exact retireFrom_leaves inv h.retireOne (fun hl' _ => hl') hl (by rw [hplan])

theorem recordTask (h : Stable b p inv ok) (hl : inv l) {t : Task} (ht : t.1 ∈ p.groups) :
    (Live.recordTask b t).Leaves l (fun _ => inv) fun stop l' => inv l' ∧ ok stop := by
  unfold Live.recordTask
  rw [Step.leaves_bind]
  refine (h.recordList t.2 hl ht).mono (fun last l' hl' => ?_) fun _ _ hstop => hstop
  cases last with
  | false => exact hl'
  | true => exact h.executeGroup hl' t.1.index

theorem recordTasks (h : Stable b p inv ok) (hl : inv l) {ts : List Task}
    (hts : ∀ t ∈ ts, t.1 ∈ p.groups) : (Step.forEach (Live.recordTask b) ts).Leaves l
      (fun _ => inv) fun stop l' => inv l' ∧ ok stop :=
  Step.Leaves.forEach (fun t ht _ hl => h.recordTask hl (hts t ht)) hl

/-- **A request** keeps what the steps keep. -/
theorem serve (h : Stable b p inv ok) (hl : inv l) (policy : SchedulePolicy) (r : Request) :
    (Live.serve b policy r).Leaves l (fun _ => inv) fun stop l' => inv l' ∧ ok stop := by
  have hplan := h.plan hl
  refine serve_leaves hl (fun e => ⟨hl, h.refuse e⟩) (h.mark hl) (fun hl' ht => ?_) (fun k => ?_)
    policy r
  · exact h.recordTask hl' (hplan ▸ ht)
  · exact h.executeGroup hl k

/-- **An event** keeps what the steps keep. -/
theorem meet (h : Stable b p inv ok) (hbackend : s.backend = b) (hl : inv l) (e : Event) :
    (Scheduler.meet e).Leaves (s.put l) (fun _ s' => ∃ l', s' = s.put l' ∧ inv l')
      fun stop s' => (∃ l', s' = s.put l' ∧ inv l') ∧ ok stop := by
  cases e with
  | request r =>
    subst hbackend
    exact (Scheduler.leaves_serve r).2 ((h.serve hl s.policy r).mono
      (fun _ l' hl' => ⟨l', rfl, hl'⟩) fun _ l' hl' => ⟨⟨l', rfl, hl'.1⟩, hl'.2⟩)
  | disturb chain =>
    refine (Scheduler.leaves_disturb chain).mono (fun _ s' hs' => ?_) fun _ _ hfalse => hfalse
    rcases hs' with ⟨chain?, rfl⟩
    exact ⟨_, rfl, h.disturb chain? hl⟩

/-- **Events in any order** keep what the steps keep. -/
theorem through (h : Stable b p inv ok) (hbackend : s.backend = b) (hl : inv l)
    (events : List Event) : ∃ l', (s.put l).through events = s.put l' ∧ inv l' := by
  induction events generalizing l with
  | nil => exact ⟨l, rfl, hl⟩
  | cons e es ih =>
    obtain ⟨l₁, hstate, hl₁⟩ : ∃ l', ((Scheduler.meet e).run (s.put l)).state = s.put l' ∧
        inv l' :=
      (h.meet hbackend hl e).elim (fun _ _ hpost => hpost) fun _ _ hhalt => hhalt.1
    obtain ⟨l₂, hrun, hl₂⟩ := ih hl₁
    refine ⟨l₂, ?_, hl₂⟩
    rw [← hrun, ← hstate]
    rfl

end Stable

end Live

end FrameSchedule
