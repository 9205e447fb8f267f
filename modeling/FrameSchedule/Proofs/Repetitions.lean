import FrameSchedule.Proofs.Tallies

/-!
# Lists that are recorded again

A list that is in its slot is not recorded again: the attempt makes its calls to the backend,
ends at the guard, and leaves the frame as it is (`Live.Refuses`).  From when a list has been
recorded until the handler of its group submits, this is what comes of every attempt
(`Scheduler.recorded_lists_refused`).

The guard looks at the slot alone, and a submission empties the slots.  So behind the submission
a list is recorded once more, and the group counts one list too many
(`Scheduler.recorded_again_alone`).
-/

namespace FrameSchedule

variable {σ Λ : Type}

/-- A step that is known to return can be skipped. -/
theorem Step.leaves_bind_of_yields {α β : Type} {x : Step σ α} {f : α → Step σ β} {s t : σ} {a : α}
    (hx : x.Yields s a t) {post : β → σ → Prop} {halt : Stop → σ → Prop} :
    (x >>= f).Leaves s post halt ↔ (f a).Leaves t post halt := by
  obtain ⟨hresult, rfl⟩ := hx
  rw [leaves_bind]
  unfold Leaves
  rw [hresult]

/-! ## Attempts -/

namespace Live

variable {b : Backend σ Λ} {l : Live σ Λ} {G : Group} {q : Progress Λ} {i : Nat}

/-- An attempt to record list `i` of a group ends as its calls to the backend do if these stop,
and else because the list is there already.  Either way the frame stays as it is. -/
structure Refuses (b : Backend σ Λ) (l : Live σ Λ) (G : Group) (i : Nat) : Prop where
  result : ((recordList b G i).run l).result =
    ((produce b G i).run l).result.bind fun _ => .error (.fault (.listRecordedTwice i G.label))
  frame : ((recordList b G i).run l).state.frame = l.frame

/-- An attempt to record list `i` of a group, of which `q` has been recorded, ends as its calls
to the backend do, and stores the list if these return one. -/
structure Stores (b : Backend σ Λ) (l : Live σ Λ) (G : Group) (q : Progress Λ) (i : Nat) :
    Prop where
  result : ((recordList b G i).run l).result =
    ((produce b G i).run l).result.map fun _ => decide (q.remaining = 1)
  frame : ((recordList b G i).run l).state.frame =
    match ((produce b G i).run l).result with
    | .ok list => l.frame.setProgress G (q.fill i list)
    | .error _ => l.frame

/-- The calls to the backend come first, and then the list is stored. -/
theorem run_recordList (b : Backend σ Λ) (l : Live σ Λ) (hi : i < G.lists.toNat) :
    (recordList b G i).run l = ((produce b G i).run l).andThen fun list =>
      (onFrame (Frame.store G i list)).run := by
  have hrange : decide (G.lists.toNat ≤ i) = false := decide_eq_false (Nat.not_le_of_lt hi)
  rw [recordList_eq, hrange]
  rfl

theorem lt_of_recordList {last : Bool} {l' : Live σ Λ} (h : (recordList b G i).Yields l last l') :
    i < G.lists.toNat := by
  rw [recordList_eq] at h
  obtain ⟨_, _, hrange, -⟩ := Step.yields_bind.1 h
  by_contra hnot
  rw [decide_eq_true (Nat.le_of_not_lt hnot)] at hrange
  exact Step.not_yields_of_run (Step.run_abort _) hrange

/-- **The guard** looks at the slot, and at nothing else. -/
theorem attempt (hq : l.frame.progress[G.index]? = some q) (hi : i < G.lists.toNat)
    (b : Backend σ Λ) :
    (q.filled i = true → l.Refuses b G i) ∧ (q.filled i = false → l.Stores b G q i) := by
  have hframe : ((produce b G i).run l).state.frame = l.frame := (produce_leaves b G i l).state
  have hrun := run_recordList b l hi
  rcases hcalls : (produce b G i).run l with ⟨l', journal, stop | list⟩
  · rw [hcalls] at hrun hframe
    refine ⟨fun _ => ⟨?_, ?_⟩, fun _ => ⟨?_, ?_⟩⟩
    · rw [hrun, hcalls]
      rfl
    · rw [hrun]
      exact hframe
    · rw [hrun, hcalls]
      rfl
    · rw [hrun, hcalls]
      exact hframe
  · rw [hcalls] at hrun hframe
    rw [← hframe] at hq
    have hstore := Frame.run_store hq i list
    simp only [Outcome.andThen, onFrame, Step.run_zoom, hstore] at hrun
    refine ⟨fun hfilled => ?_, fun hnew => ?_⟩
    · rw [if_pos hfilled] at hrun
      refine ⟨?_, ?_⟩
      · rw [hrun, hcalls]
        rfl
      · rw [hrun]
        exact hframe
    · rw [if_neg (Bool.eq_false_iff.1 hnew)] at hrun
      refine ⟨?_, ?_⟩
      · rw [hrun, hcalls]
        rfl
      · rw [hrun, hcalls]
        exact congrArg (Frame.setProgress G (q.fill i list)) hframe

end Live

/-! ## Recordings within requests -/

/-- The lists that a request is to record. -/
def Request.tasks (r : Request) (f : Frame Λ) : List Task :=
  match r with
  | .record => if f.recorded then [] else f.plan.tasks
  | .recordList index list => (f.plan.groups[index]?.map (·, list)).toList
  | .recordGroup index => (f.plan.groups[index]?.map (·.tasks)).getD []
  | .executeGroup _ => []

/-- The state from which a request records its lists. -/
def Request.begun (r : Request) (l : Live σ Λ) : Live σ Λ :=
  match r with
  | .record => { l with frame := l.frame.markRecorded }
  | _ => l

/-- In the course of a request that is served from `l` on, a list is recorded, from `m` on. -/
structure Request.Records (r : Request) (b : Backend σ Λ) (l : Live σ Λ) (t : Task)
    (m : Live σ Λ) : Prop where
  reached : ∃ before after, r.tasks l.frame = before ++ t :: after ∧
    (Step.forEach (Live.recordTask b) before).Yields (r.begun l) () m
  recorded : ∃ last m', (Live.recordList b t.1 t.2).Yields m last m'

namespace Live

variable {b : Backend σ Λ} {policy : SchedulePolicy} {r : Request} {l m : Live σ Λ} {t : Task}
  {p : Plan} {H : Handler} {k : Nat}

/-- A request that has lists to record goes through them in order. -/
theorem leaves_serve_of_tasks (hsome : r.tasks l.frame ≠ []) {post : Unit → Live σ Λ → Prop}
    {halt : Stop → Live σ Λ → Prop} : (serve b policy r).Leaves l post halt ↔
      (Step.forEach (recordTask b) (r.tasks l.frame)).Leaves (r.begun l) post halt := by
  cases r with
  | record =>
    have hnew : l.frame.recorded = false := by
      cases hmark : l.frame.recorded with
      | true => exact (hsome (if_pos hmark)).elim
      | false => rfl
    simp only [serve, record, Step.leaves_bind, Step.leaves_read, Step.leaves_failIf, onFrame,
      Step.leaves_zoom, Step.leaves_modify, Step.leaves_onlyIf, Step.leaves_note, Request.tasks,
      Request.begun, hnew, Bool.false_eq_true, if_false, false_implies, true_and, forall_const]
    exact ⟨fun h => (Bool.eq_false_or_eq_true _).elim h.1 h.2, fun h => ⟨fun _ => h, fun _ => h⟩⟩
  | recordList index list =>
    cases hG : l.frame.plan.groups[index]? with
    | none => exact (hsome (by rw [Request.tasks, hG]; rfl)).elim
    | some G =>
      simp only [serve, group, Step.leaves_bind, Step.leaves_read, hG, Step.leaves_pure,
        Request.tasks, Request.begun, Option.map_some, Option.toList_some, Step.forEach]
  | recordGroup index =>
    cases hG : l.frame.plan.groups[index]? with
    | none => exact (hsome (by rw [Request.tasks, hG]; rfl)).elim
    | some G =>
      simp only [serve, recordGroup, group, Step.leaves_discard, Step.leaves_bind,
        Step.leaves_read, hG, Step.leaves_pure, Request.tasks, Request.begun, Option.map_some,
        Option.getD_some]
  | executeGroup index => exact (hsome rfl).elim

end Live

/-! ## From one recording to the next -/

/-- Whether the handler of a list has submitted has been `executed` when the list was recorded.
As long as this is so, the list is in its slot. -/
def Progress.Retains (t : Task) (executed now : Bool) (G : Group) (q : Progress Λ) : Prop :=
  G = t.1 → (executed = true → now = true) ∧ (now = executed → q.filled t.2 = true)

theorem Progress.lasting_retains (t : Task) (executed : Bool) :
    Progress.Lasting (Λ := Λ) (Progress.Retains t executed) where
  fill list h hi _ hG := by
    obtain ⟨hmark, hkept⟩ := h hG
    refine ⟨hmark, fun hnow => ?_⟩
    rw [Progress.filled_fill hi, hkept hnow, Bool.or_true]
  emptied h hG := by
    obtain ⟨hmark, -⟩ := h hG
    exact ⟨fun _ => rfl, fun hexecuted => by cases hmark hexecuted.symm⟩

namespace Live

variable {b : Backend σ Λ} {policy : SchedulePolicy} {r : Request} {l m m' : Live σ Λ} {t : Task}
  {p : Plan} {H : Handler} {k : Nat} {P : Bool → Group → Progress Λ → Prop}

/-- A list that has been recorded is in its slot. -/
theorem Tallied.recorded (h : m.Tallied p P) (formed : p.Formed) (hH : p.handlers[k]? = some H)
    (ht : t.1 ∈ H.groups) {last : Bool} (hlist : (recordList b t.1 t.2).Yields m last m') :
    m'.Tallied p (Progress.Retains t (m.frame.handlerExecuted k)) := by
  obtain ⟨q, hq, -, -⟩ := h.slots hH t.1 ht
  obtain ⟨hi, -, -, list, hframe⟩ := (recordList_leaves_of hq b t.2).of_yields hlist
  refine h.stored formed hH ht hq (fun hlength _ _ => ⟨fun hexecuted => hexecuted, fun _ => ?_⟩)
    (fun hother _ hsame => (hother hsame).elim) hframe
  rw [Progress.filled_fill (hlength ▸ hi), decide_eq_true rfl, Bool.true_or]

/-- The lists of a request are those of groups of the plan. -/
theorem Tallied.mem_groups (h : l.Tallied p P) (ht : t ∈ r.tasks l.frame) : t.1 ∈ p.groups := by
  obtain rfl := h.plan
  cases r with
  | record =>
    rw [Request.tasks] at ht
    split at ht
    · cases ht
    · exact (Plan.mem_tasks.1 ht).1
  | recordList index list =>
    obtain ⟨G, hG, rfl⟩ := Option.map_eq_some_iff.1 (Option.mem_toList.1 ht)
    exact List.mem_of_getElem? hG
  | recordGroup index =>
    rw [Request.tasks] at ht
    cases hG : l.frame.plan.groups[index]? with
    | none =>
      rw [hG] at ht
      cases ht
    | some G =>
      rw [hG] at ht
      obtain ⟨i, -, rfl⟩ := List.mem_map.1 ht
      exact List.mem_of_getElem? hG
  | executeGroup index => cases ht

theorem Tallied.begun (h : l.Tallied p P) (r : Request) : (r.begun l).Tallied p P := by
  cases r with
  | record => exact { h with }
  | recordList index list => exact h
  | recordGroup index => exact h
  | executeGroup index => exact h

/-- **A request in whose course a list is recorded** leaves it in its slot, until the handler
submits. -/
theorem Tallied.serve (h : l.Tallied p P) (lasting : Progress.Lasting P) (formed : p.Formed)
    (hrecords : r.Records b l t m) (hH : p.handlers[k]? = some H) (ht : t.1 ∈ H.groups) :
    (Live.serve b policy r).Leaves l
      (fun _ => Tallied p (Progress.Retains t (m.frame.handlerExecuted k)))
      fun _ => Tallied p (Progress.Retains t (m.frame.handlerExecuted k)) := by
  obtain ⟨⟨before, after, htasks, hbefore⟩, last, m', hlist⟩ := hrecords
  have hgroups : ∀ t' ∈ before ++ t :: after, t'.1 ∈ p.groups :=
    fun t' ht' => h.mem_groups (htasks ▸ ht')
  have hm : m.Tallied p P := ((stable lasting formed b).recordTasks (h.begun r)
    fun t' ht' => hgroups t' (List.mem_append_left _ ht')).of_yields hbefore
  have hm' := hm.recorded formed hH ht hlist
  -- behind the recording, the rest of the request keeps the list in its slot
  have hstable := stable (Progress.lasting_retains t (m.frame.handlerExecuted k)) formed b
  have hrest : ∀ {l' : Live σ Λ},
      l'.Tallied p (Progress.Retains t (m.frame.handlerExecuted k)) →
        (Step.forEach (recordTask b) after).Leaves l'
          (fun _ => Tallied p (Progress.Retains t (m.frame.handlerExecuted k)))
          fun _ => Tallied p (Progress.Retains t (m.frame.handlerExecuted k)) :=
    fun hl' => (hstable.recordTasks hl' fun t' ht' =>
      hgroups t' (List.mem_append_right _ (List.mem_cons_of_mem t ht'))).mono
        (fun _ _ h' => h') fun _ _ h' => h'.1
  have hsome : r.tasks l.frame ≠ [] := by
    rw [htasks]
    exact List.append_ne_nil_of_right_ne_nil _ (List.cons_ne_nil _ _)
  rw [leaves_serve_of_tasks hsome, htasks, Step.forEach_append,
    Step.leaves_bind_of_yields hbefore, Step.forEach, recordTask, Step.leaves_bind,
    Step.leaves_bind_of_yields hlist]
  cases last with
  | false => exact hrest hm'
  | true =>
    refine (hstable.executeGroup hm' t.1.index).mono (fun _ l' hl' => ?_) fun _ _ hl' => ?_
    · exact hrest hl'
    · exact hl'.1

end Live

namespace Scheduler

variable {s t : Scheduler σ Λ} {graph : Graph} {p : Plan}

theorem put_inj {l l' : Live σ Λ} (h : s.put l = s.put l') : l = l' := by
  cases l
  cases l'
  cases h
  rfl

/-- **A request that returns** has recorded all its lists. -/
theorem records_of_serve {r : Request} {l : Live σ Λ} {task : Task}
    (hserve : ((serve r).run (s.put l)).result = .ok ()) (htask : task ∈ r.tasks l.frame) :
    ∃ m, r.Records s.backend l task m := by
  obtain ⟨before, after, htasks⟩ := List.append_of_mem htask
  have hreturns : (serve r).Leaves (s.put l) (fun _ _ => True) fun _ _ => False := by
    unfold Step.Leaves
    rw [hserve]
    trivial
  have hloop := (Live.leaves_serve_of_tasks (List.ne_nil_of_mem htask)).1
    ((leaves_serve r).1 hreturns)
  obtain ⟨l₁, hall⟩ : ∃ l₁, (Step.forEach (Live.recordTask s.backend) (r.tasks l.frame)).Yields
      (r.begun l) () l₁ :=
    hloop.elim (fun _ hresult _ => ⟨_, hresult, rfl⟩) fun _ _ hfalse => hfalse.elim
  rw [htasks, Step.forEach_append] at hall
  obtain ⟨_, m, hbefore, hrest⟩ := Step.yields_bind.1 hall
  obtain ⟨_, m₁, hrecord, -⟩ := Step.yields_bind.1 hrest
  obtain ⟨last, m₂, hlist, -⟩ := Step.yields_bind.1 hrecord
  exact ⟨m, ⟨before, after, htasks, hbefore⟩, last, m₂, hlist⟩

/-- Behind a request in whose course a list has been recorded, the list stays in its slot until
the handler submits. -/
theorem through_retains (formed : p.Formed) {l m : Live σ Λ}
    {P : Bool → Group → Progress Λ → Prop} (h : l.Tallied p P) (lasting : Progress.Lasting P)
    {r : Request} {task : Task} (hrecords : r.Records s.backend l task m) {k : Nat} {H : Handler}
    (hH : p.handlers[k]? = some H) (htask : task.1 ∈ H.groups) (after : List Event) :
    ∃ l', (s.put l).through (.request r :: after) = s.put l' ∧
      l'.Tallied p (Progress.Retains task (m.frame.handlerExecuted k)) := by
  obtain ⟨l₁, hstate, h₁⟩ : ∃ l₁, ((meet (.request r)).run (s.put l)).state = s.put l₁ ∧
      l₁.Tallied p (Progress.Retains task (m.frame.handlerExecuted k)) := by
    have hserve : (serve r).Leaves (s.put l)
        (fun _ s' => ∃ l₁, s' = s.put l₁ ∧
          l₁.Tallied p (Progress.Retains task (m.frame.handlerExecuted k)))
        fun _ s' => ∃ l₁, s' = s.put l₁ ∧
          l₁.Tallied p (Progress.Retains task (m.frame.handlerExecuted k)) := by
      rw [leaves_serve]
      exact (h.serve lasting formed hrecords hH htask).mono (fun _ l₁ h₁ => ⟨l₁, rfl, h₁⟩)
        fun _ l₁ h₁ => ⟨l₁, rfl, h₁⟩
    exact hserve.state
  obtain ⟨l₂, hrun, h₂⟩ := (Live.Tallied.stable (Progress.lasting_retains task
    (m.frame.handlerExecuted k)) formed s.backend).through rfl h₁ after
  refine ⟨l₂, ?_, h₂⟩
  rw [← hrun, ← hstate]
  rfl

/-- **A list is not recorded twice** until its handler submits.  Let a list be recorded in the
course of some request to an open frame.  However the frame goes on, and whatever its backend
refuses or breaks off, an attempt to record the list again is refused, as long as the handler has
not submitted, or had done so before.  In any case an attempt is refused if the list is in its
slot, and stores the list if it is not. -/
theorem recorded_lists_refused (hstart : (start graph).Yields s p t) (before : List Event)
    (r : Request) (after : List Event) :
    ∃ l m, t.through before = t.put l ∧ t.through (before ++ .request r :: after) = t.put m ∧
      (∀ task m₀, r.Records s.backend l task m₀ → ∀ k H, p.handlers[k]? = some H →
        task.1 ∈ H.groups →
          m.frame.handlerExecuted k = false ∨ m₀.frame.handlerExecuted k = true →
            m.Refuses s.backend task.1 task.2) ∧
      ∀ G ∈ p.groups, ∃ q, m.frame.progress[G.index]? = some q ∧ ∀ i < G.lists.toNat,
        (q.filled i = true → m.Refuses s.backend G i) ∧
          (q.filled i = false → m.Stores s.backend G q i) := by
  obtain ⟨formed, hopened⟩ := start_permits graph s p t hstart
  have hbackend : t.backend = s.backend := by rw [hopened]
  have lasting : Progress.Lasting (Λ := Λ) fun _ _ _ => True :=
    ⟨fun _ _ _ _ => trivial, fun _ => trivial⟩
  have hblank : ∀ G : Group, G.lists ≠ 0 → True := fun _ _ => trivial
  obtain ⟨l, hbefore, hl⟩ := through_tallied lasting hblank hstart before
  obtain ⟨m, hall, hm⟩ := through_tallied lasting hblank hstart (before ++ .request r :: after)
  refine ⟨l, m, hbefore, hall, fun task m₀ hrecords k H hH htask hmark => ?_, fun G hG => ?_⟩
  · rw [← hbackend] at hrecords
    obtain ⟨m', hrest, hm'⟩ := through_retains formed hl lasting hrecords hH htask after
    have hput : t.put m = t.put m' := by
      rw [← hall, ← hrest, ← hbefore, through, List.foldl_append]
      rfl
    obtain rfl := put_inj hput
    obtain ⟨q, hq, -, hretains⟩ := hm'.slots hH task.1 htask
    obtain ⟨hlater, hfilled⟩ := hretains rfl
    have hsame : m.frame.handlerExecuted k = m₀.frame.handlerExecuted k := by
      rcases hmark with hnew | hold
      · rw [hnew] at hlater ⊢
        exact (Bool.eq_false_iff.2 fun hold => Bool.false_ne_true (hlater hold)).symm
      · rw [hlater hold, hold]
    obtain ⟨last, m₁, hlist⟩ := hrecords.recorded
    exact (Live.attempt hq (Live.lt_of_recordList hlist) s.backend).1 (hfilled hsame)
  · obtain ⟨k, H, hH, hmem⟩ := formed.exists_handler hG
    obtain ⟨q, hq, -, -⟩ := hm.slots hH G hmem
    exact ⟨q, hq, fun i hi => Live.attempt hq hi s.backend⟩

/-- The split scope of the short frame is recorded before the first group, so its handler has to
wait, and its first list cannot be recorded again. -/
theorem recorded_lists_refused_short :
    ∃ p t m G, (start .short).Yields plain p t ∧
      t.through [.request (.recordGroup 1), .request (.executeGroup 1)] = t.put m ∧
        p.groups[1]? = some G ∧ 1 < G.lists.toNat ∧ m.Refuses plain.backend G 0 := by
  obtain ⟨p, t, hstart, -⟩ := start_ensures (s := plain) rfl rfl Graph.short_built
    Graph.short_countable rfl Config.plain_covers
  obtain ⟨l, m, hbefore, hrun, hrefused, -⟩ := recorded_lists_refused hstart [] (.recordGroup 1)
    [.request (.executeGroup 1)]
  obtain ⟨formed, hopened⟩ := start_permits .short plain p t hstart
  have hplan : l.frame.plan = p := by
    have hframe := congrArg (·.frame?.map (·.plan)) (hbefore.symm.trans hopened)
    exact Option.some_inj.1 hframe
  obtain ⟨hresult, rfl⟩ := id hstart
  obtain ⟨G, hG, hlists⟩ : ∃ G, p.groups[1]? = some G ∧ 1 < G.lists.toNat := by
    have hsplit : (((start .short).run plain).result.toOption.bind (·.groups[1]?)).any
        (1 < ·.lists.toNat) := by decide +kernel
    rw [hresult] at hsplit
    obtain ⟨G, hG, hlists⟩ := (Option.any_eq_true _ _).1 hsplit
    exact ⟨G, hG, of_decide_eq_true hlists⟩
  have hserve : ((serve (.recordGroup 1)).run (((start .short).run plain).state.put l)).result =
      .ok () := by
    rw [← hbefore]
    decide +kernel
  have htask : (G, 0) ∈ Request.tasks (.recordGroup 1) l.frame := by
    rw [Request.tasks, hplan, hG]
    exact List.mem_map_of_mem (List.mem_range.2 (Nat.lt_of_succ_lt hlists))
  obtain ⟨m₀, hrecords⟩ := records_of_serve hserve htask
  have hbackend : ((start .short).run plain).state.backend = plain.backend := by rw [hopened]
  rw [hbackend] at hrecords
  obtain ⟨k, H, hH, hmem⟩ := formed.exists_handler (List.mem_of_getElem? hG)
  have hexecuted : m.frame.executed = List.replicate 3 false :=
    Option.some_inj.1 ((congrArg (·.frame?.map (·.executed)) hrun).symm.trans (by decide +kernel))
  have hnew : m.frame.handlerExecuted k = false := by
    rw [Frame.handlerExecuted, hexecuted, List.getElem?_replicate]
    split <;> rfl
  exact ⟨p, _, m, G, hstart, hrun, hG, hlists,
    hrefused (G, 0) m₀ hrecords k H hH hmem (.inl hnew)⟩

/-- One scope. -/
def alone : Graph :=
  ((Graph.addAll [{ name := "a" }]).run {}).state

/-- Behind its submission the only list of a frame is recorded once more: the request returns,
the slot is filled again, and the group has one list less than none still to come. -/
theorem recorded_again_alone :
    ∃ p t, (start alone).Yields plain p t ∧ (record.run t).result = .ok () ∧
      (record.run t).state.frame?.map (fun f => (f.executed, f.progress.map fun q =>
        (q.vacant, q.remaining, q.complete))) = some ([true], [(1, 0, true)]) ∧
        ((recordGroup 0).run (record.run t).state).result = .ok true ∧
          ((recordGroup 0).run (record.run t).state).state.frame?.map (fun f =>
            (f.executed, f.progress.map fun q => (q.vacant, q.remaining, q.complete))) =
              some ([true], [(0, 4294967295, true)]) := by
  have built : alone.Built := Graph.Built.empty.addAll _ () _ ⟨rfl, rfl⟩
  obtain ⟨p, t, hstart, -⟩ := start_ensures (s := plain) rfl rfl built
    ⟨by decide, by decide, by decide⟩ rfl (by unfold Config.Covers; decide)
  obtain ⟨-, rfl⟩ := id hstart
  refine ⟨p, _, hstart, ?_⟩
  decide +kernel

end Scheduler

end FrameSchedule
