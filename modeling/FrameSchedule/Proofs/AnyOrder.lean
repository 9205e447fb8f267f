import FrameSchedule.Proofs.Frames

/-!
# Recording in any order

A frame that has been opened ends in one way: whatever the order in which its tasks
are recorded, and wherever groups ask for execution in between, the submissions, the
handlers executed and the trackers are those of recording it as a whole
(`Scheduler.agrees_of_perm`).
-/

namespace FrameSchedule

/-! ## Groups recorded as a whole -/

namespace Live

variable {l : Live Memory MemoryList} {done : List Task}

/-- A group of which nothing has been recorded is recorded as a whole. -/
theorem Ready.recordGroup (h : l.Ready) {k : Nat} {G : Group}
    (hG : l.frame.plan.groups[k]? = some G) (hnew : ∀ t ∈ G.tasks, t ∉ done)
    {l' : Live Memory MemoryList} (hl' : l.Reached done l') :
    (Live.recordGroup Memory.backend k).Ensures l' fun complete m =>
      complete = true ∧ l.Reached (G.tasks.reverse ++ done) m := by
  have hmem := List.mem_of_getElem? hG
  have htasks : ∀ t ∈ G.tasks, t ∈ l.frame.plan.tasks :=
    fun t ht => List.mem_flatMap.2 ⟨G, hmem, ht⟩
  have hnodup : G.tasks.Nodup := List.nodup_range.map fun i j hij => (Prod.mk.inj hij).2
  have hplan : l'.frame.plan = l.frame.plan := by
    rcases hl' with ⟨c, -, rfl⟩
    rfl
  rw [Live.recordGroup, Live.group, Step.ensures_bind, Step.ensures_bind, Step.ensures_read, hplan,
    hG, Step.ensures_pure, Step.ensures_bind]
  apply (h.recordTasks htasks hnodup hnew hl').mono
  intro _ m hm
  rw [Step.ensures_bind, Step.ensures_read, Step.ensures_pure]
  refine ⟨?_, hm⟩
  rcases hm with ⟨c, -, rfl⟩
  rw [after, Frame.groupComplete_filledBy (f := l.frame.retiredTo c) h.formed hmem,
    decide_eq_true_iff, Group.card_missing_eq_zero_iff]
  intro i hi
  refine List.mem_append_left _ (List.mem_reverse.2 ?_)
  exact List.mem_map.2 ⟨i, List.mem_range.2 hi, rfl⟩

end Live

/-- The tasks of the group at a position. -/
def Plan.tasksAt (p : Plan) (k : Nat) : List Task :=
  (p.groups[k]?.map (·.tasks)).getD []

/-- Groups in any order have the tasks of the plan. -/
theorem Plan.tasks_perm {p : Plan} {ks : List Nat} (h : ks.Perm (List.range p.groups.length)) :
    (ks.flatMap p.tasksAt).Perm p.tasks := by
  refine (h.flatMap_right _).trans (List.Perm.of_eq ?_)
  rw [tasks, List.flatMap_def, List.flatMap_def]
  refine congrArg List.flatten (List.ext_getElem (by simp) fun k hk _ => ?_)
  have hlt : k < p.groups.length := by simpa using hk
  rw [List.getElem_map, List.getElem_map, List.getElem_range, tasksAt,
    List.getElem?_eq_getElem hlt]
  rfl

namespace Scheduler

/-- Acts on the open frame, one after the other. -/
def perform {σ Λ : Type} (acts : List Live.Act) : Step (Scheduler σ Λ) Unit :=
  inFrame fun b => Step.forEach (Live.Act.step b) acts

/-- Groups recorded as a whole, one after the other. -/
def recordGroups {σ Λ : Type} (ks : List Nat) : Step (Scheduler σ Λ) Unit :=
  Step.forEach (fun k => discard (recordGroup k)) ks

/-- Two schedulers have made the same submissions in the same order, and agree on the
handlers executed and on all trackers of their open frames. -/
structure Agrees (u v : Scheduler Memory MemoryList) : Prop where
  submissions : u.device.submissions = v.device.submissions
  frames : ∃ f f', u.frame? = some f ∧ v.frame? = some f' ∧ f.executed = f'.executed ∧
    f.chain? = f'.chain?

variable {t : Scheduler Memory MemoryList} {l : Live Memory MemoryList}

/-- All groups recorded as a whole, in any order, lead to the end of the frame. -/
theorem recordGroups_ensures (hbackend : t.backend = Memory.backend) (begun : l.Begun)
    {ks : List Nat} (hks : ks.Perm (List.range l.frame.plan.groups.length)) :
    (recordGroups ks).Ensures (t.withLive l) fun _ u => u = t.withLive l.finished := by
  -- the tasks done and those of the groups still to come make up the plan
  refine (Step.Ensures.forEach (fun rest u => ∃ done l', u = t.withLive l' ∧ l.Reached done l' ∧
    (done ++ rest.flatMap l.frame.plan.tasksAt).Perm l.frame.plan.tasks ∧
      ∀ k ∈ rest, k < l.frame.plan.groups.length) ?_ ⟨[], l, rfl, begun.reached,
        Plan.tasks_perm hks, fun k hk => List.mem_range.1 (hks.mem_iff.1 hk)⟩).mono ?_
  · intro k rest _ hinv
    rcases hinv with ⟨done, l', rfl, hl', hperm, hvalid⟩
    obtain ⟨G, hG⟩ : ∃ G, l.frame.plan.groups[k]? = some G :=
      ⟨_, List.getElem?_eq_getElem (hvalid k List.mem_cons_self)⟩
    have htasks : l.frame.plan.tasksAt k = G.tasks := by
      rw [Plan.tasksAt, hG]
      rfl
    rw [List.flatMap_cons, htasks] at hperm
    have hnodup := hperm.nodup_iff.2 begun.formed.nodup_tasks
    have hnew : ∀ t ∈ G.tasks, t ∉ done := fun t ht hdone =>
      (List.nodup_append.1 hnodup).2.2 t hdone t (List.mem_append_left _ ht) rfl
    rw [Step.ensures_discard, recordGroup, ensures_withLive hbackend]
    apply (begun.recordGroup hG hnew hl').mono
    intro _ m hgroup
    rcases hgroup with ⟨-, hm⟩
    refine ⟨_, m, rfl, hm, ?_, fun k hk => hvalid k (List.mem_cons_of_mem _ hk)⟩
    have hgroup : (G.tasks.reverse ++ done).Perm (done ++ G.tasks) :=
      List.perm_append_comm.trans ((List.reverse_perm _).append_left done)
    rw [← List.append_assoc] at hperm
    exact (hgroup.append_right _).trans hperm
  · intro _ u hinv
    rcases hinv with ⟨done, l', rfl, hl', hperm, -⟩
    rw [List.flatMap_nil, List.append_nil] at hperm
    rw [hl'.finished begun.formed hperm]

/-- The tasks of a frame in any order, with calls to execute groups anywhere, lead to the
end of the frame. -/
theorem perform_ensures (hbackend : t.backend = Memory.backend) (begun : l.Begun)
    {acts : List Live.Act} (htasks : (acts.filterMap Live.Act.task?).Perm l.frame.plan.tasks)
    (hgroups : ∀ k, Live.Act.execute k ∈ acts → k < l.frame.plan.groups.length) :
    (perform acts).Ensures (t.withLive l) fun _ u => u = t.withLive l.finished := by
  have hvalid : ∀ act ∈ acts, act.Valid l.frame.plan := by
    intro act hact
    cases act with
    | execute k => exact hgroups k hact
    | record task => exact htasks.mem_iff.1 (List.mem_filterMap.2 ⟨_, hact, rfl⟩)
  have hnodup := htasks.nodup_iff.2 begun.formed.nodup_tasks
  rw [perform, ensures_withLive hbackend]
  apply (begun.perform hvalid hnodup (by simp) begun.reached).mono
  intro _ m hm
  rw [hm.finished begun.formed]
  rw [List.append_nil]
  exact (List.reverse_perm _).trans htasks

/-- **Every order leads to what recording the frame as a whole leads to.** -/
theorem agrees_of_perm {s : Scheduler Memory MemoryList} {graph : Graph} {p : Plan}
    (hbackend : s.backend = Memory.backend) (hfailing : s.device.failing = false)
    (hstart : (start graph).Yields s p t) :
    ∃ u, record.Yields t () u ∧
      (∀ acts, (acts.filterMap Live.Act.task?).Perm p.tasks →
        (∀ k, Live.Act.execute k ∈ acts → k < p.groups.length) →
          ∃ v, (perform acts).Yields t () v ∧ v.Agrees u) ∧
      ∀ ks : List Nat, ks.Perm (List.range p.groups.length) →
        ∃ v, (recordGroups ks).Yields t () v ∧ v.Agrees u := by
  obtain ⟨formed, rfl⟩ := start_permits graph s p t hstart
  have begun : Live.Begun ⟨s.device, .ofPlan graph p⟩ := begun_of_start formed hfailing
  let l : Live Memory MemoryList := ⟨s.device, .ofPlan graph p⟩
  have hagrees : (s.withLive l.finished).Agrees (s.withLive l.completed) :=
    ⟨rfl, l.finished.frame, l.completed.frame, rfl, rfl, rfl, rfl⟩
  obtain ⟨_, _, hrun, rfl⟩ := record_ensures hbackend begun rfl
  refine ⟨_, hrun, fun acts htasks hgroups => ?_, fun ks hks => ?_⟩
  · obtain ⟨_, _, hacts, rfl⟩ := perform_ensures hbackend begun htasks hgroups
    exact ⟨_, hacts, hagrees⟩
  · obtain ⟨_, _, hgroups, rfl⟩ := recordGroups_ensures hbackend begun hks
    exact ⟨_, hgroups, hagrees⟩

/-- The tasks of a frame from the last one to the first, after a call to execute. -/
theorem agrees_of_perm_short :
    ∃ p t u v, (start .short).Yields plain p t ∧ record.Yields t () u ∧
      (perform (.execute 0 :: p.tasks.reverse.map .record)).Yields t () v ∧ v.Agrees u := by
  obtain ⟨p, t, hstart, ⟨drafts, hdrafts⟩, -⟩ :=
    start_ensures (s := plain) rfl rfl Graph.short_built Graph.short_countable rfl
      Config.plain_covers
  obtain ⟨u, hrecord, hacts, -⟩ := agrees_of_perm rfl rfl hstart
  have hpos : 0 < p.groups.length := by
    obtain ⟨ledger?, follows⟩ := hdrafts.follows
    have htile := hdrafts.tile
    rw [← Plan.map_span follows] at htile
    apply List.length_pos_of_ne_nil
    intro hnil
    rw [hnil] at htile
    cases htile
  have htasks : (Live.Act.execute 0 :: p.tasks.reverse.map .record).filterMap Live.Act.task? =
      p.tasks.reverse := by
    rw [List.filterMap_cons_none rfl, List.filterMap_map]
    exact List.filterMap_some
  obtain ⟨v, hv, hagrees⟩ := hacts (.execute 0 :: p.tasks.reverse.map .record)
    (by rw [htasks]; exact List.reverse_perm _) (by simpa using hpos)
  exact ⟨p, t, u, v, hstart, hrecord, hv, hagrees⟩

end Scheduler

end FrameSchedule
