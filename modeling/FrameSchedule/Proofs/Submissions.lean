import FrameSchedule.Proofs.Batches
import FrameSchedule.Proofs.Stamps

/-!
# Where scopes are submitted

A batch holds a scope if an entry of it is recorded in one of the batch's lists.  The batches
of a frame hold just the scopes that their handlers own (`Live.Stocked.holds_iff`), so what
is known about handlers is known about the work that reaches the backend.

Synchronization between scopes is kept across batches: a scope that waits for a primitive is
submitted behind the earlier scopes that signal it, unless they are subpasses of one render
pass, which is one batch (`Scheduler.signals_reach_waiters`).

A scope is recorded for the queue and the device that it asked for.  Its batch runs where the
first scope with its group number asked to, which need not be the same place
(`Scheduler.batches_placed`).
-/

namespace FrameSchedule

variable {σ Λ : Type}

/-! ## What batches hold -/

/-- An entry of the scope is recorded in a list of the batch. -/
def Receipt.Holds (r : Receipt (Stamped Λ)) (s : PlacedScope) : Prop :=
  ∃ list ∈ r.batch.lists, ∃ job ∈ list.native.jobs, job.scope = s

instance (r : Receipt (Stamped Λ)) (s : PlacedScope) : Decidable (r.Holds s) :=
  inferInstanceAs (Decidable (∃ list ∈ _, ∃ job ∈ _, _))

namespace Handler

variable {H : Handler} {G : Group} {lists : List (RecordedList (Stamped Λ))}
  {list : RecordedList (Stamped Λ)}

/-- The slots of groups, in order, each with the position of its group. -/
def slots (gs : List Group) : List ((Group × Nat) × Nat) :=
  gs.zipIdx.flatMap fun g => (List.range g.1.lists.toNat).map (g, ·)

theorem mem_slots {gs : List Group} {k i : Nat} :
    ((G, k), i) ∈ slots gs ↔ gs[k]? = some G ∧ i < G.lists.toNat := by
  rw [slots, List.mem_flatMap]
  constructor
  · intro hslot
    obtain ⟨g, hg, hi⟩ := hslot
    obtain ⟨i', hi', heq⟩ := List.mem_map.1 hi
    cases heq
    exact ⟨List.mk_mem_zipIdx_iff_getElem?.1 hg, List.mem_range.1 hi'⟩
  · intro hslot
    exact ⟨(G, k), List.mk_mem_zipIdx_iff_getElem?.2 hslot.1,
      List.mem_map_of_mem (List.mem_range.2 hslot.2)⟩

namespace Fills

/-- Each list was made for a slot of a group of the handler, which is its subpass. -/
theorem exists_slot (h : H.Fills lists) (hlist : list ∈ lists) :
    ∃ (k : Nat) (G : Group) (i : Nat), H.groups[k]? = some G ∧ G.Made i list.native ∧
      list = G.recorded k list.native := by
  obtain ⟨⟨⟨G, k⟩, i⟩, hslot, hmade, hrecorded⟩ := exists_of_mem_forall₂ h hlist
  exact ⟨k, G, i, (mem_slots.1 hslot).1, hmade, hrecorded⟩

/-- Each slot of a group has a list. -/
theorem exists_of_slot (h : H.Fills lists) {k i : Nat} (hG : H.groups[k]? = some G)
    (hi : i < G.lists.toNat) :
    ∃ list ∈ lists, G.Made i list.native ∧ list = G.recorded k list.native :=
  exists_of_mem_forall₂ h.flip (mem_slots.2 ⟨hG, hi⟩)

/-- Each list was made for a group of the handler. -/
theorem exists_group (h : H.Fills lists) (hlist : list ∈ lists) :
    ∃ G ∈ H.groups, ∃ i, G.Made i list.native := by
  obtain ⟨k, G, i, hG, hmade, -⟩ := h.exists_slot hlist
  exact ⟨G, List.mem_of_getElem? hG, i, hmade⟩

/-- Each group that has slots has a list. -/
theorem exists_list (h : H.Fills lists) (hG : G ∈ H.groups) (hlists : G.lists ≠ 0) :
    ∃ list ∈ lists, ∃ i, G.Made i list.native := by
  obtain ⟨k, hk⟩ := List.mem_iff_getElem?.1 hG
  obtain ⟨list, hlist, hmade, -⟩ := h.exists_of_slot hk (Count.pos_of_ne_zero hlists)
  exact ⟨list, hlist, 0, hmade⟩

end Fills

end Handler

/-- A list that was made for a group holds entries of its scopes, and of no others. -/
theorem Group.Made.exists_job_iff {G : Group} {i : Nat} {list : Stamped Λ} (h : G.Made i list)
    {s : PlacedScope} : (∃ job ∈ list.jobs, job.scope = s) ↔ s ∈ G.members := by
  rw [h.jobs]
  constructor
  · intro hjob
    obtain ⟨job, hjob, rfl⟩ := hjob
    obtain ⟨s, hs, rfl⟩ := List.mem_map.1 hjob
    exact hs
  · exact fun hs => ⟨G.recordJob i s, List.mem_map_of_mem hs, rfl⟩

namespace Handler

variable {H : Handler} {r : Receipt (Stamped Λ)} {p : Plan} {g : Graph} {s : PlacedScope}

/-- A batch with a list for each slot holds the scopes of all groups. -/
theorem Fills.holds_iff (h : H.Fills r.batch.lists) (hlists : ∀ G ∈ H.groups, G.lists ≠ 0) :
    r.Holds s ↔ s ∈ H.members := by
  rw [members, List.mem_flatMap]
  constructor
  · intro hholds
    obtain ⟨list, hlist, hjob⟩ := hholds
    obtain ⟨G, hG, i, hmade⟩ := h.exists_group hlist
    exact ⟨G, hG, hmade.exists_job_iff.1 hjob⟩
  · intro hmember
    obtain ⟨G, hG, hs⟩ := hmember
    obtain ⟨list, hlist, i, hmade⟩ := h.exists_list hG (hlists G hG)
    exact ⟨list, hlist, hmade.exists_job_iff.2 hs⟩

/-- The scopes of a handler are those it owns. -/
theorem mem_members_iff (laid : p.Laid g) (formed : p.Formed) (hH : H ∈ p.handlers) :
    s ∈ H.members ↔ ∃ i, H.Owns i ∧ g.scopeAt i = s := by
  have hgroup : ∀ G ∈ H.groups, (s ∈ G.members ↔ ∃ i, G.start ≤ i ∧ i < G.stop ∧
      g.scopeAt i = s) := by
    intro G hG
    have hmem := formed.mem_groups hH hG
    rw [laid.members G hmem]
    exact Graph.mem_slice (laid.bounds hmem).2
  rw [members, List.mem_flatMap]
  constructor
  · intro hmember
    obtain ⟨G, hG, hs⟩ := hmember
    obtain ⟨i, hle, hlt, hscope⟩ := (hgroup G hG).1 hs
    exact ⟨i, ⟨G, hG, hle, hlt⟩, hscope⟩
  · intro howned
    obtain ⟨i, ⟨G, hG, hle, hlt⟩, hscope⟩ := howned
    exact ⟨G, hG, (hgroup G hG).2 ⟨i, hle, hlt, hscope⟩⟩

end Handler

namespace Live.Stocked

variable {p : Plan} {g : Graph} {l : Live (Receipted σ (Stamped Λ)) (Stamped Λ)}
  {r : Receipt (Stamped Λ)} {k : Nat}

/-- A receipt is that of the handler at its position. -/
theorem exists_handler (h : l.Stocked p) (hr : l.backend.receipts[k]? = some r) :
    ∃ H, p.handlers[k]? = some H ∧ H.Offers r ∧ H.Fills r.batch.lists := by
  obtain ⟨H, hH, hoffers⟩ := exists_of_getElem?_forall₂ h.receipts hr
  obtain ⟨H', hH', hfills⟩ := exists_of_getElem?_forall₂ h.filled hr
  obtain rfl : H = H' := Option.some_inj.1 (hH.symm.trans hH')
  rw [List.getElem?_take] at hH
  split at hH
  · exact ⟨H, hH, hoffers, hfills⟩
  · cases hH

/-- **A batch holds** the scopes that its handler owns. -/
theorem holds_iff (h : l.Stocked p) (laid : p.Laid g) (formed : p.Formed)
    (hr : l.backend.receipts[k]? = some r) {s : PlacedScope} :
    r.Holds s ↔ ∃ H i, p.handlers[k]? = some H ∧ H.Owns i ∧ g.scopeAt i = s := by
  obtain ⟨H, hH, -, hfills⟩ := h.exists_handler hr
  have hmem := List.mem_of_getElem? hH
  have hlists : ∀ G ∈ H.groups, G.lists ≠ 0 :=
    fun G hG => (formed.formed G (formed.mem_groups hmem hG)).lists
  rw [hfills.holds_iff hlists, Handler.mem_members_iff laid formed hmem]
  constructor
  · intro howned
    obtain ⟨i, howns, hscope⟩ := howned
    exact ⟨H, i, hH, howns, hscope⟩
  · intro howned
    obtain ⟨H', i, hH', howns, hscope⟩ := howned
    obtain rfl : H = H' := Option.some_inj.1 (hH.symm.trans hH')
    exact ⟨i, howns, hscope⟩

/-- Each scope is held by the batch at the position of its handler, and by no other. -/
theorem holds_scopeAt_iff (h : l.Stocked p) (laid : p.Laid g) (formed : p.Formed)
    (built : g.Built) {position i : Nat} {H : Handler} (hH : p.handlers[position]? = some H)
    (howns : H.Owns i) (hr : l.backend.receipts[k]? = some r) :
    r.Holds (g.scopeAt i) ↔ k = position := by
  rw [h.holds_iff laid formed hr]
  constructor
  · intro howned
    obtain ⟨H', j, hH', howns', hscope⟩ := howned
    exact laid.eq_of_group_eq formed built hH' hH howns' howns (congrArg (·.group) hscope)
  · intro hk
    subst hk
    exact ⟨H, i, hH, howns, rfl⟩

end Live.Stocked

/-! ## Synchronization -/

namespace Sync

variable {s s' : Sync}

/-- The work waits for a primitive that other work signals. -/
def Awaits (s s' : Sync) : Prop :=
  (∃ x ∈ s.waitSemaphores, x ∈ s'.signalSemaphores) ∨ ∃ x ∈ s.waitFences, x ∈ s'.signalFences

instance : Decidable (s.Awaits s') :=
  inferInstanceAs (Decidable (_ ∨ _))

theorem Awaits.hasWaits (h : s.Awaits s') : s.hasWaits = true := by
  simp only [Sync.hasWaits, Bool.or_eq_true, Bool.not_eq_true',
    List.isEmpty_eq_false_iff_exists_mem]
  rcases h with ⟨x, hx, -⟩ | ⟨x, hx, -⟩
  · exact .inl ⟨x, hx⟩
  · exact .inr ⟨x, hx⟩

/-- A field of a union holds what the field holds in a part. -/
theorem mem_unionAll {α : Type} [DecidableEq α] {f : Sync → List α} (hnone : f {} = [])
    (hunion : ∀ a b, f (a.union b) = addNew (f a) (f b)) {ss : List Sync} {x : α} :
    x ∈ f (unionAll ss) ↔ ∃ s ∈ ss, x ∈ f s := by
  rw [unionAll_field hnone hunion, List.mem_eraseDups, List.mem_flatMap]

end Sync

/-- The batch waits for what scopes in it wait for. -/
structure Receipt.WaitsForScopes (r : Receipt (Stamped Λ)) : Prop where
  semaphores : ∀ x, x ∈ r.batch.sync.waitSemaphores ↔ ∃ s, r.Holds s ∧ x ∈ s.sync.waitSemaphores
  fences : ∀ x, x ∈ r.batch.sync.waitFences ↔ ∃ s, r.Holds s ∧ x ∈ s.sync.waitFences

theorem Live.Stocked.waits {p : Plan} {l : Live (Receipted σ (Stamped Λ)) (Stamped Λ)}
    (h : l.Stocked p) (formed : p.Formed) {r : Receipt (Stamped Λ)}
    (hr : r ∈ l.backend.receipts) : r.WaitsForScopes := by
  obtain ⟨k, hk⟩ := List.mem_iff_getElem?.1 hr
  obtain ⟨H, hH, hoffers, hfills⟩ := h.exists_handler hk
  obtain ⟨lists, hbatch⟩ := hoffers
  have hlists : ∀ G ∈ H.groups, G.lists ≠ 0 :=
    fun G hG => (formed.formed G (formed.mem_groups (List.mem_of_getElem? hH) hG)).lists
  have hsync : r.batch.sync = Sync.unionAll (H.members.map (·.sync)) := by rw [hbatch]; rfl
  constructor
  · intro x
    simp only [hsync, Sync.mem_unionAll (f := Sync.waitSemaphores) rfl fun _ _ => rfl,
      List.mem_map, exists_exists_and_eq_and, hfills.holds_iff hlists]
  · intro x
    simp only [hsync, Sync.mem_unionAll (f := Sync.waitFences) rfl fun _ _ => rfl,
      List.mem_map, exists_exists_and_eq_and, hfills.holds_iff hlists]

namespace Scheduler

variable {b : Backend σ Λ} {s t : Scheduler (Receipted σ (Stamped Λ)) (Stamped Λ)}
  {graph : Graph} {p : Plan}

/-- **Synchronization survives batching.**  Whatever happens to an open frame, its batches
wait for what their scopes wait for.  A scope that waits for a primitive of an earlier scope
of another group is held by a later batch, and by no other, than the earlier scope; when all
handlers have submitted, both batches have been handed over. -/
theorem signals_reach_waiters (built : graph.Built)
    (hbackend : s.backend = Receipted.backend (Stamped.backend b))
    (hfresh : s.device.receipts = []) (hstart : (start graph).Yields s p t)
    (events : List Event) :
    ∃ l, t.through events = t.put l ∧ (∀ r ∈ l.backend.receipts, r.WaitsForScopes) ∧
      ∀ i j, i < j → j < graph.scopes.length →
        (graph.scopeAt j).sync.Awaits (graph.scopeAt i).sync →
          (graph.scopeAt i).group ≠ (graph.scopeAt j).group →
            ∃ first second, first < second ∧
              (∀ k r, l.backend.receipts[k]? = some r →
                (r.Holds (graph.scopeAt i) ↔ k = first) ∧
                  (r.Holds (graph.scopeAt j) ↔ k = second)) ∧
              (l.frame.executed = p.handlers.map (fun _ => true) →
                second < l.backend.receipts.length) := by
  have laid := start_laid graph s p t hstart
  obtain ⟨formed, -⟩ := start_permits graph s p t hstart
  obtain ⟨l, hrun, h⟩ := through_stocked hbackend hfresh hstart events
  refine ⟨l, hrun, fun r hr => h.waits formed hr, fun i j hij hj hawaits hgroup => ?_⟩
  obtain ⟨first, H, hH, hi⟩ := formed.exists_owner laid.tile (Nat.lt_trans hij hj)
  obtain ⟨second, H', hH', hj'⟩ := formed.exists_owner laid.tile hj
  have hlt := laid.lt_of_waits formed built hH hH' hi hj' hij hgroup hawaits.hasWaits
  refine ⟨first, second, hlt, fun k r hr => ⟨?_, ?_⟩, fun hall => ?_⟩
  · exact h.holds_scopeAt_iff laid formed built hH hi hr
  · exact h.holds_scopeAt_iff laid formed built hH' hj' hr
  · rw [← h.receipts.length_eq, List.length_take_of_le h.le, h.cursor_eq hall]
    exact (List.getElem?_eq_some_iff.1 hH').1

/-- A scheduler on the backend in memory, with one device, with receipts and with stamps. -/
def stamping : Scheduler (Receipted Memory (Stamped MemoryList)) (Stamped MemoryList) where
  backend := Receipted.backend (Stamped.backend Memory.backend)
  policy := .parallel
  device := { inner := {} }
  config? := some .plain

/-- Two scopes of which the second waits for the first, in one group or not. -/
def relay (group? : Option GroupId) : Graph :=
  ((Graph.addAll [
    { name := "a", group?, sync := { signalSemaphores := [⟨1⟩] } },
    { name := "b", group?, sync := { waitSemaphores := [⟨1⟩] } }]).run {}).state

/-- Without a group the scopes are submitted in two batches, one after the other. -/
theorem signals_reach_waiters_relay :
    ∃ p t l first second, (start (relay none)).Yields stamping p t ∧
      t.through [.request .record] = t.put l ∧ l.backend.receipts.length = 2 ∧
        (∀ r ∈ l.backend.receipts, r.WaitsForScopes) ∧ first < second ∧ second < 2 ∧
          ∀ k r, l.backend.receipts[k]? = some r →
            (r.Holds ((relay none).scopeAt 0) ↔ k = first) ∧
              (r.Holds ((relay none).scopeAt 1) ↔ k = second) := by
  have built : (relay none).Built := Graph.Built.empty.addAll _ () _ ⟨rfl, rfl⟩
  obtain ⟨p, t, hstart, -⟩ := start_ensures (s := stamping) rfl rfl built
    ⟨by decide, by decide, by decide⟩ rfl (by unfold Config.Covers; decide)
  obtain ⟨l, hrun, hwaits, hreach⟩ := signals_reach_waiters built rfl rfl hstart
    [.request .record]
  obtain ⟨first, second, hlt, hholds, hall⟩ := hreach 0 1 (by decide) (by decide +kernel)
    (by decide +kernel) (by decide +kernel)
  obtain ⟨-, rfl⟩ := id hstart
  have hlength : l.backend.receipts.length = 2 :=
    (congrArg (·.device.receipts.length) hrun).symm.trans (by decide +kernel)
  have hexecuted := executed_of_through hstart hrun (by decide +kernel)
  exact ⟨p, _, l, first, second, hstart, hrun, hlength, hwaits, hlt, hlength ▸ hall hexecuted,
    hholds⟩

/-- In one group they are one render pass, and its batch waits for what it signals itself. -/
theorem relay_in_one_batch :
    ∃ p t l, (start (relay (some ⟨1⟩))).Yields stamping p t ∧
      t.through [.request .record] = t.put l ∧
        ((relay (some ⟨1⟩)).scopeAt 1).sync.Awaits ((relay (some ⟨1⟩)).scopeAt 0).sync ∧
          l.backend.receipts.length = 1 ∧ ∀ r ∈ l.backend.receipts, r.accepted = true ∧
            r.Holds ((relay (some ⟨1⟩)).scopeAt 0) ∧ r.Holds ((relay (some ⟨1⟩)).scopeAt 1) ∧
              r.batch.sync.Awaits r.batch.sync := by
  have built : (relay (some ⟨1⟩)).Built := Graph.Built.empty.addAll _ () _ ⟨rfl, rfl⟩
  obtain ⟨p, t, hstart, -⟩ := start_ensures (s := stamping) rfl rfl built
    ⟨by decide, by decide, by decide⟩ rfl (by unfold Config.Covers; decide)
  obtain ⟨l, hrun, -⟩ := through_stocked rfl rfl hstart [.request .record]
  obtain ⟨-, rfl⟩ := id hstart
  have hdevice : (((start (relay (some ⟨1⟩))).run stamping).state.through
      [.request .record]).device.receipts = l.backend.receipts :=
    congrArg (·.device.receipts) hrun
  refine ⟨p, _, l, hstart, hrun, by decide +kernel, ?_⟩
  rw [← hdevice]
  decide +kernel

/-- **Every list is begun where its scopes asked to run**, and every batch runs where the
first scope with the group number of any of its scopes asked to. -/
theorem batches_placed (built : graph.Built)
    (hbackend : s.backend = Receipted.backend (Stamped.backend b))
    (hfresh : s.device.receipts = []) (hstart : (start graph).Yields s p t)
    (events : List Event) :
    ∃ l, t.through events = t.put l ∧ ∀ r ∈ l.backend.receipts, ∀ list ∈ r.batch.lists,
      ∀ job ∈ list.native.jobs, job.scope ∈ graph.scopes ∧
        list.native.spec.queue = job.scope.queue ∧ list.native.spec.device = job.scope.device ∧
          ∃ first, graph.scopes.find? (·.group = job.scope.group) = some first ∧
            r.batch.queue = first.queue ∧ r.batch.device = first.device := by
  have laid := start_laid graph s p t hstart
  obtain ⟨formed, -⟩ := start_permits graph s p t hstart
  obtain ⟨l, hrun, h⟩ := through_stocked hbackend hfresh hstart events
  refine ⟨l, hrun, fun r hr list hlist job hjob => ?_⟩
  obtain ⟨k, hk⟩ := List.mem_iff_getElem?.1 hr
  obtain ⟨H, hH, ⟨lists, hbatch⟩, hfills⟩ := h.exists_handler hk
  have hmem := List.mem_of_getElem? hH
  obtain ⟨G, hG, i, hmade⟩ := hfills.exists_group hlist
  have hgroup := formed.mem_groups hmem hG
  have hmember := hmade.exists_job_iff.1 ⟨job, hjob, rfl⟩
  rw [laid.members G hgroup, Graph.mem_slice (laid.bounds hgroup).2] at hmember
  obtain ⟨j, hle, hlt, hscope⟩ := hmember
  obtain ⟨hqueue, hdevice⟩ := laid.site formed hgroup hle hlt
  obtain ⟨first, hfirst, hplace⟩ := laid.first_site formed built hmem ⟨G, hG, hle, hlt⟩
  rw [hscope] at hqueue hdevice hfirst
  refine ⟨?_, ?_, ?_, first, hfirst, ?_⟩
  · rw [← hscope]
    exact Graph.scopeAt_mem (Nat.lt_of_lt_of_le hlt (laid.bounds hgroup).2)
  · rw [hmade.spec]
    exact hqueue
  · rw [hmade.spec]
    exact hdevice
  · rw [hbatch]
    exact hplace

/-- Two scopes of one group that ask for different queues. -/
def crossed : Graph :=
  ((Graph.addAll [
    { name := "a", group? := some ⟨1⟩ },
    { name := "b", group? := some ⟨1⟩, queue := .compute }]).run {}).state

theorem exists_start_crossed : ∃ p t, (start crossed).Yields stamping p t := by
  have built : crossed.Built := Graph.Built.empty.addAll _ () _ ⟨rfl, rfl⟩
  obtain ⟨p, t, hstart, -⟩ := start_ensures (s := stamping) rfl rfl built
    ⟨by decide, by decide, by decide⟩ rfl (by unfold Config.Covers; decide)
  exact ⟨p, t, hstart⟩

/-- One batch with an entry of each scope. -/
theorem batches_placed_crossed :
    ∃ p t l, (start crossed).Yields stamping p t ∧ t.through [.request .record] = t.put l ∧
      l.backend.receipts.map (·.batch.lists.map (·.native.jobs.length)) = [[1, 1]] ∧
        ∀ r ∈ l.backend.receipts, ∀ list ∈ r.batch.lists,
          ∀ job ∈ list.native.jobs, job.scope ∈ crossed.scopes ∧
            list.native.spec.queue = job.scope.queue ∧
              list.native.spec.device = job.scope.device ∧
                ∃ first, crossed.scopes.find? (·.group = job.scope.group) = some first ∧
                  r.batch.queue = first.queue ∧ r.batch.device = first.device := by
  obtain ⟨p, t, hstart⟩ := exists_start_crossed
  obtain ⟨l, hrun, hplaced⟩ := batches_placed (Graph.Built.empty.addAll _ () _ ⟨rfl, rfl⟩) rfl rfl
    hstart [.request .record]
  obtain ⟨-, rfl⟩ := id hstart
  have hjobs : l.backend.receipts.map (·.batch.lists.map (·.native.jobs.length)) = [[1, 1]] := by
    have hdevice : (((start crossed).run stamping).state.through
        [.request .record]).device.receipts = l.backend.receipts :=
      congrArg (·.device.receipts) hrun
    rw [← hdevice]
    decide +kernel
  exact ⟨p, _, l, hstart, hrun, hjobs, hplaced⟩

/-- The list of the second scope is begun for the queue that it asked for, and is submitted to
the queue of the first. -/
theorem crossed_submitted_elsewhere :
    ∃ p t l, (start crossed).Yields stamping p t ∧ t.through [.request .record] = t.put l ∧
      (crossed.scopeAt 1).queue = .compute ∧ l.backend.receipts.length = 1 ∧
        ∀ r ∈ l.backend.receipts, r.accepted = true ∧ r.Holds (crossed.scopeAt 1) ∧
          r.batch.queue = .graphics ∧
            ∃ list ∈ r.batch.lists, list.native.spec.queue = .compute := by
  obtain ⟨p, t, hstart⟩ := exists_start_crossed
  obtain ⟨l, hrun, -⟩ := through_stocked rfl rfl hstart [.request .record]
  obtain ⟨-, rfl⟩ := id hstart
  have hdevice : (((start crossed).run stamping).state.through
      [.request .record]).device.receipts = l.backend.receipts :=
    congrArg (·.device.receipts) hrun
  refine ⟨p, _, l, hstart, hrun, by decide +kernel, ?_⟩
  rw [← hdevice]
  decide +kernel

end Scheduler

end FrameSchedule
