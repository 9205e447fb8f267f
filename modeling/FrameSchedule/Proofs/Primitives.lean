import FrameSchedule.Proofs.RenderPasses

/-!
# The synchronization of a batch

A batch gathers its synchronization scope by scope, and passes over what it has already.  So it
asks for what its scopes ask for, end to end, with each primitive in its first place only
(`Sync.unionAll_eq`): nothing is lost, and nothing comes twice.

Whatever happens to an open frame, this is what the batches ask for that reach the backend.
Once every handler has submitted, a primitive of a scope has been asked for in the one batch
that holds the scope, and there once (`Scheduler.batches_synchronized`).
-/

namespace FrameSchedule

variable {σ Λ : Type}

/-! ## What pieces of work ask for -/

namespace Sync

variable {s : Sync} {ss : List Sync}

/-- What pieces of work ask for, end to end. -/
def appendAll (ss : List Sync) : Sync where
  waitSemaphores := ss.flatMap (·.waitSemaphores)
  signalSemaphores := ss.flatMap (·.signalSemaphores)
  waitFences := ss.flatMap (·.waitFences)
  signalFences := ss.flatMap (·.signalFences)
  swapchains := ss.flatMap (·.swapchains)

/-- Each primitive in its first place only. -/
def distinct (s : Sync) : Sync where
  waitSemaphores := s.waitSemaphores.eraseDups
  signalSemaphores := s.signalSemaphores.eraseDups
  waitFences := s.waitFences.eraseDups
  signalFences := s.signalFences.eraseDups
  swapchains := s.swapchains.eraseDups

/-- A primitive, with the part that it plays for a piece of work. -/
inductive Primitive where
  | waitSemaphore (x : SemaphoreId)
  | signalSemaphore (x : SemaphoreId)
  | waitFence (x : FenceId)
  | signalFence (x : FenceId)
  | swapchain (x : SwapchainId)
  deriving DecidableEq

/-- All that a piece of work asks for. -/
def primitives (s : Sync) : List Primitive :=
  s.waitSemaphores.map .waitSemaphore ++ (s.signalSemaphores.map .signalSemaphore ++
    (s.waitFences.map .waitFence ++ (s.signalFences.map .signalFence ++
      s.swapchains.map .swapchain)))

theorem nodup_eraseDups {α : Type} [DecidableEq α] (xs : List α) : xs.eraseDups.Nodup := by
  have hnew := addNew_eraseDups [] xs
  rw [List.eraseDups_nil, List.nil_append] at hnew
  rw [← hnew]
  exact nodup_addNew List.nodup_nil xs

/-- **What pieces of work ask for together** is what they ask for one after the other, with
each primitive in its first place only. -/
theorem unionAll_eq (ss : List Sync) : unionAll ss = (appendAll ss).distinct := by
  have hfields : ∀ s : Sync, s = ⟨s.waitSemaphores, s.signalSemaphores, s.waitFences,
      s.signalFences, s.swapchains⟩ := fun _ => rfl
  rw [hfields (unionAll ss), unionAll_field (f := waitSemaphores) rfl (fun _ _ => rfl),
    unionAll_field (f := signalSemaphores) rfl (fun _ _ => rfl),
    unionAll_field (f := waitFences) rfl (fun _ _ => rfl),
    unionAll_field (f := signalFences) rfl (fun _ _ => rfl),
    unionAll_field (f := swapchains) rfl (fun _ _ => rfl)]
  rfl

variable {x : Primitive}

theorem mem_primitives_distinct : x ∈ s.distinct.primitives ↔ x ∈ s.primitives := by
  simp [primitives, distinct]

theorem mem_primitives_appendAll : x ∈ (appendAll ss).primitives ↔ ∃ s ∈ ss, x ∈ s.primitives := by
  cases x <;> simp [primitives, appendAll]

/-- What is asked for in one part is nowhere else. -/
theorem nodup_part_append {α : Type} [DecidableEq α] {part : α → Primitive} (xs : List α)
    {rest : List Primitive} (hinj : ∀ x y, part x = part y → x = y) (hrest : rest.Nodup)
    (hnew : ∀ x, part x ∉ rest) : (xs.eraseDups.map part ++ rest).Nodup := by
  refine List.nodup_append.2 ⟨(nodup_eraseDups xs).map hinj, hrest, ?_⟩
  exact List.forall_mem_map.2 fun x _ y hy heq => hnew x (heq ▸ hy)

/-- Nothing is asked for twice in one part. -/
theorem nodup_primitives_distinct (s : Sync) : s.distinct.primitives.Nodup := by
  unfold primitives distinct
  refine nodup_part_append _ (fun _ _ => Primitive.waitSemaphore.inj) ?_ (by simp)
  refine nodup_part_append _ (fun _ _ => Primitive.signalSemaphore.inj) ?_ (by simp)
  refine nodup_part_append _ (fun _ _ => Primitive.waitFence.inj) ?_ (by simp)
  refine nodup_part_append _ (fun _ _ => Primitive.signalFence.inj) ?_ (by simp)
  exact (nodup_eraseDups _).map fun _ _ => Primitive.swapchain.inj

end Sync

/-! ## What batches ask for -/

/-- The batch asks once for each primitive of the scopes that it holds, and for nothing else. -/
structure Receipt.Synchronized (g : Graph) (r : Receipt (Stamped Λ)) : Prop where
  nodup : r.batch.sync.primitives.Nodup
  mem : ∀ x, x ∈ r.batch.sync.primitives ↔
    ∃ i < g.scopes.length, r.Holds (g.scopeAt i) ∧ x ∈ (g.scopeAt i).sync.primitives

theorem Receipt.Synchronized.count {g : Graph} {r : Receipt (Stamped Λ)} (h : r.Synchronized g)
    {i : Nat} (hi : i < g.scopes.length) (hholds : r.Holds (g.scopeAt i)) {x : Sync.Primitive}
    (hx : x ∈ (g.scopeAt i).sync.primitives) : r.batch.sync.primitives.count x = 1 :=
  List.count_eq_one_of_mem h.nodup ((h.mem x).2 ⟨i, hi, hholds, hx⟩)

namespace Live.Stocked

variable {p : Plan} {g : Graph} {l : Live (Receipted σ (Stamped Λ)) (Stamped Λ)}
  {r : Receipt (Stamped Λ)} {k : Nat}

/-- A batch asks for what the scopes of its handler ask for. -/
theorem sync_eq (h : l.Stocked p) (hr : l.backend.receipts[k]? = some r) :
    ∃ H, p.handlers[k]? = some H ∧
      r.batch.sync = (Sync.appendAll (H.members.map (·.sync))).distinct := by
  obtain ⟨H, hH, ⟨lists, hbatch⟩, -⟩ := h.exists_handler hr
  refine ⟨H, hH, ?_⟩
  rw [hbatch, ← Sync.unionAll_eq]
  rfl

theorem synchronized (h : l.Stocked p) (laid : p.Laid g) (formed : p.Formed)
    (hr : l.backend.receipts[k]? = some r) : r.Synchronized g := by
  obtain ⟨H, hH, hsync⟩ := h.sync_eq hr
  have hmem := List.mem_of_getElem? hH
  constructor
  · rw [hsync]
    exact Sync.nodup_primitives_distinct _
  · intro x
    simp only [hsync, Sync.mem_primitives_distinct, Sync.mem_primitives_appendAll, List.mem_map,
      exists_exists_and_eq_and]
    constructor
    · intro hx
      obtain ⟨s, hs, hx⟩ := hx
      obtain ⟨i, howns, rfl⟩ := (Handler.mem_members_iff laid formed hmem).1 hs
      exact ⟨i, laid.lt_of_owns formed hmem howns,
        (h.holds_iff laid formed hr).2 ⟨H, i, hH, howns, rfl⟩, hx⟩
    · intro hx
      obtain ⟨i, -, hholds, hx⟩ := hx
      obtain ⟨H', j, hH', howns, hscope⟩ := (h.holds_iff laid formed hr).1 hholds
      obtain rfl : H = H' := Option.some_inj.1 (hH.symm.trans hH')
      exact ⟨_, (Handler.mem_members_iff laid formed hmem).2 ⟨j, howns, hscope⟩, hx⟩

/-- Each scope is held by one batch, when every handler has submitted. -/
theorem exists_receipt (h : l.Stocked p) (laid : p.Laid g) (formed : p.Formed) (built : g.Built)
    (hall : l.frame.executed = p.handlers.map fun _ => true) {i : Nat} (hi : i < g.scopes.length) :
    ∃ (k : Nat) (r : Receipt (Stamped Λ)), l.backend.receipts[k]? = some r ∧
      r.Holds (g.scopeAt i) ∧ ∀ (k' : Nat) (r' : Receipt (Stamped Λ)),
        l.backend.receipts[k']? = some r' → r'.Holds (g.scopeAt i) → k' = k := by
  obtain ⟨k, H, hH, howns⟩ := formed.exists_owner laid.tile hi
  have hlength : l.backend.receipts.length = p.handlers.length := by
    rw [← h.receipts.length_eq, List.length_take_of_le h.le, h.cursor_eq hall]
  have hr := List.getElem?_eq_getElem (hlength ▸ (List.getElem?_eq_some_iff.1 hH).1)
  refine ⟨k, _, hr, (h.holds_scopeAt_iff laid formed built hH howns hr).2 rfl, ?_⟩
  exact fun k' r' hr' => (h.holds_scopeAt_iff laid formed built hH howns hr').1

end Live.Stocked

namespace Plan.Laid

/-- The handlers have the scopes of the frame, in order. -/
theorem flatMap_members {p : Plan} {g : Graph} (laid : p.Laid g) (formed : p.Formed) :
    p.handlers.flatMap (·.members) = g.scopes := by
  have hgroups := flatMap_members_of_tile laid.tile laid.members
  rw [List.drop_zero, ← formed.flatMap_groups, List.flatMap_assoc] at hgroups
  exact hgroups

end Plan.Laid

namespace Scheduler

variable {b : Backend σ Λ} {s t : Scheduler (Receipted σ (Stamped Λ)) (Stamped Λ)}
  {graph : Graph} {p : Plan}

/-- **No primitive is lost or repeated.**  The handlers have the scopes of the frame in order.
Whatever happens to an open frame, and whatever its backend refuses or breaks off, a batch that
is handed over asks for what the scopes of its handler ask for, end to end, with each primitive
in its first place only; so it asks once for each primitive of the scopes that it holds.  When
all handlers have submitted, each scope is held by one batch, which asks once for each of its
primitives.  On the backend itself, without the stamps that tell this, the run is the same. -/
theorem batches_synchronized (built : graph.Built)
    (hbackend : s.backend = Receipted.backend (Stamped.backend b))
    (hfresh : s.device.receipts = []) (hstart : (start graph).Yields s p t)
    (events : List Event) :
    p.handlers.flatMap (·.members) = graph.scopes ∧
      ∃ l, t.through events = t.put l ∧
        ((start graph).Yields (s.bare b) p (t.bare b) ∧
          (t.bare b).through events = (t.put l).bare b) ∧
        (∀ (k : Nat) (r : Receipt (Stamped Λ)), l.backend.receipts[k]? = some r →
          r.Synchronized graph ∧ ∃ H, p.handlers[k]? = some H ∧
            r.batch.sync = (Sync.appendAll (H.members.map (·.sync))).distinct) ∧
          (l.frame.executed = p.handlers.map (fun _ => true) →
            ∀ i < graph.scopes.length, ∃ (k : Nat) (r : Receipt (Stamped Λ)),
              l.backend.receipts[k]? = some r ∧ r.Holds (graph.scopeAt i) ∧
                (∀ (k' : Nat) (r' : Receipt (Stamped Λ)), l.backend.receipts[k']? = some r' →
                  r'.Holds (graph.scopeAt i) → k' = k) ∧
                  ∀ x ∈ (graph.scopeAt i).sync.primitives,
                    r.batch.sync.primitives.count x = 1) := by
  have laid := start_laid graph s p t hstart
  obtain ⟨formed, hopened⟩ := start_permits graph s p t hstart
  obtain ⟨l, hrun, h⟩ := through_stocked hbackend hfresh hstart events
  have hsame : t.backend = Receipted.backend (Stamped.backend b) := by rw [hopened, hbackend]
  refine ⟨laid.flatMap_members formed, l, hrun,
    ⟨start_bare hstart, hrun ▸ through_bare hsame events⟩, fun k r hr => ?_, fun hall i hi => ?_⟩
  · exact ⟨h.synchronized laid formed hr, h.sync_eq hr⟩
  · obtain ⟨k, r, hr, hholds, honly⟩ := h.exists_receipt laid formed built hall hi
    exact ⟨k, r, hr, hholds, honly, fun x hx => (h.synchronized laid formed hr).count hi hholds hx⟩

/-- Two scopes that are merged, and a render pass of two.  Primitives come twice within a scope,
in merged scopes, and in subpasses. -/
def repetitive : Graph :=
  ((Graph.addAll [
    { name := "shadow", items := 40,
      sync := { waitSemaphores := [⟨1⟩, ⟨1⟩], waitFences := [⟨4⟩], swapchains := [⟨7⟩] } },
    { name := "sky", items := 10,
      sync := { signalSemaphores := [⟨2⟩, ⟨3⟩, ⟨2⟩], swapchains := [⟨8⟩, ⟨7⟩] } },
    { name := "gbuffer", group? := some ⟨1⟩,
      sync := { waitSemaphores := [⟨2⟩], signalFences := [⟨5⟩] } },
    { name := "lighting", group? := some ⟨1⟩,
      sync := { waitSemaphores := [⟨3⟩, ⟨2⟩], signalFences := [⟨6⟩, ⟨5⟩] } }]).run {}).state

/-- Both batches of a frame that is recorded without a fault. -/
theorem batches_synchronized_repetitive :
    ∃ p t l, (start repetitive).Yields stamping p t ∧ t.through [.request .record] = t.put l ∧
      l.backend.receipts.map (·.batch.sync) = [
        { waitSemaphores := [⟨1⟩], signalSemaphores := [⟨2⟩, ⟨3⟩], waitFences := [⟨4⟩],
          swapchains := [⟨7⟩, ⟨8⟩] },
        { waitSemaphores := [⟨2⟩, ⟨3⟩], signalFences := [⟨5⟩, ⟨6⟩] }] ∧
        ∀ i < repetitive.scopes.length, ∃ (k : Nat) (r : Receipt (Stamped MemoryList)),
          l.backend.receipts[k]? = some r ∧ r.Holds (repetitive.scopeAt i) ∧
            ∀ x ∈ (repetitive.scopeAt i).sync.primitives,
              r.batch.sync.primitives.count x = 1 := by
  have built : repetitive.Built := Graph.Built.empty.addAll _ () _ ⟨rfl, rfl⟩
  obtain ⟨p, t, hstart, -⟩ := start_ensures (s := stamping) rfl rfl built
    ⟨by decide, by decide, by decide⟩ rfl (by unfold Config.Covers; decide)
  obtain ⟨-, l, hrun, -, -, hall⟩ := batches_synchronized built rfl rfl hstart [.request .record]
  obtain ⟨-, rfl⟩ := id hstart
  have hexecuted := executed_of_through hstart hrun (by decide +kernel)
  have hdevice : (((start repetitive).run stamping).state.through
      [.request .record]).device.receipts = l.backend.receipts :=
    congrArg (·.device.receipts) hrun
  refine ⟨p, _, l, hstart, hrun, ?_, fun i hi => ?_⟩
  · rw [← hdevice]
    decide +kernel
  · obtain ⟨k, r, hr, hholds, -, hcount⟩ := hall hexecuted i hi
    exact ⟨k, r, hr, hholds, hcount⟩

end Scheduler

end FrameSchedule
