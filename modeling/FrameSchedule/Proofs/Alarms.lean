import FrameSchedule.Proofs.Diagnosis
import FrameSchedule.Proofs.Trackers

/-!
# No alarm is false

The beginning of a frame lists the trackers that require more than all signals of the
groups that reach them.  A run sends the signals of a handler through the handle of its
first group.  Handles do not go back along the frame, so all groups of a handler reach what
the first one reaches (`Plan.Tracked.reaches_of_first`), and no run sends a tracker more
than the sum that was held against it.  A tracker of the list is therefore unsatisfied in
every state of the frame, whatever is called in which order and whatever the backend
refuses (`Scheduler.alarms_hold`).
-/

namespace FrameSchedule

namespace Plan

variable {p : Plan} {g : Graph} {planned : Chain} {H : Handler} {hs : List Handler} {k : Nat}

/-- What the list of unreachable trackers says of an entry. -/
theorem of_mem_unreachable {us : List (Nat × UInt32 × UInt32)} (hus : p.unreachable = .ok us)
    {u : Nat × UInt32 × UInt32} (hu : u ∈ us) :
    ∃ chain t, p.chain? = some chain ∧ chain.trackers[u.1]? = some t ∧
      p.reachable u.1 = .ok u.2.1 ∧ t.required = u.2.2 ∧ u.2.1 < u.2.2 := by
  unfold unreachable at hus
  cases hchain : p.chain? with
  | none =>
    rw [hchain] at hus
    cases hus
    cases hu
  | some chain =>
    rw [hchain] at hus
    cases hsums : chain.trackers.zipIdx.mapM fun t => do
        return (t.2, ← p.reachable t.2, t.1.required) with
    | error fault =>
      simp only [Option.map_some, Option.getD_some, hsums] at hus
      cases hus
    | ok sums =>
      simp only [Option.map_some, Option.getD_some, hsums] at hus
      cases hus
      obtain ⟨hmem, hless⟩ := List.mem_filter.1 hu
      obtain ⟨⟨t, i⟩, ht, hsum⟩ := exists_of_mem_forall₂ (mapM_eq_ok_iff.1 hsums) hmem
      cases hw : p.reachable i with
      | error fault => simp only [hw] at hsum; cases hsum
      | ok w =>
        simp only [hw] at hsum
        cases hsum
        exact ⟨chain, t, rfl, List.mk_mem_zipIdx_iff_getElem?.1 ht, hw, rfl,
          of_decide_eq_true hless⟩

/-- All groups of a handler reach what the first one reaches. -/
theorem Tracked.reaches_of_first (tracked : p.Tracked g planned) (formed : p.Formed)
    (hH : H ∈ p.handlers) (hreach : H.reaches k = true) {G : Group} (hG : G ∈ H.groups) :
    reaches k G = true := by
  have hmem : ∀ G ∈ H.groups, G ∈ p.groups := fun G hG => formed.mem_groups hH hG
  have hpairs := tracked.tile.pairwise.sublist ((formed.sublist_groups hH).map Group.span)
  have hle : H.first.stop ≤ G.stop := by
    rcases List.mem_cons.1 hG with rfl | hother
    · exact Nat.le_refl _
    · have hstart := (List.pairwise_cons.1 hpairs).1 _ (List.mem_map_of_mem hother)
      obtain ⟨-, hlt, -⟩ := tracked.tile.bounds (List.mem_map_of_mem (hmem G hG))
      exact Nat.le_trans hstart (Nat.le_of_lt hlt)
  have hepoch := g.epoch_mono (Nat.sub_le_sub_right hle 1)
  simp only [Handler.reaches, reaches, tracked.handle _ (hmem _ List.mem_cons_self),
    tracked.handle _ (hmem _ hG), Option.any_some, decide_eq_true_iff] at hreach ⊢
  omega

/-- What handlers send to a tracker is part of what its groups have for it. -/
theorem sentTo_le_total (hall : ∀ H ∈ hs, H.reaches k = true → ∀ G ∈ H.groups,
      reaches k G = true) :
    Handler.sentTo k hs ≤
      Count.total (((hs.flatMap (·.groups)).filter (reaches k)).map (·.signals)) := by
  induction hs with
  | nil => exact Nat.zero_le _
  | cons H hs ih =>
    rw [Handler.sentTo_cons, total_reaches_cons]
    refine Nat.add_le_add ?_ (ih fun H' hH' => hall H' (List.mem_cons_of_mem H hH'))
    split
    · rename_i hreach
      rw [List.filter_eq_self.2 (hall H List.mem_cons_self hreach)]
      exact Nat.le_refl _
    · exact Nat.zero_le _

end Plan

namespace Scheduler

variable {σ Λ : Type}

/-- **No alarm is false.**  A tracker that the beginning of the frame finds unreachable is
there in every state of the frame that requests lead to, with the requirement that was held
against it, and is not satisfied. -/
theorem alarms_hold {b : Backend σ Λ} {s t : Scheduler (Receipted σ Λ) Λ} {graph : Graph}
    {p : Plan} (hbackend : s.backend = Receipted.backend b) (hfresh : s.device.receipts = [])
    (hstart : (start graph).Yields s p t) :
    ∃ us, p.unreachable = .ok us ∧ ∀ requests : List Request, ∀ u ∈ us,
      ∃ chain tracker, (t.through (requests.map .request)).chain? = some chain ∧
        chain.trackers[u.1]? = some tracker ∧ tracker.required = u.2.2 ∧
          tracker.satisfied = false := by
  have formed := (start_permits graph s p t hstart).1
  obtain ⟨us, hus, -⟩ := exists_warned hstart
  refine ⟨us, hus, fun requests u hu => ?_⟩
  obtain ⟨planned, t₀, hplanned, ht₀, hreachable, hrequired, hless⟩ :=
    Plan.of_mem_unreachable hus hu
  have tracked := start_tracked graph s p t hstart planned hplanned
  obtain ⟨l, hrun, h⟩ := through_requests hbackend hfresh hstart requests
  obtain ⟨chain, hchain⟩ : ∃ chain, l.frame.chain? = some chain := by
    rw [h.chain trivial, hplanned]
    exact ⟨_, rfl⟩
  obtain ⟨planned', hplanned', -, hgain⟩ := h.gain formed hchain
  obtain rfl : planned = planned' := Option.some_inj.1 (hplanned.symm.trans hplanned')
  obtain ⟨tracker, htracker⟩ : ∃ tracker, chain.trackers[u.1]? = some tracker := by
    have hlt := (List.getElem?_eq_some_iff.1 ht₀).1
    exact ⟨_, List.getElem?_eq_getElem (hgain.length ▸ hlt)⟩
  obtain ⟨_, t₁, hp, ht₁, hsame, hsignalled⟩ := h.signalled formed hchain htracker
  obtain rfl : planned = _ := Option.some_inj.1 (hplanned.symm.trans hp)
  obtain rfl : t₀ = t₁ := Option.some_inj.1 (ht₀.symm.trans ht₁)
  refine ⟨chain, tracker, ?_, htracker, hsame.trans hrequired, ?_⟩
  · rw [hrun]
    exact hchain
  · have hsent : tracker.signalled.toNat ≤ u.2.1.toNat := by
      have hsub := (Handler.acceptedOf_sublist h.receipts.length_eq).trans
        (List.take_sublist l.frame.cursor p.handlers)
      rw [hsignalled, Count.sum_eq_ok_iff.1 hreachable, ← formed.flatMap_groups]
      refine Nat.le_trans ?_ (Plan.sentTo_le_total fun H hH hreach G hG =>
        tracked.reaches_of_first formed hH hreach hG)
      exact ((hsub.filter _).map _).sum_le_sum fun n _ => Nat.zero_le n
    rw [Bool.eq_false_iff, ne_eq, Tracker.satisfied_iff, hsame, hrequired]
    have hlt := UInt32.lt_iff_toNat_lt.1 hless
    omega

/-- Two presentations, each with a scope that waits before it. -/
def staggered : Graph :=
  ((Graph.addAll [
    { name := "a", sync := { waitSemaphores := [⟨1⟩], swapchains := [⟨1⟩] } },
    { name := "b", sync := { waitSemaphores := [⟨2⟩], swapchains := [⟨2⟩] } }]).run {}).state

/-- The second tracker requires two signals, of which one reaches it; the frame is recorded
as a whole, and its first batch is refused. -/
theorem alarms_hold_staggered :
    ∃ p t chain tracker, (start staggered).Yields refusing p t ∧
      p.unreachable = .ok [(1, 1, 2)] ∧
        (t.through [.request .record, .request (.recordGroup 1)]).chain? = some chain ∧
          chain.trackers[1]? = some tracker ∧ tracker.required = 2 ∧
            tracker.satisfied = false := by
  have built : staggered.Built := Graph.Built.empty.addAll _ () _ ⟨rfl, rfl⟩
  obtain ⟨p, t, hstart, -⟩ := start_ensures (s := refusing) rfl rfl built
    ⟨by decide, by decide, by decide⟩ rfl (by unfold Config.Covers; decide)
  have hlist : ((start staggered).run refusing).result.map Plan.unreachable =
      .ok (.ok [(1, 1, 2)]) := by decide +kernel
  rw [hstart.1] at hlist
  obtain ⟨us, hus, halarms⟩ := alarms_hold rfl rfl hstart
  obtain rfl : us = [(1, 1, 2)] := Except.ok.inj (hus.symm.trans (Except.ok.inj hlist))
  obtain ⟨chain, tracker, hrest⟩ := halarms [.record, .recordGroup 1] _ List.mem_cons_self
  exact ⟨p, t, chain, tracker, hstart, hus, hrest⟩

end Scheduler

end FrameSchedule
