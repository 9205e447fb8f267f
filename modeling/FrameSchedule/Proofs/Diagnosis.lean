import FrameSchedule.Proofs.Signals

/-!
# What the beginning of a frame warns about

The beginning of a frame sums up, for each tracker, the signals of the groups whose own
handles reach it, and warns about a tracker that requires more.  A run sends the signals
of all groups of a handler through the handle of the first one.  The two agree for every
handler that does not straddle the tracker (`Handler.Straddles`): a tracker that no
handler straddles and that was not warned about is satisfied at the end of a frame without
faults (`Scheduler.warned_or_straddled`).

A handler that goes on behind a presentation does straddle, and then a tracker can stay
unsatisfied without a warning (`Scheduler.straddled_unwarned`).
-/

namespace FrameSchedule

/-! ## Notices of a step -/

namespace Step

variable {σ α β : Type} {x : Step σ α} {f : α → Step σ β} {s t : σ} {a : α} {n : Notice}

/-- What a first step notes is in the journal of the sequence. -/
theorem mem_journal_bind_left (h : n ∈ (x.run s).journal) :
    n ∈ ((x >>= f).run s).journal := by
  rw [run_bind, Outcome.andThen]
  split
  · exact h
  · exact List.mem_append_left _ h

theorem mem_journal_bind_right (hx : x.Yields s a t) (h : n ∈ ((f a).run t).journal) :
    n ∈ ((x >>= f).run s).journal := by
  rcases hx with ⟨hresult, rfl⟩
  rw [run_bind, Outcome.andThen, hresult]
  exact List.mem_append_right _ h

end Step

namespace Scheduler

variable {σ Λ : Type} {s t : Scheduler σ Λ} {graph : Graph} {p : Plan}

/-- Every tracker on the list is warned about. -/
theorem mem_journal_warnUnreachable {us : List (Nat × UInt32 × UInt32)}
    (hus : p.unreachable = .ok us) {u : Nat × UInt32 × UInt32} (hu : u ∈ us) :
    Notice.unreachable u.1 u.2.1 u.2.2 ∈ ((warnUnreachable p).run s).journal := by
  have hall : Notice.unreachable u.1 u.2.1 u.2.2 ∈ ((Step.forEach (fun u =>
      Step.note (.unreachable u.1 u.2.1 u.2.2)) us).run s).journal := by
    clear hus
    induction us with
    | nil => cases hu
    | cons v us ih =>
      rcases List.mem_cons.1 hu with rfl | hu
      · exact Step.mem_journal_bind_left List.mem_cons_self
      · exact Step.mem_journal_bind_right ⟨rfl, rfl⟩ (ih hu)
  unfold warnUnreachable
  rw [hus]
  exact Step.mem_journal_bind_right ⟨rfl, rfl⟩ hall

/-- The beginning of a frame warns about every tracker that cannot be satisfied. -/
theorem exists_warned (hstart : (start graph).Yields s p t) :
    ∃ us, p.unreachable = .ok us ∧
      ∀ u ∈ us, Notice.unreachable u.1 u.2.1 u.2.2 ∈ ((start graph).run s).journal := by
  unfold start at hstart ⊢
  rw [Step.yields_read_bind] at hstart
  cases hconfig : s.config? with
  | none =>
    rw [hconfig] at hstart
    exact (Step.not_yields_of_run (Step.run_fail _) hstart).elim
  | some c =>
    simp only [hconfig] at hstart
    obtain ⟨_, s₁, hopen, hstart⟩ := Step.yields_bind.1 hstart
    obtain ⟨p', s₂, hplan, hstart⟩ := Step.yields_bind.1 hstart
    obtain ⟨_, s₃, hnote, hstart⟩ := Step.yields_bind.1 hstart
    obtain ⟨_, s₄, hwarn, hstart⟩ := Step.yields_bind.1 hstart
    obtain ⟨_, s₅, hwrite, hresult, -⟩ := Step.yields_bind.1 hstart
    obtain rfl : p' = p := Except.ok.inj hresult
    obtain ⟨-, us, hus⟩ := warnUnreachable_permits p' s₃ _ _ hwarn
    refine ⟨us, hus, fun u hu => ?_⟩
    refine Step.mem_journal_bind_right ⟨rfl, rfl⟩ ?_
    simp only [hconfig]
    refine Step.mem_journal_bind_right hopen (Step.mem_journal_bind_right hplan
      (Step.mem_journal_bind_right hnote (Step.mem_journal_bind_left ?_)))
    exact mem_journal_warnUnreachable hus hu

end Scheduler

/-! ## Sums of signals -/

/-- The handler does not signal the tracker at a position, and one of its groups that has
signals does reach it. -/
def Handler.Straddles (k : Nat) (h : Handler) : Prop :=
  h.reaches k = false ∧ ∃ G ∈ h.groups, Plan.reaches k G = true ∧ G.signals ≠ 0

namespace Plan

variable {p : Plan} {k : Nat}

/-- A tracker that is not on the list can have all that it requires. -/
theorem le_reachable {us : List (Nat × UInt32 × UInt32)} (hus : p.unreachable = .ok us)
    {chain : Chain} (hchain : p.chain? = some chain) {t : Tracker}
    (ht : chain.trackers[k]? = some t) :
    ∃ w, p.reachable k = .ok w ∧ (w < t.required → (k, w, t.required) ∈ us) := by
  simp only [unreachable, hchain, Option.map_some, Option.getD_some] at hus
  cases hsums : chain.trackers.zipIdx.mapM fun t => do
      return (t.2, ← p.reachable t.2, t.1.required) with
  | error fault => rw [hsums] at hus; cases hus
  | ok sums =>
    rw [hsums] at hus
    cases hus
    have hall := mapM_eq_ok_iff.1 hsums
    have hzip : chain.trackers.zipIdx[k]? = some (t, k) := by
      rw [List.getElem?_zipIdx, ht, Option.map_some, Nat.zero_add]
    obtain ⟨hlt, hget⟩ := List.getElem?_eq_some_iff.1 hzip
    have hlt' : k < sums.length := hall.length_eq ▸ hlt
    have hat := (List.forall₂_iff_get.1 hall).2 k hlt hlt'
    rw [List.get_eq_getElem, List.get_eq_getElem, hget] at hat
    cases hw : p.reachable k with
    | error fault => simp only [hw] at hat; cases hat
    | ok w =>
      simp only [hw] at hat
      refine ⟨w, rfl, fun hless => List.mem_filter.2 ⟨?_, decide_eq_true hless⟩⟩
      exact Except.ok.inj hat ▸ List.getElem_mem hlt'

/-- The signals of the groups that reach a tracker, handler by handler. -/
theorem total_reaches_cons (k : Nat) (H : Handler) (hs : List Handler) :
    Count.total ((((H :: hs).flatMap (·.groups)).filter (reaches k)).map (·.signals)) =
      Count.total ((H.groups.filter (reaches k)).map (·.signals)) +
        Count.total (((hs.flatMap (·.groups)).filter (reaches k)).map (·.signals)) := by
  rw [List.flatMap_cons, List.filter_append, List.map_append, Count.total_eq_sum,
    List.map_append, List.sum_append, ← Count.total_eq_sum, ← Count.total_eq_sum]

/-- Without a handler that straddles a tracker, the groups that reach it are those of
handlers that signal it. -/
theorem total_reaches_le (formed : p.Formed) (hnone : ∀ H ∈ p.handlers, ¬ H.Straddles k) :
    Count.total ((p.groups.filter (reaches k)).map (·.signals)) ≤
      Handler.sentTo k p.handlers := by
  rw [← formed.flatMap_groups]
  generalize p.handlers = hs at hnone
  induction hs with
  | nil => exact Nat.le_refl 0
  | cons H hs ih =>
    have hrest := ih fun H' hH' => hnone H' (List.mem_cons_of_mem H hH')
    have hfirst : Count.total ((H.groups.filter (reaches k)).map (·.signals)) ≤
        if H.reaches k then H.signals else 0 := by
      split
      · exact Count.total_le_of_sublist (List.filter_sublist.map _)
      · rename_i hreach
        rw [Count.total_eq_sum, Nat.le_zero, List.sum_eq_zero_iff]
        intro n hn
        obtain ⟨w, hw, rfl⟩ := List.mem_map.1 hn
        obtain ⟨G, hG, rfl⟩ := List.mem_map.1 hw
        obtain ⟨hmem, hreaches⟩ := List.mem_filter.1 hG
        by_contra hne
        refine hnone H List.mem_cons_self ⟨Bool.eq_false_iff.2 hreach, G, hmem, hreaches, ?_⟩
        exact fun hzero => hne (congrArg UInt32.toNat hzero)
    rw [Handler.sentTo_cons, total_reaches_cons]
    exact Nat.add_le_add hfirst hrest

end Plan

/-! ## The end of a frame -/

namespace Scheduler

variable {σ Λ : Type}

/-- The tracker at a position is unsatisfied although every handler has submitted and no
batch was refused. -/
def Stuck (k : Nat) (t : Scheduler (Receipted σ Λ) Λ) : Prop :=
  ∃ f ∈ t.frame?, f.executed = f.plan.handlers.map (fun _ => true) ∧
    (∀ r ∈ t.device.receipts, r.accepted = true) ∧
      ∃ chain ∈ f.chain?, ∃ u ∈ chain.trackers[k]?, u.satisfied = false

instance (k : Nat) (t : Scheduler (Receipted σ Λ) Λ) : Decidable (t.Stuck k) := by
  unfold Stuck
  infer_instance

/-- **A tracker that stays unsatisfied** was warned about at the beginning of the frame,
or there is a handler that straddles it. -/
theorem warned_or_straddled {b : Backend σ Λ} {s t : Scheduler (Receipted σ Λ) Λ}
    {graph : Graph} {p : Plan} (hbackend : s.backend = Receipted.backend b)
    (hfresh : s.device.receipts = []) (hstart : (start graph).Yields s p t)
    (requests : List Request) {k : Nat} (hstuck : (t.through (requests.map .request)).Stuck k) :
    (∃ reachable required,
        Notice.unreachable k reachable required ∈ ((start graph).run s).journal) ∨
      ∃ H ∈ p.handlers, H.Straddles k := by
  have formed := (start_permits graph s p t hstart).1
  obtain ⟨l, hrun, h⟩ := through_requests hbackend hfresh hstart requests
  rw [hrun] at hstuck
  rcases hstuck with ⟨_, ⟨rfl⟩, hall, haccepted, chain, hchain, u, hu, hunsatisfied⟩
  rw [h.plan] at hall
  by_contra hneither
  obtain ⟨hunwarned, hnone⟩ := not_or.1 hneither
  obtain ⟨us, hus, hwarned⟩ := exists_warned hstart
  obtain ⟨planned, t₀, hplanned, ht₀, hrequired, hsignalled⟩ := h.signalled formed hchain hu
  obtain ⟨w, hw, hlisted⟩ := Plan.le_reachable hus hplanned ht₀
  have hle : t₀.required.toNat ≤ w.toNat := by
    refine Nat.le_of_not_lt fun hless => hunwarned ⟨w, t₀.required, ?_⟩
    exact hwarned _ (hlisted (UInt32.lt_iff_toNat_lt.2 hless))
  have hcursor := h.cursor_eq hall
  have hlength := h.receipts.length_eq
  rw [hcursor, List.take_length] at hlength
  have hsent : w.toNat ≤ u.signalled.toNat := by
    rw [hsignalled, hcursor, List.take_length, Handler.acceptedOf_eq hlength haccepted,
      Count.sum_eq_ok_iff.1 hw]
    exact Plan.total_reaches_le formed fun H hH hstraddles => hnone ⟨H, hH, hstraddles⟩
  have hsatisfied : u.satisfied = true := by
    rw [Tracker.satisfied_iff, hrequired]
    omega
  rw [hsatisfied] at hunsatisfied
  cases hunsatisfied

/-- Two subpasses of one render pass, with a presentation between them. -/
def straddling : Graph :=
  ((Graph.addAll [
    { name := "a", group? := some ⟨1⟩, sync := { swapchains := [⟨1⟩] } },
    { name := "b", group? := some ⟨1⟩,
      sync := { waitSemaphores := [⟨1⟩], swapchains := [⟨2⟩] } }]).run {}).state

theorem exists_start_straddling :
    ∃ p t, (start straddling).Yields receipting p t := by
  have built : straddling.Built := Graph.Built.empty.addAll _ () _ ⟨rfl, rfl⟩
  obtain ⟨p, t, hstart, -⟩ := start_ensures (s := receipting) rfl rfl built
    ⟨by decide, by decide, by decide⟩ rfl (by unfold Config.Covers; decide)
  exact ⟨p, t, hstart⟩

theorem warned_or_straddled_straddling :
    ∃ p t, (start straddling).Yields receipting p t ∧ (t.through [.request .record]).Stuck 1 ∧
      ((∃ reachable required, Notice.unreachable 1 reachable required ∈
          ((start straddling).run receipting).journal) ∨ ∃ H ∈ p.handlers, H.Straddles 1) := by
  obtain ⟨p, t, hstart⟩ := exists_start_straddling
  have hstuck : (t.through [.request .record]).Stuck 1 := by
    rw [← hstart.2]
    decide +kernel
  exact ⟨p, t, hstart, hstuck, warned_or_straddled rfl rfl hstart [.record] hstuck⟩

/-- The tracker of the second presentation is never satisfied, and nothing warns of it: its
signals are sent through the handle of the first subpass. -/
theorem straddled_unwarned :
    ∃ p t, (start straddling).Yields receipting p t ∧ (t.through [.request .record]).Stuck 1 ∧
      p.unreachable = .ok [] ∧
        ∀ n ∈ ((start straddling).run receipting).journal, n.severity ≠ .warn := by
  obtain ⟨p, t, hstart⟩ := exists_start_straddling
  refine ⟨p, t, hstart, ?_, ?_, by decide +kernel⟩
  · rw [← hstart.2]
    decide +kernel
  · have hlist : ((start straddling).run receipting).result.map Plan.unreachable =
        .ok (.ok []) := by decide +kernel
    rw [hstart.1] at hlist
    exact Except.ok.inj hlist

end Scheduler

end FrameSchedule
