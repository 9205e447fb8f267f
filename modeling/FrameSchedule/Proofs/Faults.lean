import FrameSchedule.Backend.Faulty
import FrameSchedule.Proofs.Retirement

/-!
# Frames under faults

An open frame meets any events in any order, over a backend that may refuse or give up at
any call (`Live.Carries.through`).  From the opening of the frame on, its handlers submit
once and in their order, and as many of them have retired as may, up to the first
submission that is refused (`Scheduler.submits_once_in_order`).  The next call that finds
a complete handler still to submit takes this up again.
-/

namespace FrameSchedule

variable {σ Λ : Type}

/-! ## Runs -/

namespace Live

open Scheduler

variable {p : Plan} {own q : Prop} {rs : List (Receipt Λ)} {l : Live (Receipted σ Λ) Λ}
  {s : Scheduler (Receipted σ Λ) Λ} {b : Backend σ Λ}

/-- A call that neither ends at an overflow nor has a batch refused is not spoilt. -/
theorem not_spoilt {stop : Stop} (hstop : stop ≠ .fault .addOverflow)
    (haccepted : ∀ r ∈ l.backend.receipts.drop rs.length, r.accepted = true) :
    ¬ l.Spoilt own rs stop := by
  intro hspoilt
  rcases hspoilt with ⟨added, hadded, r, hr, hrefused⟩ | ⟨hoverflow, -⟩
  · rw [hadded, List.drop_left] at haccepted
    rw [haccepted r hr] at hrefused
    cases hrefused
  · exact hstop hoverflow

/-- A step of the open frame, taken by the scheduler. -/
theorem LeavesCarried.inFrame {α : Type} {x : Backend (Receipted σ Λ) Λ →
      Step (Live (Receipted σ Λ) Λ) α} (hbackend : s.backend = Receipted.backend b)
    (h : LeavesCarried p own rs q (x (Receipted.backend b)) l) :
    (inFrame x).Leaves (s.put l) (fun _ s' => ∃ l', s' = s.put l' ∧ l'.Carries p own rs q)
      fun stop s' => ∃ l', s' = s.put l' ∧
        l'.Carries p own rs (q ∧ ¬ l'.Spoilt own rs stop) := by
  rw [leaves_inFrame, hbackend]
  exact h.mono (fun _ l' hl' => ⟨l', rfl, hl'⟩) fun _ l' hl' => ⟨l', rfl, hl'⟩

/-- What a step of the scheduler leaves of the open frame, said of the state it leads to. -/
theorem exists_of_leaves {α : Type} {x : Step (Scheduler (Receipted σ Λ) Λ) α}
    (h : x.Leaves (s.put l) (fun _ s' => ∃ l', s' = s.put l' ∧ l'.Carries p own rs q)
      fun stop s' => ∃ l', s' = s.put l' ∧ l'.Carries p own rs (q ∧ ¬ l'.Spoilt own rs stop)) :
    ∃ l', (x.run (s.put l)).state = s.put l' ∧ l'.Carries p own rs
      (q ∧ (x.run (s.put l)).result ≠ .error (.fault .addOverflow) ∧
        ∀ r ∈ l'.backend.receipts.drop rs.length, r.accepted = true) := by
  apply h.elim
  · intro a _ hpost
    rcases hpost with ⟨l', hstate, hl'⟩
    exact ⟨l', hstate, hl'.imp And.left⟩
  · intro stop hresult hhalt
    rcases hhalt with ⟨l', hstate, hl'⟩
    refine ⟨l', hstate, hl'.imp fun hgood => ?_⟩
    rcases hgood with ⟨hq, hcalm, haccepted⟩
    refine ⟨hq, not_spoilt (fun hoverflow => hcalm ?_) haccepted⟩
    rw [hresult, hoverflow]

/-- One event. -/
theorem Carries.meet (h : l.Carries p own rs q) (formed : p.Formed)
    (hbackend : s.backend = Receipted.backend b) {e : Event}
    (howned : own → ∃ r, e = .request r) :
    ∃ l', ((meet e).run (s.put l)).state = s.put l' ∧ l'.Carries p own rs
      (q ∧ ((meet e).run (s.put l)).result ≠ .error (.fault .addOverflow) ∧
        ∀ r ∈ l'.backend.receipts.drop rs.length, r.accepted = true) := by
  apply exists_of_leaves
  cases e with
  | request r =>
    have hserve := h.serve formed b s.policy r
    rw [← hbackend] at hserve
    exact (leaves_serve r).2 (hserve.mono (fun _ l' hl' => ⟨l', rfl, hl'⟩)
      fun _ l' hl' => ⟨l', rfl, hl'⟩)
  | disturb chain =>
    have hnot : ¬ own := fun hown => by
      obtain ⟨r, hr⟩ := howned hown
      cases hr
    refine Step.Leaves.mono (leaves_disturb chain) ?_ fun _ _ hfalse => hfalse
    intro _ s' hs'
    rcases hs' with ⟨chain?, rfl⟩
    exact ⟨_, rfl, { h with chain := fun hown => (hnot hown).elim }⟩

/-- **Events in any order** leave a frame that submits in order, and that has caught up
if no batch was refused and no call has ended at an overflow. -/
theorem Carries.through (h : l.Carries p own rs q) (formed : p.Formed)
    (hbackend : s.backend = Receipted.backend b) (events : List Event)
    (howned : own → ∀ e ∈ events, ∃ r, e = .request r) :
    ∃ l', (s.put l).through events = s.put l' ∧ l'.Carries p own rs
      (q ∧ Calm events (s.put l) ∧ ∀ r ∈ l'.backend.receipts, r.accepted = true) := by
  induction events generalizing l rs q with
  | nil => exact ⟨l, rfl, h.imp And.left⟩
  | cons e es ih =>
    have hnow : Carries p own l.backend.receipts q l := { h with earlier := List.prefix_rfl }
    obtain ⟨l₁, hstate, h₁⟩ := hnow.meet formed hbackend
      fun hown => howned hown e List.mem_cons_self
    have hnext : Carries p own l₁.backend.receipts _ l₁ :=
      { h₁ with earlier := List.prefix_rfl }
    obtain ⟨l₂, hrun, h₂⟩ := ih hnext
      fun hown e' he' => howned hown e' (List.mem_cons_of_mem e he')
    have hgrown := h₁.earlier.trans h₂.earlier
    refine ⟨l₂, ?_, { h₂ with earlier := h.earlier.trans hgrown, caught := fun hgood => ?_ }⟩
    · rw [← hrun, ← hstate]
      rfl
    · rcases hgood with ⟨hq, ⟨hresult, hcalm⟩, haccepted⟩
      rw [hstate] at hcalm
      refine h₂.caught ⟨⟨hq, hresult, fun r hr => haccepted r ?_⟩, hcalm, haccepted⟩
      exact h₂.earlier.subset (List.drop_subset _ _ hr)

/-- A frame that has been opened has nothing to catch up on. -/
theorem carries_ofPlan (own : Prop) (formed : p.Formed) (graph : Graph) {device : Receipted σ Λ}
    (hfresh : device.receipts = []) :
    Carries p own [] True (⟨device, .ofPlan graph p⟩ : Live (Receipted σ Λ) Λ) := by
  have horder : InOrder p (⟨device, .ofPlan graph p⟩ : Live (Receipted σ Λ) Λ) := {
    plan := rfl
    le := Nat.zero_le _
    executed := by simp [Frame.ofPlan, List.map_const']
    complete := by simp [Frame.ofPlan]
    receipts := by
      rw [hfresh]
      exact .nil }
  refine { horder with chain := fun _ => ?_, earlier := List.nil_prefix, caught := fun _ => ?_ }
  · simp [Frame.ofPlan, Handler.acceptedOf]
  · refine horder.caughtUp_iff.2 fun H hH => ?_
    have hfirst := formed.getElem?_index
      (formed.mem_groups (List.mem_of_getElem? hH) List.mem_cons_self)
    have hblank : (Frame.ofPlan graph p : Frame Λ).progress[H.first.index]? =
        some (.blank H.first.lists) := by
      rw [Frame.ofPlan, List.getElem?_map, hfirst, Option.map_some]
    refine List.all_eq_false.2 ⟨H.first, List.mem_cons_self, ?_⟩
    rw [Frame.groupComplete_of_progress hblank]
    exact Bool.false_ne_true

end Live

namespace Scheduler

/-- **Handlers submit once and in order.**  Whatever happens to an open frame, those that
are executed are the ones before the cursor, each complete and with one receipt.  As long
as no batch is refused and no call ends at an overflow they are the longest row of
complete ones, and a call for a complete handler that is still to submit makes them so
again. -/
theorem submits_once_in_order {b : Backend σ Λ} {s t : Scheduler (Receipted σ Λ) Λ}
    {graph : Graph} {p : Plan} (hbackend : s.backend = Receipted.backend b)
    (hfresh : s.device.receipts = []) (hstart : (start graph).Yields s p t)
    (events : List Event) :
    (p.handlers.map (·.id)).Nodup ∧ ∃ l, t.through events = t.put l ∧ l.InOrder p ∧
      (Calm events t → (∀ r ∈ l.backend.receipts, r.accepted = true) → l.frame.CaughtUp) ∧
      ∀ (k position : Nat) (G : Group) (H : Handler), p.groups[k]? = some G →
        p.handlers[position]? = some H → G ∈ H.groups → l.frame.handlerComplete H = true →
          l.frame.handlerExecuted position = false →
            ∃ l', ((executeGroup k).run (t.put l)).state = t.put l' ∧
              (((executeGroup k).run (t.put l)).result ≠ .error (.fault .addOverflow) →
                (∀ r ∈ l'.backend.receipts.drop l.backend.receipts.length, r.accepted = true) →
                  l'.frame.CaughtUp) := by
  obtain ⟨formed, rfl⟩ := start_permits graph s p t hstart
  have hopened := Live.carries_ofPlan (Λ := Λ) False formed graph hfresh
  obtain ⟨l, hrun, h⟩ := hopened.through formed hbackend events False.elim
  refine ⟨formed.distinct, l, hrun, h.toInOrder, ?_, ?_⟩
  · exact fun hcalm haccepted => h.caught ⟨trivial, hcalm, haccepted⟩
  · intro k position G H hG hH hmem hcomplete hnew
    obtain rfl := h.plan
    have hretire : Live.LeavesCarried l.frame.plan False l.backend.receipts True
        (Live.executeGroup (Receipted.backend b) k) l := by
      rw [Live.LeavesCarried, Live.leaves_executeGroup formed hG hH hmem,
        if_neg (by simp [hcomplete, hnew])]
      exact h.retire formed b List.prefix_rfl
    obtain ⟨l', hstate, hl'⟩ := Live.exists_of_leaves
      (hretire.inFrame (x := fun b => Live.executeGroup b k) hbackend)
    exact ⟨l', hstate, fun hresult haccepted => hl'.caught ⟨trivial, hresult, haccepted⟩⟩

/-- Requests alone leave the trackers to the frame. -/
theorem through_requests {b : Backend σ Λ} {s t : Scheduler (Receipted σ Λ) Λ}
    {graph : Graph} {p : Plan} (hbackend : s.backend = Receipted.backend b)
    (hfresh : s.device.receipts = []) (hstart : (start graph).Yields s p t)
    (requests : List Request) :
    ∃ l, t.through (requests.map .request) = t.put l ∧ l.Kept p True := by
  obtain ⟨formed, rfl⟩ := start_permits graph s p t hstart
  have hopened := Live.carries_ofPlan (Λ := Λ) True formed graph hfresh
  obtain ⟨l, hrun, h⟩ := hopened.through formed hbackend (requests.map .request)
    fun _ e he => (List.mem_map.1 he).imp fun _ hr => hr.2.symm
  exact ⟨l, hrun, h.toKept⟩

/-- A scheduler on the backend in memory, with one device and with receipts. -/
def receipting : Scheduler (Receipted Memory MemoryList) MemoryList where
  backend := Receipted.backend Memory.backend
  policy := .parallel
  device := { inner := {} }
  config? := some .plain

/-- A scheduler on a backend that refuses its first submission. -/
def refusing : Scheduler (Receipted (Faulty Memory) MemoryList) MemoryList where
  backend := Receipted.backend (Faulty.backend { submission := [1] } .foreign Memory.backend)
  policy := .parallel
  device := { inner := { inner := {} } }
  config? := some .plain

/-- The short frame on a backend that refuses its first submission: the second group has
been recorded, the whole frame is recorded, and the first batch is refused.  The second
group then asks for execution. -/
theorem submits_once_in_order_short :
    ∃ p t l l', (start .short).Yields refusing p t ∧
      t.through [.request (.recordGroup 1), .request .record] = t.put l ∧ l.InOrder p ∧
        l.backend.receipts.map (·.accepted) = [false] ∧
          ((executeGroup 1).run (t.put l)).state = t.put l' ∧ l'.frame.CaughtUp := by
  obtain ⟨p, t, hstart, -, -⟩ := start_ensures (s := refusing) rfl rfl Graph.short_built
    Graph.short_countable rfl Config.plain_covers
  obtain ⟨-, l, hrun, horder, -, hrestore⟩ := submits_once_in_order rfl rfl hstart
    [.request (.recordGroup 1), .request .record]
  obtain ⟨-, rfl⟩ := id hstart
  have hreceipts : l.backend.receipts.map (·.accepted) = [false] :=
    (congrArg (·.device.receipts.map (·.accepted)) hrun).symm.trans (by decide +kernel)
  -- the second handler is complete and has not submitted
  have hwaiting : l.frame.plan.groups[1]?.any (fun G => l.frame.plan.handlers[1]?.any fun H =>
      G ∈ H.groups ∧ l.frame.handlerComplete H = true ∧ l.frame.handlerExecuted 1 = false) :=
    (congrArg (·.frame?.any fun f => f.plan.groups[1]?.any fun G => f.plan.handlers[1]?.any fun H =>
      G ∈ H.groups ∧ f.handlerComplete H = true ∧ f.handlerExecuted 1 = false) hrun).symm.trans
      (by decide +kernel)
  obtain ⟨G, hG, hhandler⟩ := (Option.any_eq_true _ _).1 hwaiting
  obtain ⟨H, hH, hstate⟩ := (Option.any_eq_true _ _).1 hhandler
  obtain ⟨hmem, hcomplete, hnew⟩ := of_decide_eq_true hstate
  rw [horder.plan] at hG hH
  obtain ⟨l', hnext, hcaught⟩ := hrestore 1 1 G H hG hH hmem hcomplete hnew
  have hresult : ((executeGroup 1).run (((start .short).run refusing).state.put l)).result =
      .ok () := by
    rw [← hrun]
    decide +kernel
  have haccepted : l'.backend.receipts.map (·.accepted) = [false, true] := by
    have hdevice := congrArg (·.device.receipts.map (·.accepted)) hnext
    rw [← hrun] at hdevice
    exact hdevice.symm.trans (by decide +kernel)
  refine ⟨p, _, l, l', hstart, hrun, horder, hreceipts, hnext, hcaught ?_ ?_⟩
  · rw [hresult]
    exact fun hstop => by cases hstop
  · intro r hr
    have hlength := congrArg List.length hreceipts
    rw [List.length_map] at hlength
    have hlast := List.mem_map_of_mem (f := (·.accepted)) hr
    rw [List.map_drop, haccepted, hlength] at hlast
    exact List.mem_singleton.1 hlast

end Scheduler

end FrameSchedule
