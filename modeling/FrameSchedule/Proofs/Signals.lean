import FrameSchedule.Proofs.Faults

/-!
# What the trackers of a frame have been signalled

A handler sends its signals through the handle of its first group.  So a tracker that only
the frame signals has had the signals of exactly those handlers whose batches were
accepted and whose first group reaches it (`Live.Kept.signalled`).
-/

namespace FrameSchedule

namespace Handler

/-- The handler signals the tracker at a position. -/
def reaches (k : Nat) (h : Handler) : Bool :=
  Plan.reaches k h.first

/-- The signals that the tracker at a position gets from handlers. -/
def sentTo (k : Nat) (hs : List Handler) : Nat :=
  ((hs.filter (reaches k)).map (·.signals)).sum

theorem sentTo_cons (k : Nat) (h : Handler) (hs : List Handler) :
    sentTo k (h :: hs) = (if h.reaches k then h.signals else 0) + sentTo k hs := by
  simp only [sentTo, List.filter_cons]
  split
  · rw [List.map_cons, List.sum_cons]
  · rw [Nat.zero_add]

theorem settle_gain {h : Handler} {c : Chain} {n : Nat} (within : c.Within n)
    (fits : n + h.signals < UInt32.size) :
    Tracker.Gain (fun k => if h.reaches k then h.signals else 0) c.trackers
      (h.settle c).trackers := by
  by_cases hzero : h.signals = 0
  · rw [settle_of_none (.inl hzero), hzero]
    exact .refl fun k => ite_self 0
  · cases hhandle : h.first.handle? with
    | none =>
      rw [settle_of_none (.inr hhandle)]
      refine .refl fun k => if_neg ?_
      simp [reaches, Plan.reaches, hhandle]
    | some handle =>
      have hval : (UInt32.ofNat h.signals).toNat = h.signals := UInt32.toNat_ofNat_of_lt' (by omega)
      obtain ⟨hresult, hstate⟩ := signal_yields within fits hhandle hzero
      have hgain := (Chain.signalFirst_leaves (UInt32.ofNat h.signals) handle.reach
        c.trackers).of_yields ⟨hresult, rfl⟩
      rw [hval] at hgain
      rw [← hstate]
      refine hgain.congr fun k => ?_
      simp [reaches, Plan.reaches, hhandle]

/-- **What the trackers have been signalled** after handlers have submitted. -/
theorem settleAll_gain {hs : List Handler} {c : Chain} {n : Nat} (within : c.Within n)
    (fits : n + (hs.map (·.signals)).sum < UInt32.size) :
    Tracker.Gain (fun k => sentTo k hs) c.trackers (settleAll hs c).trackers := by
  induction hs generalizing c n with
  | nil => exact .refl fun _ => rfl
  | cons h hs ih =>
    rw [List.map_cons, List.sum_cons] at fits
    have hfirst := settle_gain (h := h) within (by omega)
    have hrest := ih (settle_within (h := h) within (by omega)) (by omega)
    exact (hfirst.trans hrest).congr fun k => (sentTo_cons k h hs).symm

/-- All handlers are among the accepted ones if all receipts say so. -/
theorem acceptedOf_eq {Λ : Type} {hs : List Handler} {rs : List (Receipt Λ)}
    (hlength : hs.length = rs.length) (haccepted : ∀ r ∈ rs, r.accepted = true) :
    acceptedOf hs rs = hs := by
  have hall : (hs.zip rs).filter (·.2.accepted) = hs.zip rs :=
    List.filter_eq_self.2 fun hr hmem => haccepted _ (List.of_mem_zip hmem).2
  rw [acceptedOf, hall, List.map_fst_zip (Nat.le_of_eq hlength)]

end Handler

namespace Live

variable {σ Λ : Type} {p : Plan} {l : Live (Receipted σ Λ) Λ} {chain : Chain}

/-- The trackers of a frame that nobody else signals have had the signals of the handlers
whose batches were accepted, and no other. -/
theorem Kept.gain (h : l.Kept p True) (formed : p.Formed)
    (hchain : l.frame.chain? = some chain) :
    ∃ planned, p.chain? = some planned ∧ (∀ t ∈ planned.trackers, t.signalled = 0) ∧
      Tracker.Gain (fun k => Handler.sentTo k
          (Handler.acceptedOf (p.handlers.take l.frame.cursor) l.backend.receipts))
        planned.trackers chain.trackers := by
  rw [h.chain trivial] at hchain
  obtain ⟨planned, hplanned, rfl⟩ := Option.map_eq_some_iff.1 hchain
  have hblank := formed.blank planned hplanned
  have within : planned.Within 0 := by
    intro t ht
    rw [hblank t ht]
    exact Nat.le_refl 0
  have hsub := Handler.acceptedOf_sublist h.receipts.length_eq
  have hsum := ((hsub.trans (List.take_sublist _ _)).map (·.signals)).sum_le_sum
    fun n _ => Nat.zero_le n
  have htotal := formed.total
  rw [← Handler.sum_signals formed] at htotal
  exact ⟨planned, hplanned, hblank, Handler.settleAll_gain within (by omega)⟩

/-- **What a tracker has been signalled** in a frame that nobody else signals: its
requirement is that of the plan. -/
theorem Kept.signalled (h : l.Kept p True) (formed : p.Formed)
    (hchain : l.frame.chain? = some chain) {k : Nat} {u : Tracker}
    (hu : chain.trackers[k]? = some u) :
    ∃ planned t, p.chain? = some planned ∧ planned.trackers[k]? = some t ∧
      u.required = t.required ∧ u.signalled.toNat = Handler.sentTo k
        (Handler.acceptedOf (p.handlers.take l.frame.cursor) l.backend.receipts) := by
  obtain ⟨planned, hplanned, hblank, hgain⟩ := h.gain formed hchain
  obtain ⟨t, ht⟩ := hgain.exists_before hu
  refine ⟨planned, t, hplanned, ht, hgain.required k t u ht hu, ?_⟩
  rw [hgain.signalled k t u ht hu, hblank t (List.mem_of_getElem? ht), UInt32.toNat_zero,
    Nat.zero_add]

end Live

end FrameSchedule
