import FrameSchedule.Proofs.Graphs
import Mathlib.Algebra.BigOperators.Intervals
import Mathlib.Algebra.Order.BigOperators.Group.Finset
import Mathlib.Algebra.Order.Ring.Nat
import Mathlib.Data.Finset.Card

/-!
# Epochs and accounts

The presentations of a frame cut it into epochs.  A scope accounts for one signal for each
primitive that it waits for, and one for each fence that it leaves to the presentation
which ends its epoch: a fence that no scope of the epoch waits for, and that no scope of
the epoch has signalled before (`Graph.account`).  All of this is said of the graph alone.
-/

namespace FrameSchedule

namespace Graph

variable {g : Graph} {e i j m : Nat} {f : FenceId}

/-! ## Epochs -/

/-- The epoch of a position: how many of the scopes before it present something. -/
def epoch (g : Graph) (i : Nat) : Nat :=
  (g.scopes.take i).countP (·.sync.presents)

@[simp] theorem epoch_zero (g : Graph) : g.epoch 0 = 0 := by
  rw [epoch, List.take_zero, List.countP_nil]

theorem epoch_succ (hi : i < g.scopes.length) :
    g.epoch (i + 1) = g.epoch i + if (g.scopeAt i).sync.presents then 1 else 0 := by
  rw [epoch, List.take_succ_eq_append_getElem hi, List.countP_append, List.countP_singleton,
    getElem_eq_scopeAt hi, epoch]

theorem epoch_mono (h : i ≤ j) : g.epoch i ≤ g.epoch j :=
  (List.take_sublist_take_left h).countP_le

/-- The epoch ends with a scope that presents something. -/
theorem epoch_le_iff (hi : i < g.scopes.length) (hpresents : (g.scopeAt i).sync.presents = true) :
    g.epoch j ≤ g.epoch i ↔ j ≤ i := by
  constructor
  · intro hle
    by_contra hlt
    have hmono : g.epoch (i + 1) ≤ g.epoch j := epoch_mono (by omega)
    rw [epoch_succ hi, if_pos hpresents] at hmono
    omega
  · exact epoch_mono

/-- An epoch that is presented ends. -/
theorem epoch_lt_of_presents (hi : i < g.scopes.length)
    (hpresents : (g.scopeAt i).sync.presents = true) :
    g.epoch i < g.epoch g.scopes.length := by
  have hmono : g.epoch (i + 1) ≤ g.epoch g.scopes.length := epoch_mono hi
  rw [epoch_succ hi, if_pos hpresents] at hmono
  omega

/-- Before the last scope of a frame that presents nothing before it, no epoch ends. -/
theorem epoch_eq_zero (h : ∀ k, k + 1 < g.scopes.length → (g.scopeAt k).sync.presents = false)
    (hj : j < g.scopes.length) : g.epoch j = 0 := by
  induction j with
  | zero => exact epoch_zero g
  | succ j ih =>
    have hlt := Nat.lt_of_succ_lt hj
    rw [epoch_succ hlt, ih hlt, h j hj]
    rfl

/-! ## Fences -/

/-- The first scope of an epoch before position `m` that signals a fence. -/
def firstSignal (g : Graph) (e m : Nat) (f : FenceId) : Option Nat :=
  (List.range m).find? fun j => g.epoch j = e ∧ f ∈ (g.scopeAt j).sync.signalFences

/-- A scope of an epoch before position `m` waits for a fence. -/
def WaitsBefore (g : Graph) (e m : Nat) (f : FenceId) : Prop :=
  ∃ j < m, g.epoch j = e ∧ f ∈ (g.scopeAt j).sync.waitFences

theorem firstSignal_succ (g : Graph) (m : Nat) (f : FenceId) :
    g.firstSignal (g.epoch m) (m + 1) f = (g.firstSignal (g.epoch m) m f).or
      (if f ∈ (g.scopeAt m).sync.signalFences then some m else none) := by
  rw [firstSignal, List.range_succ, List.find?_append, firstSignal]
  congr 1
  simp [List.find?_singleton]

theorem firstSignal_eq_some_iff : g.firstSignal e m f = some j ↔
    j < m ∧ g.epoch j = e ∧ f ∈ (g.scopeAt j).sync.signalFences ∧
      ∀ k < j, g.epoch k = e → f ∉ (g.scopeAt k).sync.signalFences := by
  rw [firstSignal, List.find?_range_eq_some]
  simp only [decide_eq_true_eq, List.mem_range, Bool.not_eq_true', decide_eq_false_iff_not,
    not_and]
  tauto

theorem of_firstSignal (h : g.firstSignal e m f = some j) : j < m ∧ g.epoch j = e := by
  obtain ⟨hj, hepoch, -⟩ := firstSignal_eq_some_iff.1 h
  exact ⟨hj, hepoch⟩

theorem waitsBefore_succ : g.WaitsBefore (g.epoch m) (m + 1) f ↔
    g.WaitsBefore (g.epoch m) m f ∨ f ∈ (g.scopeAt m).sync.waitFences := by
  constructor
  · intro hwaits
    rcases hwaits with ⟨j, hj, hepoch, hf⟩
    rcases Nat.lt_succ_iff_lt_or_eq.1 hj with hlt | rfl
    · exact .inl ⟨j, hlt, hepoch, hf⟩
    · exact .inr hf
  · intro hwaits
    rcases hwaits with ⟨j, hj, hepoch, hf⟩ | hf
    · exact ⟨j, Nat.lt_succ_of_lt hj, hepoch, hf⟩
    · exact ⟨m, Nat.lt_succ_self m, rfl, hf⟩

/-- Before its first scope an epoch has used no fence. -/
theorem firstSignal_eq_none (h : ∀ j < m, g.epoch j < e) : g.firstSignal e m f = none := by
  refine List.find?_eq_none.2 fun j hj => ?_
  have hlt := h j (List.mem_range.1 hj)
  simp only [decide_eq_true_eq, not_and]
  omega

theorem not_waitsBefore (h : ∀ j < m, g.epoch j < e) : ¬ g.WaitsBefore e m f := by
  intro hwaits
  rcases hwaits with ⟨j, hj, rfl, -⟩
  exact Nat.lt_irrefl _ (h j hj)

/-- The fence is one for the presentation that ends the epoch of a scope: no scope of the
epoch waits for it, and none before this scope signals it. -/
def LeftOver (g : Graph) (j : Nat) (f : FenceId) : Prop :=
  g.epoch j < g.epoch g.scopes.length ∧
    (∀ i < g.scopes.length, g.epoch i = g.epoch j → f ∉ (g.scopeAt i).sync.waitFences) ∧
      ∀ i < j, g.epoch i = g.epoch j → f ∉ (g.scopeAt i).sync.signalFences

instance (g : Graph) (j : Nat) : DecidablePred (g.LeftOver j) := by
  intro f
  unfold LeftOver
  infer_instance

/-- The fences that a scope leaves to a presentation. -/
def leftBy (g : Graph) (j : Nat) : Finset FenceId :=
  (g.scopeAt j).sync.signalFences.toFinset.filter (g.LeftOver j)

/-- The primitives that a scope waits for. -/
def waitsOf (g : Graph) (j : Nat) : Nat :=
  (g.scopeAt j).sync.waitCount.toNat

/-- The signals that a scope accounts for. -/
def account (g : Graph) (j : Nat) : Nat :=
  g.waitsOf j + (g.leftBy j).card

/-- When an epoch is presented, the fences left over are those that it has signalled and
not waited for, each left by the first scope that signalled it. -/
theorem mem_leftBy_iff (hi : i < g.scopes.length) (hpresents : (g.scopeAt i).sync.presents = true)
    (hj : g.epoch j = g.epoch i) :
    f ∈ g.leftBy j ↔ ¬ g.WaitsBefore (g.epoch i) (i + 1) f ∧
      g.firstSignal (g.epoch i) (i + 1) f = some j := by
  have hle : ∀ k, g.epoch k = g.epoch i → k < i + 1 := fun k hk =>
    Nat.lt_succ_of_le ((epoch_le_iff hi hpresents).1 (Nat.le_of_eq hk))
  have hended := epoch_lt_of_presents hi hpresents
  have hwaits : (∀ k < g.scopes.length, g.epoch k = g.epoch j →
      f ∉ (g.scopeAt k).sync.waitFences) ↔ ¬ g.WaitsBefore (g.epoch i) (i + 1) f := by
    rw [hj]
    constructor
    · intro hnone hwaits
      rcases hwaits with ⟨k, hk, hepoch, hf⟩
      exact hnone k (by omega) hepoch hf
    · intro hnone k _ hepoch hf
      exact hnone ⟨k, hle k hepoch, hepoch, hf⟩
  rw [leftBy, Finset.mem_filter, List.mem_toFinset, LeftOver, hwaits, firstSignal_eq_some_iff, hj]
  have hlt := hle j hj
  tauto

/-- Nothing is left to a presentation that does not come. -/
theorem leftBy_eq_empty (h : g.epoch g.scopes.length ≤ g.epoch j) : g.leftBy j = ∅ := by
  refine Finset.filter_eq_empty_iff.2 fun f _ hleft => ?_
  exact Nat.not_lt.2 h hleft.1

/-! ## Sums over epochs -/

/-- The sum of a measure over the scopes before position `m` in the epochs up to `k`. -/
def sumThrough (g : Graph) (measure : Nat → Nat) (m k : Nat) : Nat :=
  ∑ j ∈ Finset.range m, if g.epoch j ≤ k then measure j else 0

variable {measure : Nat → Nat}

theorem sumThrough_succ (k : Nat) : g.sumThrough measure (m + 1) k =
    g.sumThrough measure m k + if g.epoch m ≤ k then measure m else 0 :=
  Finset.sum_range_succ _ _

/-- An epoch without scopes adds nothing. -/
theorem sumThrough_congr {k k' : Nat} (h : ∀ j < m, g.epoch j ≤ k ↔ g.epoch j ≤ k') :
    g.sumThrough measure m k = g.sumThrough measure m k' := by
  refine Finset.sum_congr rfl fun j hj => ?_
  simp only [h j (Finset.mem_range.1 hj)]

/-- If the scopes before position `m` have all that the scopes of the epochs up to `k` have,
then none of the latter with a measure is left behind that position. -/
theorem lt_of_sumThrough_le {n k : Nat}
    (h : g.sumThrough measure n k ≤ ∑ i ∈ Finset.range m, measure i) (hj : j < n)
    (hepoch : g.epoch j ≤ k) (hpos : 0 < measure j) : j < m := by
  by_contra hge
  have hearlier : ∑ i ∈ Finset.range m, measure i = g.sumThrough measure m k := by
    refine Finset.sum_congr rfl fun i hi => (if_pos ?_).symm
    have hlt := Finset.mem_range.1 hi
    exact Nat.le_trans (epoch_mono (by omega)) hepoch
  have hgrow : g.sumThrough measure m k ≤ g.sumThrough measure j k :=
    Finset.sum_le_sum_of_subset (Finset.range_mono (Nat.le_of_not_lt hge))
  have hall : g.sumThrough measure (j + 1) k ≤ g.sumThrough measure n k :=
    Finset.sum_le_sum_of_subset (Finset.range_mono hj)
  rw [sumThrough_succ, if_pos hepoch] at hall
  omega

end Graph

end FrameSchedule
