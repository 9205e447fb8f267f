import FrameSchedule.Proofs.Epochs
import Mathlib.Algebra.Order.BigOperators.Group.Finset
import Mathlib.Data.Finset.Union

/-!
# What an epoch leaves to its presentation

A presentation is left the fences that its epoch signals and does not wait for
(`Graph.leftTo`).  Each of them is left by one scope, the first one of the epoch that signals
it, and no scope leaves anything else (`Graph.leftBy_eq_biUnion`).  So the fences that the
scopes of some epochs leave are, in number, those that the presentations of these epochs are
left (`Graph.sumThrough_card_leftBy`).
-/

namespace FrameSchedule

namespace Graph

variable {g : Graph} {e i j k m : Nat} {f : FenceId}

/-! ## The fences of an epoch -/

/-- The positions of an epoch. -/
def positions (g : Graph) (e : Nat) : Finset Nat :=
  (Finset.range g.scopes.length).filter (g.epoch · = e)

/-- The fences that an epoch signals. -/
def signalledIn (g : Graph) (e : Nat) : Finset FenceId :=
  (g.positions e).biUnion fun j => (g.scopeAt j).sync.signalFences.toFinset

/-- The fences that an epoch waits for. -/
def waitedIn (g : Graph) (e : Nat) : Finset FenceId :=
  (g.positions e).biUnion fun j => (g.scopeAt j).sync.waitFences.toFinset

/-- The fences that are left to the presentation at a position. -/
def leftTo (g : Graph) (i : Nat) : Finset FenceId :=
  if (g.scopeAt i).sync.presents then g.signalledIn (g.epoch i) \ g.waitedIn (g.epoch i) else ∅

theorem mem_positions : j ∈ g.positions e ↔ j < g.scopes.length ∧ g.epoch j = e := by
  rw [positions, Finset.mem_filter, Finset.mem_range]

theorem mem_signalledIn : f ∈ g.signalledIn e ↔
    ∃ j < g.scopes.length, g.epoch j = e ∧ f ∈ (g.scopeAt j).sync.signalFences := by
  simp only [signalledIn, Finset.mem_biUnion, mem_positions, List.mem_toFinset, and_assoc]

theorem mem_waitedIn : f ∈ g.waitedIn e ↔
    ∃ j < g.scopes.length, g.epoch j = e ∧ f ∈ (g.scopeAt j).sync.waitFences := by
  simp only [waitedIn, Finset.mem_biUnion, mem_positions, List.mem_toFinset, and_assoc]

theorem mem_leftTo : f ∈ g.leftTo i ↔ (g.scopeAt i).sync.presents = true ∧
    f ∈ g.signalledIn (g.epoch i) ∧ f ∉ g.waitedIn (g.epoch i) := by
  unfold leftTo
  split
  · rename_i hpresents
    rw [Finset.mem_sdiff]
    exact (and_iff_right hpresents).symm
  · rename_i hquiet
    exact iff_of_false (Finset.notMem_empty f) fun h => hquiet h.1

/-! ## Presentations -/

/-- An epoch that has ended has been presented. -/
theorem exists_presents (hm : m ≤ g.scopes.length) (he : e < g.epoch m) :
    ∃ i < m, (g.scopeAt i).sync.presents = true ∧ g.epoch i = e := by
  induction m with
  | zero =>
    rw [epoch_zero] at he
    exact absurd he (Nat.not_lt_zero e)
  | succ m ih =>
    rw [epoch_succ hm] at he
    by_cases hlt : e < g.epoch m
    · obtain ⟨i, hi, hpresents, hepoch⟩ := ih (Nat.le_of_succ_le hm) hlt
      exact ⟨i, Nat.lt_succ_of_lt hi, hpresents, hepoch⟩
    · split at he
      · rename_i hpresents
        exact ⟨m, Nat.lt_succ_self m, hpresents, by omega⟩
      · exact absurd he hlt

/-- Only one scope presents an epoch. -/
theorem eq_of_presents (hi : i < g.scopes.length) (hk : k < g.scopes.length)
    (hpresents : (g.scopeAt i).sync.presents = true)
    (hpresents' : (g.scopeAt k).sync.presents = true) (hepoch : g.epoch i = g.epoch k) : i = k :=
  Nat.le_antisymm ((epoch_le_iff hk hpresents').1 (Nat.le_of_eq hepoch))
    ((epoch_le_iff hi hpresents).1 (Nat.le_of_eq hepoch.symm))

/-! ## Who leaves what -/

/-- Of a fence that an epoch signals there is a first signal. -/
theorem exists_firstSignal (h : f ∈ g.signalledIn e) :
    ∃ j, g.firstSignal e g.scopes.length f = some j := by
  obtain ⟨j, hj, hsignals⟩ := mem_signalledIn.1 h
  refine Option.isSome_iff_exists.1 (List.find?_isSome.2 ⟨j, List.mem_range.2 hj, ?_⟩)
  exact decide_eq_true hsignals

/-- A scope leaves the fences of a presentation that it is the first to signal. -/
theorem mem_leftBy_iff_exists (hj : j < g.scopes.length) : f ∈ g.leftBy j ↔
    ∃ i < g.scopes.length, f ∈ g.leftTo i ∧
      g.firstSignal (g.epoch i) g.scopes.length f = some j := by
  simp only [leftBy, Finset.mem_filter, List.mem_toFinset, LeftOver, mem_leftTo, mem_signalledIn,
    mem_waitedIn, firstSignal_eq_some_iff]
  constructor
  · intro h
    rcases h with ⟨hsignals, hended, hunwaited, hfirst⟩
    -- the epoch of `j` has ended, so a scope `i` of it presents something
    obtain ⟨i, hi, hpresents, hepoch⟩ := exists_presents (Nat.le_refl _) hended
    rw [← hepoch] at hunwaited hfirst
    refine ⟨i, hi, ⟨hpresents, ⟨j, hj, hepoch.symm, hsignals⟩, fun hwaits => ?_⟩, hj, hepoch.symm,
      hsignals, hfirst⟩
    obtain ⟨k, hk, hsame, hwaits⟩ := hwaits
    exact hunwaited k hk hsame hwaits
  · intro h
    rcases h with ⟨i, hi, ⟨hpresents, -, hunwaited⟩, -, hepoch, hsignals, hfirst⟩
    rw [← hepoch] at hunwaited hfirst
    refine ⟨hsignals, hepoch ▸ epoch_lt_of_presents hi hpresents, fun k hk hsame hwaits => ?_,
      hfirst⟩
    exact hunwaited ⟨k, hk, hsame, hwaits⟩

/-- The fences of the presentation at `i` that the scope at `j` leaves to it. -/
def leftToBy (g : Graph) (i j : Nat) : Finset FenceId :=
  (g.leftTo i).filter (g.firstSignal (g.epoch i) g.scopes.length · = some j)

theorem mem_leftToBy : f ∈ g.leftToBy i j ↔
    f ∈ g.leftTo i ∧ g.firstSignal (g.epoch i) g.scopes.length f = some j :=
  Finset.mem_filter

/-- Nothing is left to the presentation of another epoch. -/
theorem leftToBy_eq_empty (h : g.epoch j ≠ g.epoch i) : g.leftToBy i j = ∅ :=
  Finset.filter_eq_empty_iff.2 fun _ _ hfirst => h (of_firstSignal hfirst).2

/-- A scope leaves nothing but its shares of the presentations. -/
theorem leftBy_eq_biUnion (hj : j < g.scopes.length) :
    g.leftBy j = (Finset.range g.scopes.length).biUnion (g.leftToBy · j) := by
  ext f
  simp only [mem_leftBy_iff_exists hj, Finset.mem_biUnion, Finset.mem_range, mem_leftToBy]

/-- A presentation is left the shares of the scopes. -/
theorem leftTo_eq_biUnion (g : Graph) (i : Nat) :
    g.leftTo i = (Finset.range g.scopes.length).biUnion (g.leftToBy i) := by
  ext f
  simp only [Finset.mem_biUnion, Finset.mem_range, mem_leftToBy]
  constructor
  · intro hleft
    obtain ⟨j, hj⟩ := exists_firstSignal (mem_leftTo.1 hleft).2.1
    exact ⟨j, (of_firstSignal hj).1, hleft, hj⟩
  · intro h
    obtain ⟨_, _, hleft, _⟩ := h
    exact hleft

theorem card_leftBy (hj : j < g.scopes.length) :
    (g.leftBy j).card = ∑ i ∈ Finset.range g.scopes.length, (g.leftToBy i j).card := by
  rw [leftBy_eq_biUnion hj, Finset.card_biUnion]
  intro i hi k hk hne
  refine Finset.disjoint_left.2 fun f hf hf' => hne ?_
  obtain ⟨hleft, hfirst⟩ := mem_leftToBy.1 hf
  obtain ⟨hleft', hfirst'⟩ := mem_leftToBy.1 hf'
  have hepoch : g.epoch i = g.epoch k :=
    (of_firstSignal hfirst).2.symm.trans (of_firstSignal hfirst').2
  exact eq_of_presents (Finset.mem_range.1 hi) (Finset.mem_range.1 hk) (mem_leftTo.1 hleft).1
    (mem_leftTo.1 hleft').1 hepoch

theorem card_leftTo (g : Graph) (i : Nat) :
    (g.leftTo i).card = ∑ j ∈ Finset.range g.scopes.length, (g.leftToBy i j).card := by
  conv => left; rw [leftTo_eq_biUnion]
  refine Finset.card_biUnion fun j _ k _ hne => ?_
  refine Finset.disjoint_left.2 fun f hf hf' => hne ?_
  exact Option.some_inj.1 ((mem_leftToBy.1 hf).2.symm.trans (mem_leftToBy.1 hf').2)

/-- **All that scopes leave is left to presentations**, in any number of epochs. -/
theorem sumThrough_card_leftBy (g : Graph) (k : Nat) :
    g.sumThrough (fun j => (g.leftBy j).card) g.scopes.length k =
      g.sumThrough (fun i => (g.leftTo i).card) g.scopes.length k := by
  -- a share is of one epoch, whether it is counted with the scope or with the presentation
  have hshare : ∀ i j, (if g.epoch j ≤ k then (g.leftToBy i j).card else 0) =
      if g.epoch i ≤ k then (g.leftToBy i j).card else 0 := by
    intro i j
    by_cases hepoch : g.epoch j = g.epoch i
    · rw [hepoch]
    · rw [leftToBy_eq_empty hepoch, Finset.card_empty, ite_self, ite_self]
  calc g.sumThrough (fun j => (g.leftBy j).card) g.scopes.length k
      = ∑ j ∈ Finset.range g.scopes.length, ∑ i ∈ Finset.range g.scopes.length,
          if g.epoch j ≤ k then (g.leftToBy i j).card else 0 := by
        refine Finset.sum_congr rfl fun j hj => ?_
        rw [Finset.sum_ite_irrel, Finset.sum_const_zero, ← card_leftBy (Finset.mem_range.1 hj)]
    _ = ∑ i ∈ Finset.range g.scopes.length, ∑ j ∈ Finset.range g.scopes.length,
          if g.epoch i ≤ k then (g.leftToBy i j).card else 0 := by
        rw [Finset.sum_comm]
        exact Finset.sum_congr rfl fun i _ => Finset.sum_congr rfl fun j _ => hshare i j
    _ = g.sumThrough (fun i => (g.leftTo i).card) g.scopes.length k := by
        refine Finset.sum_congr rfl fun i _ => ?_
        rw [Finset.sum_ite_irrel, Finset.sum_const_zero, ← card_leftTo]

/-- What scopes account for, they wait for or leave to presentations. -/
theorem sumThrough_account (g : Graph) (k : Nat) :
    g.sumThrough g.account g.scopes.length k = g.sumThrough g.waitsOf g.scopes.length k +
      g.sumThrough (fun i => (g.leftTo i).card) g.scopes.length k := by
  rw [← sumThrough_card_leftBy, sumThrough, sumThrough, sumThrough, ← Finset.sum_add_distrib]
  apply Finset.sum_congr rfl
  intro j _
  rw [account]
  split <;> rfl

/-! ## One epoch -/

/-- The sum over the first epoch. -/
theorem sumThrough_zero (measure : Nat → Nat) :
    g.sumThrough measure g.scopes.length 0 = ∑ j ∈ g.positions 0, measure j := by
  rw [sumThrough, positions, Finset.sum_filter]
  simp only [Nat.le_zero]

/-- An epoch adds its own scopes to the sum over those before it. -/
theorem sumThrough_succ_epoch (measure : Nat → Nat) (e : Nat) :
    g.sumThrough measure g.scopes.length (e + 1) =
      g.sumThrough measure g.scopes.length e + ∑ j ∈ g.positions (e + 1), measure j := by
  rw [sumThrough, sumThrough, positions, Finset.sum_filter, ← Finset.sum_add_distrib]
  apply Finset.sum_congr rfl
  intro j _
  by_cases hle : g.epoch j ≤ e
  · rw [if_pos (Nat.le_succ_of_le hle), if_pos hle, if_neg (by omega), Nat.add_zero]
  · rw [if_neg hle, Nat.zero_add]
    exact if_congr (by omega) rfl rfl

/-- All that is left in an epoch is left to the scope that presents it. -/
theorem sum_card_leftTo (hi : i < g.scopes.length)
    (hpresents : (g.scopeAt i).sync.presents = true) :
    ∑ k ∈ g.positions (g.epoch i), (g.leftTo k).card = (g.leftTo i).card := by
  apply Finset.sum_eq_single_of_mem i (mem_positions.2 ⟨hi, rfl⟩)
  intro k hk hne
  obtain ⟨hk, hepoch⟩ := mem_positions.1 hk
  rw [Finset.card_eq_zero, leftTo, if_neg]
  exact fun hpresents' => hne (eq_of_presents hk hi hpresents' hpresents hepoch)

/-- A fence that is signalled and then not waited for is left to the presentation just when
it has not been waited for up to that signal either. -/
theorem mem_leftTo_iff_of_signal (hi : i < g.scopes.length)
    (hpresents : (g.scopeAt i).sync.presents = true) (hji : j ≤ i) (hepoch : g.epoch j = g.epoch i)
    (hsignals : f ∈ (g.scopeAt j).sync.signalFences)
    (hafter : ∀ k, j < k → k ≤ i → f ∉ (g.scopeAt k).sync.waitFences) :
    f ∈ g.leftTo i ↔
      ∀ k ≤ j, g.epoch k = g.epoch i → f ∉ (g.scopeAt k).sync.waitFences := by
  have hsignalled : f ∈ g.signalledIn (g.epoch i) :=
    mem_signalledIn.2 ⟨j, Nat.lt_of_le_of_lt hji hi, hepoch, hsignals⟩
  rw [mem_leftTo, and_iff_right hpresents, and_iff_right hsignalled, mem_waitedIn]
  constructor
  · intro hnone k hk hsame hwaits
    exact hnone ⟨k, by omega, hsame, hwaits⟩
  · intro hbefore hwaited
    obtain ⟨k, -, hsame, hwaits⟩ := hwaited
    have hle : k ≤ i := (epoch_le_iff hi hpresents).1 (Nat.le_of_eq hsame)
    rcases Nat.lt_or_ge j k with hlt | hge
    · exact hafter k hlt hle hwaits
    · exact hbefore k hge hsame hwaits

end Graph

end FrameSchedule
