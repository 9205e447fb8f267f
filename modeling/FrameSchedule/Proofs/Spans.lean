import FrameSchedule.Plan.Merge
import FrameSchedule.Proofs.Graphs
import Mathlib.Algebra.BigOperators.Intervals
import Mathlib.Algebra.Order.BigOperators.Group.Finset

/-!
# Spans of scopes

A partition of a frame cuts the positions of its scopes into spans.  This module says,
of positions and without the walk that finds the spans, which scopes stand alone
(`Graph.Isolated`), which spans may share a list (`Graph.Joint`), and which cuts are
complete (`Span.Tile`).

`Graph.Joint` passes to every part of a span.  So a cut whose spans could not take one
more scope has no more spans than any other cut into spans that may stand
(`Graph.length_le_of_filled`): wherever the two are compared, the former is not behind.
-/

namespace FrameSchedule

/-! ## Cuts -/

/-- The positions from `start` up to, and not with, `stop`. -/
structure Span where
  start : Nat
  stop : Nat
  deriving DecidableEq

/-- The spans, in order, cut the positions from `a` to `b` into nonempty parts. -/
def Span.Tile : Nat → Nat → List Span → Prop
  | a, b, [] => a = b
  | a, b, r :: rs => r.start = a ∧ a < r.stop ∧ Tile r.stop b rs

theorem Span.Tile.le {a b : Nat} {rs : List Span} (h : Tile a b rs) : a ≤ b := by
  induction rs generalizing a with
  | nil => exact Nat.le_of_eq h
  | cons r rs ih =>
    rcases h with ⟨-, hlt, hrest⟩
    exact Nat.le_trans (Nat.le_of_lt hlt) (ih hrest)

theorem Span.Tile.bounds {a b : Nat} {rs : List Span} (h : Tile a b rs) {r : Span}
    (hr : r ∈ rs) : a ≤ r.start ∧ r.start < r.stop ∧ r.stop ≤ b := by
  induction rs generalizing a with
  | nil => cases hr
  | cons r' rs ih =>
    rcases h with ⟨hstart, hlt, hrest⟩
    rcases List.mem_cons.1 hr with rfl | hr
    · exact ⟨Nat.le_of_eq hstart.symm, hstart ▸ hlt, hrest.le⟩
    · obtain ⟨hle, hrest⟩ := ih hrest hr
      exact ⟨Nat.le_trans (Nat.le_of_lt hlt) hle, hrest⟩

/-- A cut goes on with one more span. -/
theorem Span.Tile.concat {a b c : Nat} {rs : List Span} (h : Tile a b rs) (hbc : b < c) :
    Tile a c (rs ++ [⟨b, c⟩]) := by
  induction rs generalizing a with
  | nil =>
    cases h
    exact ⟨rfl, hbc, rfl⟩
  | cons r rs ih =>
    rcases h with ⟨hstart, hlt, hrest⟩
    exact ⟨hstart, hlt, ih hrest⟩

/-- The spans of a cut follow each other. -/
theorem Span.Tile.pairwise {a b : Nat} {rs : List Span} (h : Tile a b rs) :
    rs.Pairwise fun r s => r.stop ≤ s.start := by
  induction rs generalizing a with
  | nil => exact List.Pairwise.nil
  | cons r rs ih =>
    rcases h with ⟨-, -, hrest⟩
    exact List.pairwise_cons.2 ⟨fun s hs => (hrest.bounds hs).1, ih hrest⟩

/-- A cut in two parts. -/
theorem Span.Tile.of_append {a b : Nat} {rs ss : List Span} (h : Tile a b (rs ++ ss)) :
    ∃ m, Tile a m rs ∧ Tile m b ss := by
  induction rs generalizing a with
  | nil => exact ⟨a, rfl, h⟩
  | cons r rs ih =>
    rcases h with ⟨hstart, hlt, hrest⟩
    obtain ⟨m, hrs, hss⟩ := ih hrest
    exact ⟨m, ⟨hstart, hlt, hrs⟩, hss⟩

/-- Every position is in one of the spans. -/
theorem Span.Tile.exists_span {a b : Nat} {rs : List Span} (h : Tile a b rs) {j : Nat}
    (hstart : a ≤ j) (hstop : j < b) : ∃ r ∈ rs, r.start ≤ j ∧ j < r.stop := by
  induction rs generalizing a with
  | nil =>
    obtain rfl : a = b := h
    omega
  | cons r rs ih =>
    rcases h with ⟨rfl, -, hrest⟩
    by_cases hj : j < r.stop
    · exact ⟨r, List.mem_cons_self, hstart, hj⟩
    · obtain ⟨r', hr', hspan⟩ := ih hrest (Nat.le_of_not_lt hj)
      exact ⟨r', List.mem_cons_of_mem r hr', hspan⟩

/-! ## What the device of a scope makes of it -/

namespace Config

variable (c : Config)

/-- The cost that one list takes of a scope on its device. -/
def thresholdOf (s : PlacedScope) : Nat :=
  ((c.find? s.device).bind fun p => (p.limits.threshold s.items).toOption).elim 0 (·.toNat)

/-- The cost of a scope on its device. -/
def costOf (s : PlacedScope) : Nat :=
  (c.find? s.device).elim 0 fun p => (p.limits.cost s.items s.attachments).toNat

/-- How many swapchains one list of the device of a scope presents. -/
def swapchainsMaxOf (s : PlacedScope) : Nat :=
  (c.find? s.device).elim 0 fun p => p.limits.swapchainsMax.toNat

end Config

/-! ## Spans of a graph -/

namespace Graph

/-- A neighbour of the scope at a position has its group. -/
def Subpass (g : Graph) (i : Nat) : Prop :=
  ∃ j, (j + 1 = i ∨ j = i + 1) ∧ j < g.scopes.length ∧ (g.scopeAt j).group = (g.scopeAt i).group

/-- The scope at a position has lists of its own: it is a subpass, or costs a list. -/
def Isolated (c : Config) (g : Graph) (i : Nat) : Prop :=
  g.Subpass i ∨ c.thresholdOf (g.scopeAt i) ≤ c.costOf (g.scopeAt i)

/-- The cost of the scopes of a span, as a natural number. -/
def costIn (c : Config) (g : Graph) (a b : Nat) : Nat :=
  ∑ k ∈ Finset.Ico a b, c.costOf (g.scopeAt k)

/-- The number of swapchains that the scopes of a span present. -/
def swapchainsIn (g : Graph) (a b : Nat) : Nat :=
  ∑ k ∈ Finset.Ico a b, (g.scopeAt k).sync.swapchains.length

/-- The scopes of a span may share a list: none stands alone, they run on one queue of
one device, only the first waits and only the last signals, and no scope after the
first brings the swapchains or the saturated cost of the span over its own bounds. -/
structure Joint (c : Config) (g : Graph) (a b : Nat) : Prop where
  cheap : ∀ i, a ≤ i → i < b → ¬ g.Isolated c i
  queue : ∀ i, a ≤ i → i < b → (g.scopeAt i).queue = (g.scopeAt a).queue
  device : ∀ i, a ≤ i → i < b → (g.scopeAt i).device = (g.scopeAt a).device
  waits : ∀ i, a < i → i < b → (g.scopeAt i).sync.hasWaits = false
  signals : ∀ i, a ≤ i → i + 1 < b → (g.scopeAt i).sync.hasSignals = false
  swapchains : ∀ i, a < i → i < b → g.swapchainsIn a (i + 1) ≤ c.swapchainsMaxOf (g.scopeAt i)
  cost : ∀ i, a < i → i < b →
    min (g.costIn c a (i + 1)) Count.largest ≤ c.thresholdOf (g.scopeAt i)

/-- The scope at `b` may join those from `a` on. -/
structure Joins (c : Config) (g : Graph) (a b : Nat) : Prop where
  cheap : ¬ g.Isolated c b
  queue : (g.scopeAt b).queue = (g.scopeAt a).queue
  device : (g.scopeAt b).device = (g.scopeAt a).device
  waits : (g.scopeAt b).sync.hasWaits = false
  signals : (g.scopeAt (b - 1)).sync.hasSignals = false
  swapchains : g.swapchainsIn a (b + 1) ≤ c.swapchainsMaxOf (g.scopeAt b)
  cost : min (g.costIn c a (b + 1)) Count.largest ≤ c.thresholdOf (g.scopeAt b)

/-- A span may stand: it is one scope, or its scopes may share a list. -/
def Feasible (c : Config) (g : Graph) (r : Span) : Prop :=
  r.stop = r.start + 1 ∨ g.Joint c r.start r.stop

/-- A span cannot take the scope after it. -/
def Filled (c : Config) (g : Graph) (r : Span) : Prop :=
  r.stop < g.scopes.length → ¬ g.Joint c r.start (r.stop + 1)

variable {c : Config} {g : Graph} {a b : Nat}

theorem costIn_succ (h : a ≤ b) :
    g.costIn c a (b + 1) = g.costIn c a b + c.costOf (g.scopeAt b) :=
  Finset.sum_Ico_succ_top h _

theorem swapchainsIn_succ (h : a ≤ b) :
    g.swapchainsIn a (b + 1) = g.swapchainsIn a b + (g.scopeAt b).sync.swapchains.length :=
  Finset.sum_Ico_succ_top h _

theorem costIn_mono {a' b' : Nat} (ha : a ≤ a') (hb : b' ≤ b) :
    g.costIn c a' b' ≤ g.costIn c a b :=
  Finset.sum_le_sum_of_subset (Finset.Ico_subset_Ico ha hb)

theorem swapchainsIn_mono {a' b' : Nat} (ha : a ≤ a') (hb : b' ≤ b) :
    g.swapchainsIn a' b' ≤ g.swapchainsIn a b :=
  Finset.sum_le_sum_of_subset (Finset.Ico_subset_Ico ha hb)

/-- The swapchains of a span are among those of the graph. -/
theorem swapchainsIn_le (hb : b ≤ g.scopes.length) :
    g.swapchainsIn a b ≤ (g.scopes.map (·.sync.swapchains.length)).sum := by
  have hsum : ∀ i, i ≤ g.scopes.length →
      g.swapchainsIn 0 i = g.sumBefore (·.sync.swapchains.length) i := by
    intro i hi
    induction i with
    | zero => rfl
    | succ i ih =>
      rw [swapchainsIn_succ (Nat.zero_le i), sumBefore_succ hi, ih (Nat.le_of_succ_le hi)]
  apply Nat.le_trans (swapchainsIn_mono (Nat.zero_le a) (Nat.le_refl b))
  rw [hsum b hb]
  exact sumBefore_le

theorem Countable.swapchainsIn_lt (h : g.Countable) (hb : b ≤ g.scopes.length) :
    g.swapchainsIn a b < UInt32.size :=
  Nat.lt_of_le_of_lt (swapchainsIn_le hb) h.swapchains

/-- A saturated sum keeps a bound just when the exact sum does, or when every word
keeps it. -/
theorem min_largest_le_iff {sum bound : Nat} :
    min sum Count.largest ≤ bound ↔ (bound < Count.largest → sum ≤ bound) := by
  omega

/-- A scope that does not stand alone is a span. -/
theorem joint_single (h : ¬ g.Isolated c a) : g.Joint c a (a + 1) where
  cheap i hai hi := by
    obtain rfl : i = a := by omega
    exact h
  queue i hai hi := by
    obtain rfl : i = a := by omega
    rfl
  device i hai hi := by
    obtain rfl : i = a := by omega
    rfl
  waits i hai hi := by omega
  signals i hai hi := by omega
  swapchains i hai hi := by omega
  cost i hai hi := by omega

/-- A span grows by a scope just when the scope may join it. -/
theorem joint_succ_iff (hab : a < b) :
    g.Joint c a (b + 1) ↔ g.Joint c a b ∧ g.Joins c a b := by
  constructor
  · intro h
    refine ⟨⟨?_, ?_, ?_, ?_, ?_, ?_, ?_⟩, ?_⟩
    · exact fun i hai hi => h.cheap i hai (by omega)
    · exact fun i hai hi => h.queue i hai (by omega)
    · exact fun i hai hi => h.device i hai (by omega)
    · exact fun i hai hi => h.waits i hai (by omega)
    · exact fun i hai hi => h.signals i hai (by omega)
    · exact fun i hai hi => h.swapchains i hai (by omega)
    · exact fun i hai hi => h.cost i hai (by omega)
    · exact {
        cheap := h.cheap b (by omega) (by omega)
        queue := h.queue b (by omega) (by omega)
        device := h.device b (by omega) (by omega)
        waits := h.waits b hab (by omega)
        signals := h.signals (b - 1) (by omega) (by omega)
        swapchains := h.swapchains b hab (by omega)
        cost := h.cost b hab (by omega) }
  · intro hparts
    rcases hparts with ⟨h, hb⟩
    -- each bound is an old one, or one of the scope that joins
    have split : ∀ i, i < b + 1 → i < b ∨ i = b := fun i hi => by omega
    refine ⟨?_, ?_, ?_, ?_, ?_, ?_, ?_⟩
    · intro i hai hi
      rcases split i hi with hlt | rfl
      · exact h.cheap i hai hlt
      · exact hb.cheap
    · intro i hai hi
      rcases split i hi with hlt | rfl
      · exact h.queue i hai hlt
      · exact hb.queue
    · intro i hai hi
      rcases split i hi with hlt | rfl
      · exact h.device i hai hlt
      · exact hb.device
    · intro i hai hi
      rcases split i hi with hlt | rfl
      · exact h.waits i hai hlt
      · exact hb.waits
    · intro i hai hi
      rcases split (i + 1) hi with hlt | heq
      · exact h.signals i hai hlt
      · obtain rfl : i = b - 1 := by omega
        exact hb.signals
    · intro i hai hi
      rcases split i hi with hlt | rfl
      · exact h.swapchains i hai hlt
      · exact hb.swapchains
    · intro i hai hi
      rcases split i hi with hlt | rfl
      · exact h.cost i hai hlt
      · exact hb.cost

/-- Every part of a span whose scopes may share a list is one. -/
theorem Joint.part {a' b' : Nat} (h : g.Joint c a b) (ha : a ≤ a') (hb : b' ≤ b)
    (hab : a' < b') : g.Joint c a' b' where
  cheap i hai hi := h.cheap i (by omega) (by omega)
  queue i hai hi := by
    rw [h.queue i (by omega) (by omega), h.queue a' ha (by omega)]
  device i hai hi := by
    rw [h.device i (by omega) (by omega), h.device a' ha (by omega)]
  waits i hai hi := h.waits i (by omega) (by omega)
  signals i hai hi := h.signals i (by omega) (by omega)
  swapchains i hai hi :=
    Nat.le_trans (swapchainsIn_mono ha (Nat.le_refl _)) (h.swapchains i (by omega) (by omega))
  cost i hai hi := by
    have hmono : g.costIn c a' (i + 1) ≤ g.costIn c a (i + 1) := costIn_mono ha (Nat.le_refl _)
    have hcost := h.cost i (by omega) (by omega)
    omega

/-! ## Filled cuts are shortest -/

/-- A filled span that starts inside a feasible one reaches its end. -/
theorem Feasible.stop_le {r s : Span} (hr : g.Feasible c r) (hs : g.Filled c s)
    (hstart : r.start ≤ s.start) (hinside : s.start < r.stop) (hne : s.start < s.stop)
    (hlen : r.stop ≤ g.scopes.length) : r.stop ≤ s.stop := by
  by_contra hlt
  rcases hr with hsingle | hjoint
  · omega
  · exact hs (by omega) (hjoint.part hstart (by omega) (by omega))

/-- **A filled cut is shortest.**  Let one cut into feasible spans go from `a` to the
end, and a cut into filled spans from `a'`, which is not before `a`.  The second has no
more spans. -/
theorem length_le_of_filled {a' : Nat} {rs ss : List Span}
    (hrs : Span.Tile a g.scopes.length rs) (feasible : ∀ r ∈ rs, g.Feasible c r)
    (hss : Span.Tile a' g.scopes.length ss) (filled : ∀ s ∈ ss, g.Filled c s) (haa' : a ≤ a') :
    ss.length ≤ rs.length := by
  -- along the first cut; the second is taken on whenever it is behind the span at hand
  induction rs generalizing a a' ss with
  | nil =>
    cases ss with
    | nil => exact Nat.le_refl _
    | cons s ss =>
      have ha : a = g.scopes.length := hrs
      rcases hss with ⟨-, hlt, hrest⟩
      have hle := hrest.le
      omega
  | cons r rs ih =>
    rcases hrs with ⟨rfl, hr, hrs⟩
    have feasible' : ∀ r ∈ rs, g.Feasible c r := fun q hq => feasible q (List.mem_cons_of_mem r hq)
    rcases Nat.lt_or_ge a' r.stop with hinside | hbeyond
    · cases ss with
      | nil => exact Nat.zero_le _
      | cons s ss =>
        rcases hss with ⟨rfl, hs, hss⟩
        have hreach : r.stop ≤ s.stop :=
          (feasible r List.mem_cons_self).stop_le (filled s List.mem_cons_self) haa' hinside hs
            hrs.le
        have hrest := ih hrs feasible' hss
          (fun t ht => filled t (List.mem_cons_of_mem s ht)) hreach
        rw [List.length_cons, List.length_cons]
        exact Nat.succ_le_succ hrest
    · have hrest := ih hrs feasible' hss filled hbeyond
      exact Nat.le_trans hrest (Nat.le_succ _)

end Graph

end FrameSchedule
