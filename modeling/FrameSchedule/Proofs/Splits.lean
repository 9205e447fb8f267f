import FrameSchedule.Proofs.Completeness
import Mathlib.Tactic.Ring

/-!
# Scopes that are split over lists

A scope that stands alone becomes a group of its own, with as many lists as its cost fills.
Their item ranges share the items out evenly, and no list gets more items than it pays for.
The number of lists is bounded by the limits of the device and by the attachments of the scope
alone, however many items there are, because the threshold grows with the items
(`Plan.ofGraph_splits`).  Every quotient and product on the way is exact (`ItemRange.Exact`).
-/

namespace FrameSchedule

/-! ## Ranges of items -/

namespace ItemRange

/-- The number of items. -/
def length (r : ItemRange) : Nat :=
  r.stop.toNat - r.start.toNat

/-- The border before part `k` of `count` comes out of 64-bit words as out of natural numbers:
neither the product nor the quotient is too large for its word, and there is a word for the next
part. -/
structure Exact (items count : UInt32) (k : Nat) : Prop where
  product : (items.toUInt64 * UInt64.ofNat k).toNat = items.toNat * k
  quotient : items.toNat * k / count.toNat ≤ Count.largest
  border : (cut items k count.toNat).toNat = items.toNat * k / count.toNat
  next : k < count.toNat → k + 1 ≤ Count.largest

theorem exact (items : UInt32) {count : UInt32} {k : Nat} (hk : k ≤ count.toNat) :
    Exact items count k := by
  have hitems := items.toNat_lt
  have hcount := count.toNat_lt
  have hborder : (cut items k count.toNat).toNat = items.toNat * k / count.toNat :=
    toNat_cut hk hcount
  have hmul : items.toNat * k ≤ 4294967295 * 4294967295 := Nat.mul_le_mul (by omega) (by omega)
  refine ⟨?_, hborder ▸ Count.toNat_le_largest _, hborder, fun hlt => ?_⟩
  · rw [UInt64.toNat_mul, UInt32.toNat_toUInt64, UInt64.toNat_ofNat',
      Nat.mod_eq_of_lt (a := k) (by omega), Nat.mod_eq_of_lt (by omega)]
  · exact Nat.le_trans hlt (Count.toNat_le_largest count)

variable {items : UInt32} {count j k : Nat}

/-- A part has its share of the items, rounded down or up. -/
theorem length_slice (hk : k < count) (hcount : count < UInt32.size) :
    items.toNat < ((slice items k count).length + 1) * count ∧
      (slice items k count).length * count < items.toNat + count := by
  have hpos : 0 < count := Nat.zero_lt_of_lt hk
  rw [length, slice, toNat_cut hk hcount, toNat_cut (Nat.le_of_lt hk) hcount, Nat.mul_succ]
  generalize hstop : (items.toNat * k + items.toNat) / count = stop
  generalize hstart : items.toNat * k / count = start
  have hle : start ≤ stop := by
    rw [← hstart, ← hstop]
    exact Nat.div_le_div_right (Nat.le_add_right _ _)
  -- both borders are rounded down
  have hstart₁ : start * count ≤ items.toNat * k := hstart ▸ Nat.div_mul_le_self _ _
  have hstart₂ : items.toNat * k < (start + 1) * count := by
    rw [← hstart, Nat.mul_comm _ count]
    exact Nat.lt_mul_div_succ _ hpos
  have hstop₁ : stop * count ≤ items.toNat * k + items.toNat := hstop ▸ Nat.div_mul_le_self _ _
  have hstop₂ : items.toNat * k + items.toNat < (stop + 1) * count := by
    rw [← hstop, Nat.mul_comm _ count]
    exact Nat.lt_mul_div_succ _ hpos
  obtain ⟨length, rfl⟩ := Nat.exists_eq_add_of_le hle
  rw [Nat.add_sub_cancel_left]
  rw [Nat.add_mul] at hstart₂ hstop₁ hstop₂ ⊢
  rw [Nat.add_mul] at hstop₂
  omega

/-- **Parts differ by one item** at most. -/
theorem length_slice_le (hj : j < count) (hk : k < count) (hcount : count < UInt32.size) :
    (slice items j count).length ≤ (slice items k count).length + 1 := by
  have hupper : (slice items j count).length * count < items.toNat + count :=
    (length_slice hj hcount).2
  have hlower : items.toNat < ((slice items k count).length + 1) * count :=
    (length_slice hk hcount).1
  have hlt : (slice items j count).length * count <
      ((slice items k count).length + 1 + 1) * count := by
    rw [Nat.succ_mul]
    omega
  exact Nat.le_of_lt_succ (Nat.lt_of_mul_lt_mul_right hlt)

end ItemRange

/-! ## Costs -/

/-- A cost fills no more lists than the items may fill, and what comes with them fills at the
least threshold. -/
theorem filled_le {items itemCost listsMax extra costMin threshold cost : Nat}
    (hmin : 0 < costMin) (hle : costMin ≤ threshold) (hitems : items ≤ listsMax * threshold)
    (hcost : cost ≤ items * itemCost + extra) :
    (cost + threshold - 1) / threshold ≤
      itemCost * listsMax + (extra + costMin - 1) / costMin := by
  have hextra : extra ≤ (extra + costMin - 1) / costMin * costMin :=
    (Nat.le_mul_iff_le_left hmin).2 (Nat.le_refl _)
  rw [← Nat.le_mul_iff_le_left (Nat.lt_of_lt_of_le hmin hle)]
  calc cost
      ≤ items * itemCost + extra := hcost
    _ ≤ listsMax * threshold * itemCost + (extra + costMin - 1) / costMin * threshold :=
        Nat.add_le_add (Nat.mul_le_mul_right _ hitems)
          (Nat.le_trans hextra (Nat.mul_le_mul_left _ hle))
    _ = (itemCost * listsMax + (extra + costMin - 1) / costMin) * threshold := by ring

/-- A list that has its share of the items costs less than an item over its threshold. -/
theorem load_lt {length count items itemCost threshold : Nat}
    (hlength : length * count < items + count) (hcost : items * itemCost ≤ count * threshold)
    (hpos : 0 < threshold) : length * itemCost < threshold + itemCost := by
  rcases Nat.eq_zero_or_pos itemCost with rfl | hitem
  · rw [Nat.mul_zero, Nat.add_zero]
    exact hpos
  · cases length with
    | zero =>
      rw [Nat.zero_mul]
      exact Nat.add_pos_left hpos itemCost
    | succ length =>
      rw [Nat.succ_mul, Nat.add_lt_add_iff_right] at hlength
      rw [Nat.succ_mul, Nat.add_lt_add_iff_right]
      have hlt : length * itemCost * count < threshold * count :=
        calc length * itemCost * count = length * count * itemCost := Nat.mul_right_comm ..
          _ < items * itemCost := Nat.mul_lt_mul_of_pos_right hlength hitem
          _ ≤ count * threshold := hcost
          _ = threshold * count := Nat.mul_comm ..
      exact Nat.lt_of_mul_lt_mul_right hlt

variable {c : Config} {g : Graph} {i : Nat}

/-- What a scope weighs, in natural numbers. -/
theorem Config.of_weight (checked : c.check = .ok ()) {s : PlacedScope} {t : SitedScope}
    (ht : c.Sites s t) {w : Weight} (hw : t.weight = .ok w) :
    w.threshold.toNat = c.thresholdOf s ∧ w.cost.toNat = c.costOf s ∧
      c.thresholdOf s = max t.profile.limits.costMin.toNat
        ((s.items.toNat + t.profile.limits.listsMax.toNat - 1) /
          t.profile.limits.listsMax.toNat) ∧
      c.costOf s = min (s.items.toNat * t.profile.limits.itemCost.toNat +
        s.attachments.toNat * t.profile.limits.attachmentCost.toNat) Count.largest := by
  rcases ht with ⟨rfl, hprofile⟩
  obtain ⟨threshold, hthreshold, hval⟩ :=
    Limits.exists_threshold (flaw?_of_check checked hprofile) t.items
  have hthresholdOf : c.thresholdOf t.toPlacedScope = threshold.toNat := by
    simp [thresholdOf, hprofile, hthreshold, Except.toOption]
  have hcostOf : c.costOf t.toPlacedScope =
      (t.profile.limits.cost t.items t.attachments).toNat := by
    simp [costOf, hprofile]
  rw [SitedScope.weight, hthreshold] at hw
  cases hw
  refine ⟨hthresholdOf.symm, hcostOf.symm, hthresholdOf.trans hval, hcostOf.trans ?_⟩
  rw [Limits.cost, Count.toNat_satAdd, Count.toNat_satMul, Count.toNat_satMul]
  omega

/-! ## The walk -/

/-- The draft splits the scope at a position over as many lists as it weighs. -/
structure Draft.Split (c : Config) (g : Graph) (i : Nat) (t : SitedScope) (lists : UInt32)
    (d : Draft) : Prop where
  site : c.Sites (g.scopeAt i) t
  weight : ∃ w, t.weight = .ok w ∧ w.lists = .ok lists
  kind : d.kind = .secondary lists
  start : d.start = i
  members : d.members = [g.scopeAt i]

namespace Merge

variable {m m' : Merge} {t : SitedScope}

/-- Each scope before position `i` that stands alone has a draft of its own. -/
def Apart (c : Config) (g : Graph) (i : Nat) (m : Merge) : Prop :=
  ∀ j < i, g.Isolated c j → ∃ t lists, ∃ d ∈ m.drafts, d.Split c g j t lists

theorem Apart.mono (h : m.Apart c g i) (hdrafts : m.drafts ⊆ m'.drafts) : m'.Apart c g i := by
  intro j hj hisolated
  obtain ⟨t, lists, d, hd, hsplit⟩ := h j hj hisolated
  exact ⟨t, lists, d, hdrafts hd, hsplit⟩

theorem drafts_close (m : Merge) : m.drafts ⊆ m.close.drafts := by
  unfold close
  split
  · exact fun _ hd => hd
  · exact List.subset_append_left _ _

/-- The scope at the next position has a draft, or does not stand alone. -/
theorem Apart.succ (h : m.Apart c g i) (hdrafts : m.drafts ⊆ m'.drafts)
    (hnext : g.Isolated c i → ∃ t lists, ∃ d ∈ m'.drafts, d.Split c g i t lists) :
    m'.Apart c g (i + 1) := by
  intro j hj hisolated
  rcases Nat.lt_succ_iff_lt_or_eq.1 hj with hlt | rfl
  · exact h.mono hdrafts j hlt hisolated
  · exact hnext hisolated

/-- **One scope of the walk.** -/
theorem Apart.visit (h : m.Apart c g i) (checked : c.check = .ok ()) (hi : i < g.scopes.length)
    (ht : c.Sites (g.scopeAt i) t)
    (hvisited : Visited i (g.before i) g.scopes[i + 1]? t m m') : m'.Apart c g (i + 1) := by
  have hcheap : t.inSubpass (g.before i) g.scopes[i + 1]? = false →
      (∃ w, t.weight = .ok w ∧ w.heavy = false) → ¬ g.Isolated c i := by
    rintro hsubpass ⟨w, hw, hlight⟩ (hshared | hheavy)
    · rw [ht.scope, (Graph.inSubpass_iff hi).2 hshared] at hsubpass
      cases hsubpass
    · obtain ⟨hthreshold, hcost, -, -⟩ := Config.of_weight checked ht hw
      rw [Weight.heavy, decide_eq_false_iff_not, UInt32.le_iff_toNat_le, hthreshold, hcost]
        at hlight
      exact hlight hheavy
  cases hvisited with
  | apart lists henter hlists =>
    obtain ⟨ledger?, rfl⟩ := enter_permits _ _ _ _ () _ henter
    have hdrafts := List.subset_append_of_subset_left
      [⟨.secondary lists, i, [t.toPlacedScope], handle? { m.close with ledger? := ledger? }⟩]
      (drafts_close m)
    refine h.succ hdrafts fun _ => ⟨t, lists, _, List.mem_concat_self, ?_⟩
    exact ⟨ht, hlists, rfl, rfl, by rw [ht.scope]⟩
  | first _ _ henter hsubpass hlight =>
    obtain ⟨ledger?, rfl⟩ := enter_permits _ _ _ _ () _ henter
    exact h.succ (drafts_close m) fun hisolated => (hcheap hsubpass hlight hisolated).elim
  | join _ _ henter _ hsubpass _ _ _ _ hlight =>
    obtain ⟨ledger?, rfl⟩ := enter_permits _ _ _ _ () _ henter
    exact h.succ (fun _ hd => hd) fun hisolated => (hcheap hsubpass hlight hisolated).elim

/-- The walk over a frame leaves no scope that stands alone without its draft. -/
theorem ofScopes_apart {σ : Type} {s : σ} (checked : c.check = .ok ()) {ts : List SitedScope}
    (hts : List.Forall₂ c.Sites g.scopes ts) (hscopes : ts.map (·.toPlacedScope) = g.scopes) :
    (ofScopes ts : Step σ Merge).Permits s fun m _ => m.Apart c g g.scopes.length := by
  have hsited : ∀ t ∈ ts, c.find? t.device = some t.profile := by
    intro t ht
    obtain ⟨_, -, rfl, hprofile⟩ := exists_of_mem_forall₂ hts ht
    exact hprofile
  have hwalk : (ofScopes ts : Step σ Merge).Permits s fun m _ => ∃ m₁ : Merge,
      m₁.Apart c g g.scopes.length ∧ m = m₁.close := by
    refine ofScopes_visits_of _ (Apart c g) (fun i m m' t hi ht hprofile h hvisited => ?_) hscopes
      hsited fun j hj => (Nat.not_lt_zero j hj).elim
    exact h.visit checked hi ⟨ht, ht ▸ hprofile⟩ hvisited
  intro m s' hm
  obtain ⟨m₁, h, rfl⟩ := hwalk m s' hm
  exact h.mono (drafts_close m₁)

end Merge

/-! ## Groups -/

/-- A group splits a scope over its lists, on a device with limits `l`. -/
structure Group.Splits (c : Config) (l : Limits) (scope : PlacedScope) (G : Group) : Prop where
  kind : G.kind = .secondary G.lists
  members : G.members = [scope]
  threshold : c.thresholdOf scope = max l.costMin.toNat
    ((scope.items.toNat + l.listsMax.toNat - 1) / l.listsMax.toNat)
  cost : c.costOf scope = min (scope.items.toNat * l.itemCost.toNat +
    scope.attachments.toNat * l.attachmentCost.toNat) Count.largest
  lists : G.lists.toNat =
    max 1 ((c.costOf scope + c.thresholdOf scope - 1) / c.thresholdOf scope)
  bound : G.lists.toNat ≤ max 1 (l.itemCost.toNat * l.listsMax.toNat +
    (scope.attachments.toNat * l.attachmentCost.toNat + l.costMin.toNat - 1) / l.costMin.toNat)
  items : ∀ k, G.items k scope = .slice scope.items k G.lists.toNat
  tiles : ItemRange.Tiles 0 scope.items.toNat
    ((List.range G.lists.toNat).map (G.items · scope))
  even : ∀ j < G.lists.toNat, ∀ k < G.lists.toNat,
    (G.items j scope).length ≤ (G.items k scope).length + 1
  /-- Without saturation no list costs an item more than its threshold. -/
  load : scope.items.toNat * l.itemCost.toNat +
      scope.attachments.toNat * l.attachmentCost.toNat ≤ Count.largest →
    ∀ k < G.lists.toNat,
      (G.items k scope).length * l.itemCost.toNat < c.thresholdOf scope + l.itemCost.toNat

theorem Draft.Split.splits {t : SitedScope} {lists : UInt32} {d : Draft}
    (h : d.Split c g i t lists) (checked : c.check = .ok ()) {G : Group}
    (hkind : G.kind = d.kind) (hmembers : G.members = d.members) :
    G.Splits c t.profile.limits (g.scopeAt i) := by
  obtain ⟨w, hw, hwlists⟩ := h.weight
  obtain ⟨hwthreshold, hwcost, hthreshold, hcost⟩ := Config.of_weight checked h.site hw
  obtain ⟨hmin, hmax, -⟩ :=
    Limits.flaw?_eq_none_iff.1 (Config.flaw?_of_check checked h.site.profile)
  have hmin := Count.pos_of_ne_zero hmin
  have hmax := Count.pos_of_ne_zero hmax
  have hG : G.lists = lists := by rw [Group.lists, hkind, h.kind, GroupKind.lists]
  have hpos : 0 < c.thresholdOf (g.scopeAt i) := by omega
  have hlists : lists.toNat = max 1 ((c.costOf (g.scopeAt i) + c.thresholdOf (g.scopeAt i) - 1) /
      c.thresholdOf (g.scopeAt i)) := by
    obtain ⟨quotient, hquotient, rfl⟩ := exists_of_map_eq_ok hwlists
    rw [UInt32.toNat_max, (Count.ceilDiv_eq_ok_iff.1 hquotient).2, hwthreshold, hwcost,
      UInt32.toNat_one, Nat.max_comm]
  have hone : 0 < lists.toNat := by omega
  have hitems : ∀ k, G.items k (g.scopeAt i) =
      .slice (g.scopeAt i).items k lists.toNat := by
    intro k
    rw [Group.items, hkind, h.kind]
  refine ⟨by rw [hkind, h.kind, hG], by rw [hmembers, h.members], hthreshold, hcost,
    hG ▸ hlists, ?_, hG ▸ hitems, ?_, fun j hj k hk => ?_, fun hexact k hk => ?_⟩
  · have hroom : (g.scopeAt i).items.toNat ≤
        t.profile.limits.listsMax.toNat * c.thresholdOf (g.scopeAt i) := by
      rw [Nat.mul_comm, Nat.le_mul_iff_le_left hmax]
      omega
    have hfilled := filled_le hmin (by omega) hroom (Nat.le_trans (Nat.le_of_eq hcost)
      (Nat.min_le_left _ _))
    rw [hG, hlists]
    exact max_le_max (Nat.le_refl 1) hfilled
  · have htiles := ItemRange.tiles_slices (g.scopeAt i).items lists.toNat_lt hone lists.toNat 0
      (Nat.zero_add _)
    rw [ItemRange.toNat_cut (Nat.zero_le _) lists.toNat_lt, Nat.mul_zero, Nat.zero_div,
      ← List.range_eq_range'] at htiles
    rw [hG, List.map_congr_left fun k _ => hitems k]
    exact htiles
  · rw [hG] at hj hk
    rw [hitems, hitems]
    exact ItemRange.length_slice_le hj hk lists.toNat_lt
  · rw [hG] at hk
    rw [hitems]
    refine load_lt (ItemRange.length_slice hk lists.toNat_lt).2 ?_ hpos
    have hfilled : c.costOf (g.scopeAt i) ≤ lists.toNat * c.thresholdOf (g.scopeAt i) :=
      (Nat.le_mul_iff_le_left hpos).2 (by omega)
    omega

namespace Plan

variable {σ : Type}

/-- **Splitting a scope.**  In every merging plan on devices with valid limits, a scope that
stands alone has a group of its own that splits it: over at least one list and at most as many
as the limits and the attachments allow, in consecutive item ranges that tile the items, differ
by one item at most and, unless the cost saturates, cost each less than an item over the
threshold.  The borders of the ranges are exact for all items and counts.  There is such a plan
if the graph is built and its totals are words. -/
theorem ofGraph_splits (c : Config) (g : Graph) (s : σ) :
    (∀ (items count : UInt32) (k : Nat), k ≤ count.toNat → ItemRange.Exact items count k) ∧
      (c.check = .ok () → (ofGraph c .parallel g : Step σ Plan).Permits s fun p _ =>
        ∀ i < g.scopes.length, g.Isolated c i → ∃ G ∈ p.groups, G.start = i ∧
          ∃ profile, c.find? (g.scopeAt i).device = some profile ∧
            G.Splits c profile.limits (g.scopeAt i)) ∧
      (g.Built → g.Countable → c.check = .ok () → c.Covers g →
        ∃ p, ((ofGraph c .parallel g : Step σ Plan).run s).result = .ok p) := by
  refine ⟨fun items count k hk => ItemRange.exact items hk,
    fun checked p s' hp i hi hisolated => ?_, fun built countable checked covers => ?_⟩
  · obtain ⟨ts, m, hts, hscopes, hm, hp⟩ := ofGraph_walks g p s' hp
    have hapart := Merge.ofScopes_apart checked (Config.site_eq_ok_iff.1 hts) hscopes m s' hm
    obtain ⟨t, lists, d, hd, hsplit⟩ := hapart i hi hisolated
    have hgroups := forall₂_drafts (groupsOf_follows (of_ofDrafts hp).1)
    obtain ⟨G, hG, k, hfollow⟩ := exists_of_mem_forall₂ hgroups.flip hd
    exact ⟨G, hG, hfollow.start.trans hsplit.start, t.profile, hsplit.site.profile,
      hsplit.splits checked hfollow.kind hfollow.members⟩
  · obtain ⟨p, _, hp, -⟩ := ofGraph_parallel (s := s) built countable checked covers
    exact ⟨p, hp.1⟩

/-- The third scope of the short frame costs 600, which fills three lists. -/
theorem ofGraph_splits_short :
    ∃ p, ((ofGraph .plain .parallel .short : Step Unit Plan).run ()).result = .ok p ∧
      ∃ G ∈ p.groups, G.start = 2 ∧ G.Splits .plain {} (Graph.short.scopeAt 2) ∧
        G.lists.toNat = 3 := by
  obtain ⟨-, hsplits, hreturns⟩ := ofGraph_splits .plain .short ()
  obtain ⟨p, hp⟩ := hreturns Graph.short_built Graph.short_countable rfl Config.plain_covers
  have hisolated : Graph.short.Isolated .plain 2 := .inr (by decide +kernel)
  obtain ⟨G, hG, hstart, profile, hprofile, hsplit⟩ :=
    hsplits rfl p () ⟨hp, rfl⟩ 2 (by decide +kernel) hisolated
  cases hprofile
  have hlists := hsplit.lists
  have hcost : Config.plain.costOf (Graph.short.scopeAt 2) = 600 := by decide +kernel
  have hthreshold : Config.plain.thresholdOf (Graph.short.scopeAt 2) = 250 := by decide +kernel
  rw [hcost, hthreshold] at hlists
  exact ⟨p, hp, G, hG, hstart, hsplit, hlists⟩

end Plan

end FrameSchedule
