import FrameSchedule.Proofs.Plans

/-!
# Partitions of a frame

The merging policy cuts a frame into groups that are right (`Plan.ofGraph_partitions`)
and of which there are no more than any other cut needs (`Plan.ofGraph_length_le`).

The bounds on costs are said of sums of natural numbers.  The walk saturates its sums,
so a threshold that is the largest word bounds nothing.
-/

namespace FrameSchedule

variable {c : Config} {g : Graph}

/-! ## Thresholds of scopes that do not stand alone -/

/-- Where items cost something, a scope that does not stand alone has the least
threshold of its device: a larger one is that of a scope which costs as much. -/
theorem Graph.thresholdOf_of_not_isolated (checked : c.check = .ok ()) {i : Nat}
    {profile : DeviceProfile} (hfind : c.find? (g.scopeAt i).device = some profile)
    (hitems : profile.limits.itemCost ≠ 0) (h : ¬ g.Isolated c i) :
    c.thresholdOf (g.scopeAt i) = profile.limits.costMin.toNat := by
  have hflaw := Config.flaw?_of_check checked hfind
  obtain ⟨w, hw, hval⟩ := Limits.exists_threshold hflaw (g.scopeAt i).items
  have hthreshold : c.thresholdOf (g.scopeAt i) = w.toNat := by
    simp [Config.thresholdOf, hfind, hw, Except.toOption]
  have hcheap : c.costOf (g.scopeAt i) < c.thresholdOf (g.scopeAt i) :=
    Nat.lt_of_not_le fun hle => h (.inr hle)
  have hcost : (g.scopeAt i).items.toNat ≤ c.costOf (g.scopeAt i) := by
    have hpos := Count.pos_of_ne_zero hitems
    have hmul := Nat.le_mul_of_pos_right (g.scopeAt i).items.toNat hpos
    have hword := Count.toNat_le_largest (g.scopeAt i).items
    rw [Config.costOf, hfind, Option.elim_some, Limits.cost, Count.toNat_satAdd,
      Count.toNat_satMul]
    omega
  have hlists := Count.pos_of_ne_zero (Limits.flaw?_eq_none_iff.1 hflaw).2.1
  have hceil := Count.ceilDiv_le hlists (a := (g.scopeAt i).items.toNat)
  omega

/-- Where items cost something, scopes that share a list cost at most what a list of
their device pays for. -/
theorem Graph.Joint.costIn_le {a b : Nat} (h : g.Joint c a b) (hab : a < b)
    (checked : c.check = .ok ()) {profile : DeviceProfile}
    (hfind : c.find? (g.scopeAt a).device = some profile)
    (hitems : profile.limits.itemCost ≠ 0)
    (hmin : profile.limits.costMin.toNat < Count.largest) :
    g.costIn c a b ≤ profile.limits.costMin.toNat := by
  obtain ⟨k, rfl⟩ := Nat.exists_eq_add_of_lt hab
  have hcheap := h.cheap (a + k) (by omega) (by omega)
  have hfind' : c.find? (g.scopeAt (a + k)).device = some profile := by
    rw [h.device (a + k) (by omega) (by omega)]
    exact hfind
  have hthreshold := Graph.thresholdOf_of_not_isolated checked hfind' hitems hcheap
  cases k with
  | zero =>
    have hlight : c.costOf (g.scopeAt a) < c.thresholdOf (g.scopeAt a) :=
      Nat.lt_of_not_le fun hle => hcheap (.inr hle)
    rw [Nat.add_zero] at hthreshold
    rw [Nat.add_zero, costIn_succ (Nat.le_refl a), costIn, Finset.Ico_self, Finset.sum_empty]
    omega
  | succ k =>
    have hcost := h.cost (a + (k + 1)) (by omega) (by omega)
    rw [hthreshold] at hcost
    exact min_largest_le_iff.1 hcost hmin

/-! ## What the merging policy promises -/

/-- The groups of a plan are a right partition of a graph. -/
structure Plan.Partitions (c : Config) (g : Graph) (p : Plan) : Prop where
  tile : Span.Tile 0 g.scopes.length (p.groups.map Group.span)
  index : ∀ (k : Nat) (G : Group), p.groups[k]? = some G → G.index = k
  members : ∀ G ∈ p.groups, G.members = g.slice G.start G.stop
  /-- A split group is one scope that stands alone. -/
  split : ∀ G ∈ p.groups, G.level = .secondary →
    G.stop = G.start + 1 ∧ g.Isolated c G.start
  /-- The scopes of any other group may share a list. -/
  merged : ∀ G ∈ p.groups, G.level = .primary → g.Joint c G.start G.stop
  /-- No scope after the first brings the exact cost over its threshold. -/
  cost : ∀ G ∈ p.groups, G.level = .primary → ∀ i, G.start < i → i < G.stop →
    c.thresholdOf (g.scopeAt i) < Count.largest →
      g.costIn c G.start (i + 1) ≤ c.thresholdOf (g.scopeAt i)
  /-- The whole group costs at most what a list of its device pays for. -/
  whole : ∀ G ∈ p.groups, G.level = .primary → ∀ profile,
    c.find? (g.scopeAt G.start).device = some profile → profile.limits.itemCost ≠ 0 →
      profile.limits.costMin.toNat < Count.largest →
        g.costIn c G.start G.stop ≤ profile.limits.costMin.toNat

namespace Plan

variable {σ : Type}

theorem Drafted.partitions {p : Plan} {drafts : List Draft} (h : Drafted g drafts p)
    (merged : ∀ d ∈ drafts, d.Merged c g) (checked : c.check = .ok ()) : p.Partitions c g := by
  obtain ⟨ledger?, follows⟩ := h.follows
  have htile : Span.Tile 0 g.scopes.length (p.groups.map Group.span) := by
    rw [map_span follows]
    exact h.tile
  -- each group has the span and the kind of a draft
  have hdraft : ∀ G ∈ p.groups, ∃ d ∈ drafts, d.span = G.span ∧ d.kind = G.kind ∧
      d.members = G.members := by
    intro G hG
    obtain ⟨d, hd, k, hk⟩ := exists_draft follows hG
    refine ⟨d, hd, ?_, hk.kind.symm, hk.members.symm⟩
    rw [Group.span, Group.stop, hk.start, hk.members, Draft.span]
  have hjoint : ∀ G ∈ p.groups, G.level = .primary → g.Joint c G.start G.stop := by
    intro G hG hlevel
    obtain ⟨d, hd, hspan, hkind, -⟩ := hdraft G hG
    have hprimary := (merged d hd).primary (by rw [hkind]; exact hlevel)
    rw [hspan] at hprimary
    exact hprimary
  have hne : ∀ G ∈ p.groups, G.start < G.stop := by
    intro G hG
    obtain ⟨d, hd, hspan, -, hmembers⟩ := hdraft G hG
    have hpos := List.length_pos_of_ne_nil (nonempty_of_tile h.tile d hd)
    rw [hmembers] at hpos
    exact Nat.lt_add_of_pos_right hpos
  refine ⟨htile, fun k G hG => index_of_follows follows hG, ?_, ?_, hjoint, ?_, ?_⟩
  · intro G hG
    obtain ⟨d, hd, hspan, -, hmembers⟩ := hdraft G hG
    have hslice := (merged d hd).members
    rw [hspan, hmembers] at hslice
    exact hslice
  · intro G hG hlevel
    obtain ⟨d, hd, hspan, hkind, -⟩ := hdraft G hG
    have hlevel' : d.kind.level = .secondary := by rw [hkind]; exact hlevel
    have hsingle := (merged d hd).single hlevel'
    have hisolated := (merged d hd).secondary hlevel'
    rw [hspan] at hsingle hisolated
    exact ⟨hsingle, hisolated⟩
  · intro G hG hlevel i hi hstop hthreshold
    exact Graph.min_largest_le_iff.1 ((hjoint G hG hlevel).cost i hi hstop) hthreshold
  · intro G hG hlevel profile hfind hitems hmin
    exact (hjoint G hG hlevel).costIn_le (hne G hG) checked hfind hitems hmin

/-- **The partition is right.** -/
theorem ofGraph_partitions (s : σ) (built : g.Built) (countable : g.Countable)
    (checked : c.check = .ok ()) (covers : c.Covers g) :
    ∃ p, ((ofGraph c .parallel g : Step σ Plan).run s).result = .ok p ∧ p.Partitions c g := by
  obtain ⟨p, _, ⟨hresult, -⟩, -, drafts, hdrafts, merged⟩ :=
    ofGraph_parallel (s := s) built countable checked covers
  exact ⟨p, hresult, hdrafts.partitions merged checked⟩

theorem ofGraph_partitions_short :
    ∃ p, ((ofGraph .plain .parallel .short : Step Unit Plan).run ()).result = .ok p ∧
      p.Partitions .plain .short :=
  ofGraph_partitions () Graph.short_built Graph.short_countable rfl Config.plain_covers

/-- **The partition is smallest**: no cut into spans that may stand has fewer of them. -/
theorem ofGraph_length_le (s : σ) (built : g.Built) (countable : g.Countable)
    (checked : c.check = .ok ()) (covers : c.Covers g) :
    ∃ p, ((ofGraph c .parallel g : Step σ Plan).run s).result = .ok p ∧
      ∀ rs, Span.Tile 0 g.scopes.length rs → (∀ r ∈ rs, g.Feasible c r) →
        p.groups.length ≤ rs.length := by
  obtain ⟨p, _, ⟨hresult, -⟩, -, drafts, hdrafts, merged⟩ :=
    ofGraph_parallel (s := s) built countable checked covers
  refine ⟨p, hresult, fun rs hrs feasible => ?_⟩
  obtain ⟨ledger?, follows⟩ := hdrafts.follows
  have hlength : p.groups.length = (drafts.map Draft.span).length := by
    rw [← map_span follows, List.length_map]
  rw [hlength]
  refine Graph.length_le_of_filled hrs feasible hdrafts.tile (fun r hr => ?_) (Nat.le_refl 0)
  obtain ⟨d, hd, rfl⟩ := List.mem_map.1 hr
  exact (merged d hd).filled

theorem ofGraph_length_le_short :
    ∃ p, ((ofGraph .plain .parallel .short : Step Unit Plan).run ()).result = .ok p ∧
      ∀ rs, Span.Tile 0 Graph.short.scopes.length rs →
        (∀ r ∈ rs, Graph.short.Feasible .plain r) → p.groups.length ≤ rs.length :=
  ofGraph_length_le () Graph.short_built Graph.short_countable rfl Config.plain_covers

end Plan

end FrameSchedule
