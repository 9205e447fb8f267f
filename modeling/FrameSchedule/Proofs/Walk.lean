import FrameSchedule.Plan
import FrameSchedule.Proofs.Accounts
import FrameSchedule.Proofs.Spans
import FrameSchedule.Proofs.Visits

/-!
# What the walk over a frame keeps

At every position the drafts made so far cut the positions before the gathering, and
the gathering holds the scopes from there on (`Merge.Cut`).  A gathering is closed
only before a scope that may not join it, so no draft could have taken one more scope.

The ledger of a walk balances at every position (`Merge.Balanced`), which leaves the
walk no sum that is no word.
-/

namespace FrameSchedule

variable {c : Config} {g : Graph} {i : Nat}

/-! ## Sites and weights -/

/-- A scope with the profile that the configuration has for its device. -/
structure Config.Sites (c : Config) (s : PlacedScope) (t : SitedScope) : Prop where
  scope : t.toPlacedScope = s
  profile : c.find? s.device = some t.profile

theorem Config.site_eq_ok_iff {ss : List PlacedScope} {ts : List SitedScope} :
    c.site ss = .ok ts ↔ List.Forall₂ c.Sites ss ts := by
  induction ss generalizing ts with
  | nil => simp [site, eq_comm]
  | cons s ss ih =>
    rw [site, List.forall₂_cons_left_iff]
    cases hs : c.find? s.device with
    | none =>
      have hnone : ∀ t, ¬ c.Sites s t := fun t ht => by simpa [hs] using ht.profile
      simp [hnone]
    | some profile =>
      cases hss : c.site ss with
      | error e =>
        have hnone : ∀ us, ¬ List.Forall₂ c.Sites ss us := by
          intro us hus
          rw [← ih, hss] at hus
          cases hus
        simp [Except.map, hnone]
      | ok us =>
        have hus := ih.1 hss
        simp only [Except.map, Except.ok.injEq]
        constructor
        · intro heq
          subst heq
          exact ⟨{ s with profile }, us, ⟨rfl, hs⟩, hus, rfl⟩
        · intro hres
          rcases hres with ⟨t, vs, ht, hvs, rfl⟩
          rw [← ih, hss] at hvs
          cases hvs
          rcases ht with ⟨rfl, hprofile⟩
          rw [hs] at hprofile
          cases hprofile
          rfl

/-- Every device in use is configured. -/
def Config.Covers (c : Config) (g : Graph) : Prop :=
  ∀ s ∈ g.scopes, (c.find? s.device).isSome

theorem Config.Covers.exists_site (h : c.Covers g) :
    ∃ ts, c.site g.scopes = .ok ts ∧ List.Forall₂ c.Sites g.scopes ts := by
  have heach : ∀ s ∈ g.scopes, ∃ t, c.Sites s t := by
    intro s hs
    obtain ⟨profile, hprofile⟩ := Option.isSome_iff_exists.1 (h s hs)
    exact ⟨{ s with profile }, rfl, hprofile⟩
  obtain ⟨ts, hts⟩ := exists_forall₂ heach
  exact ⟨ts, Config.site_eq_ok_iff.2 hts, hts⟩

/-- The limits of a configuration that is fit for use have no flaw. -/
theorem Config.flaw?_of_check (h : c.check = .ok ()) {d : DeviceIndex} {p : DeviceProfile}
    (hp : c.find? d = some p) : p.limits.flaw? = none := by
  unfold check at h
  split at h
  · cases h
  · obtain ⟨e, he, rfl⟩ := Option.map_eq_some_iff.1 hp
    have hmem := List.mem_of_find?_eq_some he
    generalize c.entries = es at h hmem
    induction es with
    | nil => cases hmem
    | cons e' es ih =>
      rw [List.forM_eq_forM, List.forM_cons] at h
      cases hflaw : e'.2.limits.flaw? with
      | some flaw => simp [Limits.check, hflaw, bind, Except.bind] at h
      | none =>
        rcases List.mem_cons.1 hmem with rfl | hmem
        · exact hflaw
        · refine ih ?_ hmem
          simpa [Limits.check, hflaw, bind, Except.bind] using h

/-- The weight of a scope, in natural numbers. -/
structure Config.Weighs (c : Config) (s : PlacedScope) (w : Weight) : Prop where
  threshold : w.threshold.toNat = c.thresholdOf s
  cost : w.cost.toNat = c.costOf s
  swapchains : w.swapchains.toNat = s.sync.swapchains.length
  /-- A list has room for something. -/
  pos : 0 < w.threshold.toNat

/-- The threshold of a device without a flaw is the least one, or more for many items. -/
theorem Limits.exists_threshold {l : Limits} (h : l.flaw? = none) (items : UInt32) :
    ∃ w, l.threshold items = .ok w ∧
      w.toNat = max l.costMin.toNat ((items.toNat + l.listsMax.toNat - 1) / l.listsMax.toNat) := by
  obtain ⟨-, hlists, -⟩ := flaw?_eq_none_iff.1 h
  obtain ⟨w, hdiv, hval⟩ := Count.exists_ceilDiv (a := items) hlists
  refine ⟨max l.costMin w, by rw [threshold, hdiv]; rfl, ?_⟩
  rw [UInt32.toNat_max, hval]

theorem Config.exists_weight (h : c.check = .ok ()) {s : PlacedScope} {t : SitedScope}
    (ht : c.Sites s t) (fits : s.sync.swapchains.length < UInt32.size) :
    ∃ w, t.weight = .ok w ∧ c.Weighs s w := by
  rcases ht with ⟨rfl, hprofile⟩
  have hflaw := flaw?_of_check h hprofile
  obtain ⟨threshold, hthreshold, hval⟩ := Limits.exists_threshold hflaw t.items
  refine ⟨⟨threshold, t.profile.limits.cost t.items t.attachments, t.sync.swapchainCount⟩, ?_, ?_⟩
  · rw [SitedScope.weight, hthreshold]
    rfl
  · refine ⟨?_, ?_, ?_, ?_⟩
    · simp [thresholdOf, hprofile, hthreshold, Except.toOption]
    · simp [costOf, hprofile]
    · exact UInt32.toNat_ofNat_of_lt' fits
    · have hpos := Count.pos_of_ne_zero (Limits.flaw?_eq_none_iff.1 hflaw).1
      simp only
      omega

/-- A neighbour has the group of the scope just when the scope is a subpass. -/
theorem Graph.inSubpass_iff (hi : i < g.scopes.length) :
    (g.scopeAt i).inSubpass (g.before i) g.scopes[i + 1]? = true ↔ g.Subpass i := by
  have hbefore : (g.before i).any (·.group = (g.scopeAt i).group) = true ↔
      ∃ j, j + 1 = i ∧ (g.scopeAt j).group = (g.scopeAt i).group := by
    cases i with
    | zero => simp [before]
    | succ j => simp [before, getElem?_eq_scopeAt (Nat.lt_of_succ_lt hi)]
  have hafter : g.scopes[i + 1]?.any (·.group = (g.scopeAt i).group) = true ↔
      i + 1 < g.scopes.length ∧ (g.scopeAt (i + 1)).group = (g.scopeAt i).group := by
    rcases Nat.lt_or_ge (i + 1) g.scopes.length with hlt | hge
    · rw [getElem?_eq_scopeAt hlt]
      simp [hlt]
    · simp [Nat.not_lt.2 hge]
  rw [PlacedScope.inSubpass, Bool.or_eq_true, hbefore, hafter, Subpass]
  constructor
  · intro hset
    rcases hset with ⟨j, hj, hgroup⟩ | ⟨hlt, hgroup⟩
    · exact ⟨j, .inl hj, by omega, hgroup⟩
    · exact ⟨i + 1, .inr rfl, hlt, hgroup⟩
  · intro hshared
    rcases hshared with ⟨j, hj | rfl, hlt, hgroup⟩
    · exact .inl ⟨j, hj, hgroup⟩
    · exact .inr ⟨hlt, hgroup⟩

/-- The scope is set apart just when it stands alone. -/
theorem Graph.isolate_iff {t : SitedScope} {w : Weight} (hi : i < g.scopes.length)
    (ht : c.Sites (g.scopeAt i) t) (hw : c.Weighs (g.scopeAt i) w) :
    (t.inSubpass (g.before i) g.scopes[i + 1]? || w.heavy) = true ↔ g.Isolated c i := by
  have hheavy : w.heavy = true ↔ c.thresholdOf (g.scopeAt i) ≤ c.costOf (g.scopeAt i) := by
    rw [Weight.heavy, decide_eq_true_iff, UInt32.le_iff_toNat_le, hw.threshold, hw.cost]
  rw [ht.scope, Bool.or_eq_true, inSubpass_iff hi, hheavy, Isolated]

/-! ## Drafts -/

/-- The positions of a draft. -/
def Draft.span (d : Draft) : Span :=
  ⟨d.start, d.start + d.members.length⟩

/-- A draft holds the scopes of its span, and a list at least; a split one holds one
scope. -/
structure Draft.Sits (g : Graph) (d : Draft) : Prop where
  members : d.members = g.slice d.span.start d.span.stop
  single : d.kind.level = .secondary → d.span.stop = d.span.start + 1
  lists : d.kind.lists ≠ 0

/-- The merging walk may make the draft: the scopes of a primary one may share a list,
that of a split one stands alone, and neither could take one more scope. -/
structure Draft.Merged (c : Config) (g : Graph) (d : Draft) : Prop extends d.Sits g where
  primary : d.kind.level = .primary → g.Joint c d.span.start d.span.stop
  secondary : d.kind.level = .secondary → g.Isolated c d.span.start
  filled : g.Filled c d.span

/-! ## The gathering -/

/-- The totals of a gathering before position `i` are those of its scopes. -/
structure Gathering.Tallies (c : Config) (g : Graph) (i : Nat) (q : Gathering) : Prop where
  le : q.start ≤ i
  members : q.members = g.slice q.start i
  cost : q.cost.toNat = min (g.costIn c q.start i) Count.largest
  swapchains : q.swapchains.toNat = g.swapchainsIn q.start i
  queue : q.queue = (g.scopeAt q.start).queue
  device : q.device = (g.scopeAt q.start).device

namespace Gathering.Tallies

variable {q : Gathering} {t : SitedScope} {w : Weight}

/-- A gathering that starts with a scope holds nothing before it. -/
theorem start (ht : c.Sites (g.scopeAt i) t) :
    Tallies c g i { start := i, queue := t.queue, device := t.device } where
  le := Nat.le_refl i
  members := by simp [Graph.slice]
  cost := by simp [Graph.costIn]
  swapchains := by simp [Graph.swapchainsIn]
  queue := by rw [ht.scope]
  device := by rw [ht.scope]

/-- A gathering takes a scope in. -/
theorem exists_join (h : q.Tallies c g i) (hi : i < g.scopes.length)
    (ht : c.Sites (g.scopeAt i) t) (hw : c.Weighs (g.scopeAt i) w)
    (fits : g.swapchainsIn q.start (i + 1) < UInt32.size) :
    ∃ q', q.join t w = .ok q' ∧ q'.start = q.start ∧ q'.Tallies c g (i + 1) := by
  have hsum : q.swapchains.toNat + w.swapchains.toNat = g.swapchainsIn q.start (i + 1) := by
    rw [h.swapchains, hw.swapchains, Graph.swapchainsIn_succ h.le]
  obtain ⟨n, hn, hval⟩ := Count.exists_add (by rw [hsum]; exact fits)
  refine ⟨{ q with
    members := q.members ++ [t.toPlacedScope]
    cost := Count.satAdd q.cost w.cost
    swapchains := n }, by rw [join, hn]; rfl, rfl, ?_⟩
  exact {
    le := Nat.le_succ_of_le h.le
    members := by
      simp only
      rw [Graph.slice_succ h.le hi, h.members, ht.scope]
    cost := by
      simp only
      rw [Count.toNat_satAdd, h.cost, hw.cost, Graph.costIn_succ h.le]
      omega
    swapchains := hval.trans hsum
    queue := h.queue
    device := h.device }

/-- No rule keeps a scope out just when it may join the scopes gathered. -/
theorem exists_boundary (h : q.Tallies c g i) (hstart : q.start < i) (hi : i < g.scopes.length)
    (ht : c.Sites (g.scopeAt i) t) (hw : c.Weighs (g.scopeAt i) w)
    (fits : g.swapchainsIn q.start (i + 1) < UInt32.size) {isolate : Bool}
    (hisolate : isolate = true ↔ g.Isolated c i) :
    ∃ b, q.boundary (g.before i) t w isolate = .ok b ∧
      (b.any = false ↔ g.Joins c q.start i) := by
  have hsum : q.swapchains.toNat + w.swapchains.toNat = g.swapchainsIn q.start (i + 1) := by
    rw [h.swapchains, hw.swapchains, Graph.swapchainsIn_succ h.le]
  obtain ⟨n, hn, hval⟩ := Count.exists_add (by rw [hsum]; exact fits)
  rw [hsum] at hval
  have hcost : w.threshold < Count.satAdd q.cost w.cost ↔
      ¬ min (g.costIn c q.start (i + 1)) Count.largest ≤ c.thresholdOf (g.scopeAt i) := by
    rw [UInt32.lt_iff_toNat_lt, Count.toNat_satAdd, h.cost, hw.cost, hw.threshold,
      Graph.costIn_succ h.le]
    omega
  have hmax : t.profile.limits.swapchainsMax < n ↔
      ¬ g.swapchainsIn q.start (i + 1) ≤ c.swapchainsMaxOf (g.scopeAt i) := by
    rw [UInt32.lt_iff_toNat_lt, hval, Config.swapchainsMaxOf, ht.profile, Nat.not_le]
    rfl
  have hbefore : (g.before i).any (·.sync.hasSignals) = (g.scopeAt (i - 1)).sync.hasSignals := by
    rw [Graph.before_eq (Nat.zero_lt_of_lt hstart) (Nat.le_of_lt hi), Option.any_some]
  refine ⟨_, by rw [boundary, hn]; rfl, ?_⟩
  simp only [Boundary.any, Bool.or_eq_false_iff, decide_eq_false_iff_not, hcost, hmax, hbefore,
    h.queue, h.device, ht.scope, not_not, ne_eq]
  constructor
  · intro hnone
    rcases hnone with ⟨⟨⟨⟨⟨hcost, hswap⟩, hqueue⟩, hdevice⟩, hwaits, hsignals⟩, hiso⟩
    exact {
      cheap := fun hi => by rw [hisolate.2 hi] at hiso; cases hiso
      queue := hqueue.symm
      device := hdevice.symm
      waits := hwaits
      signals := hsignals
      swapchains := hswap
      cost := hcost }
  · intro hj
    refine ⟨⟨⟨⟨⟨hj.cost, hj.swapchains⟩, hj.queue.symm⟩, hj.device.symm⟩, hj.waits, hj.signals⟩, ?_⟩
    exact Bool.eq_false_iff.2 fun htrue => hj.cheap (hisolate.1 htrue)

end Gathering.Tallies

/-! ## One scope of the walk -/

namespace Merge

/-- The walk has cut the positions before the gathering into drafts, and the gathering
holds the scopes from there up to position `i`. -/
structure Cut (c : Config) (g : Graph) (i : Nat) (m : Merge) : Prop where
  tile : Span.Tile 0 (m.gathering?.elim i (·.start)) (m.drafts.map Draft.span)
  drafts : ∀ d ∈ m.drafts, d.Merged c g
  nonempty : ∀ q, m.gathering? = some q → q.start < i
  tallies : ∀ q, m.gathering? = some q → q.Tallies c g i
  joint : ∀ q, m.gathering? = some q → g.Joint c q.start i

/-- The ledger has the account of the scopes before position `i`. -/
def Balanced (g : Graph) (i : Nat) (m : Merge) : Prop :=
  ∀ l, m.ledger? = some l →
    l.Balanced (g.sumBefore (·.sync.waits) i) (g.sumBefore (·.sync.signalFences.length) i)

variable {m : Merge} {t : SitedScope} {w : Weight}

/-- A gathering becomes a draft where no scope may join it. -/
theorem Cut.close (h : m.Cut c g i) (hi : i ≤ g.scopes.length)
    (filled : ∀ q, m.gathering? = some q → i < g.scopes.length → ¬ g.Joins c q.start i) :
    m.close.Cut c g i := by
  cases hq : m.gathering? with
  | none =>
    rw [close_of_none hq]
    exact h
  | some q =>
    have hlt := h.nonempty q hq
    have htallies := h.tallies q hq
    have hjoint := h.joint q hq
    have htile := h.tile
    rw [hq, Option.elim_some] at htile
    have hlen : q.start + q.members.length = i := by
      rw [htallies.members, Graph.length_slice hi]
      omega
    -- the draft is the gathering, so its span ends here
    have hdraft : Draft.Merged c g ⟨.primary, q.start, q.members, m.handle?⟩ := by
      refine ⟨⟨?_, ?_, ?_⟩, ?_, ?_, ?_⟩
      · simpa [Draft.span, hlen] using htallies.members
      · simp [GroupKind.level]
      · simp [GroupKind.lists]
      · intro
        simpa [Draft.span, hlen] using hjoint
      · simp [GroupKind.level]
      · simp only [Draft.span, hlen, Graph.Filled]
        intro hi hnext
        exact filled q hq hi ((Graph.joint_succ_iff hlt).1 hnext).2
    rw [close_of_some hq]
    refine ⟨?_, ?_, by simp, by simp, by simp⟩
    · rw [List.map_append, List.map_singleton, Draft.span, hlen]
      exact htile.concat hlt
    · exact forall_mem_concat.2 ⟨h.drafts, hdraft⟩

/-- What is left gathered before a scope is what it may join. -/
theorem Cut.closeBefore (h : m.Cut c g i) (hi : i < g.scopes.length)
    (ht : c.Sites (g.scopeAt i) t) (hw : c.Weighs (g.scopeAt i) w) (countable : g.Countable)
    {isolate : Bool} (hisolate : isolate = true ↔ g.Isolated c i) :
    (Merge.closeBefore (g.before i) t w isolate).Ensures m fun _ m' =>
      m'.Cut c g i ∧ m'.ledger? = m.ledger? ∧
        ∀ q, m'.gathering? = some q → g.Joins c q.start i := by
  unfold Merge.closeBefore
  rw [Step.ensures_bind, Step.ensures_read]
  cases hq : m.gathering? with
  | none =>
    refine Step.ensures_pure.2 ⟨h, rfl, fun q hnone => ?_⟩
    rw [hq] at hnone
    cases hnone
  | some q =>
    obtain ⟨b, hb, hjoins⟩ := (h.tallies q hq).exists_boundary (h.nonempty q hq) hi ht hw
      (countable.swapchainsIn_lt hi) hisolate
    simp only [Step.ensures_bind, Step.ensures_ofFault, hb, Except.ok.injEq, exists_eq_left',
      closeAt]
    cases hany : b.any with
    | false =>
      refine Step.ensures_onlyIf_false.2 ⟨h, rfl, fun q' hq' => ?_⟩
      rw [hq] at hq'
      cases hq'
      exact hjoins.1 hany
    | true =>
      have hcut := h.close (Nat.le_of_lt hi) fun q' hq' _ hj => by
        rw [hq] at hq'
        cases hq'
        rw [hjoins.2 hj] at hany
        cases hany
      rw [Step.ensures_onlyIf_true, Step.ensures_bind, Step.ensures_note, Step.ensures_modify]
      refine ⟨hcut, ledger?_close m, fun q' hq' => ?_⟩
      rw [gathering?_close] at hq'
      cases hq'

/-- An entry into the ledger is all that `enter` does. -/
theorem Balanced.enter (h : m.Balanced g i) (hi : i < g.scopes.length) (countable : g.Countable) :
    (Merge.enter i (g.before i) (g.scopeAt i)).Ensures m fun _ m' =>
      (∃ ledger?, m' = { m with ledger? := ledger? }) ∧ m'.Balanced g (i + 1) := by
  unfold Merge.enter
  rw [Step.ensures_bind, Step.ensures_read]
  cases hl : m.ledger? with
  | none =>
    refine Step.ensures_pure.2 ⟨⟨m.ledger?, rfl⟩, fun l hsome => ?_⟩
    rw [hl] at hsome
    cases hsome
  | some l =>
    have fits : g.sumBefore (·.sync.waits) i + g.sumBefore (·.sync.signalFences.length) i +
        (g.scopeAt i).sync.pledges < UInt32.size := by
      rw [← Graph.sumBefore_pledges, ← Graph.sumBefore_succ (f := (·.sync.pledges)) hi]
      exact Nat.lt_of_le_of_lt Graph.sumBefore_le countable.pledges
    have hbalance := (h l hl).enter i (g.before i) (g.scopeAt i) fits
    rw [Step.ensures_zoom]
    refine hbalance.mono fun _ l' hl' => ⟨⟨some l', rfl⟩, fun l'' hl'' => ?_⟩
    cases hl''
    rw [Graph.sumBefore_succ hi, Graph.sumBefore_succ hi]
    exact hl'

/-- A scope that stands alone becomes a draft of its own. -/
theorem Cut.setApart (h : m.Cut c g i) (hi : i < g.scopes.length)
    (ht : c.Sites (g.scopeAt i) t) (hw : c.Weighs (g.scopeAt i) w) (hnone : m.gathering? = none)
    (hisolated : g.Isolated c i) :
    (Merge.setApart i t w).Ensures m fun _ m' =>
      m'.Cut c g (i + 1) ∧ m'.ledger? = m.ledger? := by
  have hthreshold : w.threshold ≠ 0 := fun hzero => by
    have hpos := hw.pos
    rw [hzero] at hpos
    exact Nat.lt_irrefl 0 hpos
  obtain ⟨lists, hlists, hpos⟩ : ∃ lists, w.lists = .ok lists ∧ lists ≠ 0 := by
    obtain ⟨quotient, hdiv, -⟩ := Count.exists_ceilDiv (a := w.cost) hthreshold
    refine ⟨max quotient 1, by rw [Weight.lists, hdiv]; rfl, fun hzero => ?_⟩
    have hval := congrArg UInt32.toNat hzero
    rw [UInt32.toNat_max, UInt32.toNat_one, UInt32.toNat_zero] at hval
    omega
  have hdraft : Draft.Merged c g ⟨.secondary lists, i, [t.toPlacedScope], m.handle?⟩ := by
    refine ⟨⟨?_, fun _ => rfl, hpos⟩, ?_, fun _ => hisolated, ?_⟩
    · rw [ht.scope]
      exact (Graph.slice_single hi).symm
    · simp [GroupKind.level]
    · exact fun _ hjoint => hjoint.cheap i (Nat.le_refl i) (by simp [Draft.span]) hisolated
  have htile := h.tile
  rw [hnone, Option.elim_none] at htile
  simp only [Merge.setApart, Step.ensures_bind, Step.ensures_ofFault, hlists, Except.ok.injEq,
    exists_eq_left', Step.ensures_note, Step.ensures_modify, pushSplit]
  refine ⟨⟨?_, ?_, ?_, ?_, ?_⟩, trivial⟩
  · rw [hnone, Option.elim_none, List.map_append, List.map_singleton]
    exact htile.concat (Nat.lt_succ_self i)
  · exact forall_mem_concat.2 ⟨h.drafts, hdraft⟩
  all_goals
    intro q hq
    rw [hnone] at hq
    cases hq

/-- A scope that does not stand alone joins what is gathered, or starts to gather. -/
theorem Cut.gather (h : m.Cut c g i) (hi : i < g.scopes.length)
    (ht : c.Sites (g.scopeAt i) t) (hw : c.Weighs (g.scopeAt i) w) (countable : g.Countable)
    (hjoins : ∀ q, m.gathering? = some q → g.Joins c q.start i) (hcheap : ¬ g.Isolated c i) :
    (Merge.gather i t w).Ensures m fun _ m' =>
      m'.Cut c g (i + 1) ∧ m'.ledger? = m.ledger? := by
  have hstart : (m.gatheringFor i t).start = m.gathering?.elim i (·.start) := by
    unfold gatheringFor
    cases m.gathering? <;> rfl
  have htallies : (m.gatheringFor i t).Tallies c g i := by
    unfold gatheringFor
    cases hq : m.gathering? with
    | none => exact Gathering.Tallies.start ht
    | some q => exact h.tallies q hq
  have hjoint : g.Joint c (m.gatheringFor i t).start (i + 1) := by
    rw [hstart]
    cases hq : m.gathering? with
    | none => exact Graph.joint_single hcheap
    | some q => exact (Graph.joint_succ_iff (h.nonempty q hq)).2 ⟨h.joint q hq, hjoins q hq⟩
  obtain ⟨q', hjoin, hsame, htallies'⟩ :=
    htallies.exists_join hi ht hw (countable.swapchainsIn_lt hi)
  simp only [Merge.gather, Step.ensures_bind, Step.ensures_update, Step.ensures_note, hjoin,
    Except.map, Except.ok.injEq, exists_eq_left']
  refine ⟨⟨?_, h.drafts, ?_, ?_, ?_⟩, trivial⟩
  · rw [Option.elim_some, hsame, hstart]
    exact h.tile
  · intro q hq
    cases hq
    exact Nat.lt_succ_of_le (hsame ▸ htallies.le)
  · intro q hq
    cases hq
    exact htallies'
  · intro q hq
    cases hq
    rw [hsame]
    exact hjoint

/-- **One scope of the walk** moves the cut and the account on by a position. -/
theorem Cut.visit (h : m.Cut c g i) (hm : m.Balanced g i) (checked : c.check = .ok ())
    (hi : i < g.scopes.length) (ht : c.Sites (g.scopeAt i) t) (countable : g.Countable) :
    (Merge.visit i (g.before i) g.scopes[i + 1]? t).Ensures m fun _ m' =>
      m'.Cut c g (i + 1) ∧ m'.Balanced g (i + 1) := by
  have fits : (g.scopeAt i).sync.swapchains.length < UInt32.size := by
    have hlt := countable.swapchainsIn_lt (a := i) hi
    rw [Graph.swapchainsIn_succ (Nat.le_refl i)] at hlt
    omega
  obtain ⟨w, hweight, hw⟩ := Config.exists_weight checked ht fits
  have hisolate := Graph.isolate_iff hi ht hw
  simp only [Merge.visit, Step.ensures_bind, Step.ensures_ofFault, hweight, Except.ok.injEq,
    exists_eq_left']
  generalize (t.inSubpass (g.before i) g.scopes[i + 1]? || w.heavy) = isolate at hisolate ⊢
  apply (h.closeBefore hi ht hw countable hisolate).mono
  intro _ m₁ h₁
  rcases h₁ with ⟨hcut₁, hledger₁, hjoins⟩
  have hm₁ : m₁.Balanced g i := fun l hl => hm l (hledger₁ ▸ hl)
  rw [ht.scope]
  apply (hm₁.enter hi countable).mono
  intro _ m₂ h₂
  rcases h₂ with ⟨⟨ledger?, rfl⟩, hm₂⟩
  have hcut₂ : Cut c g i { m₁ with ledger? := ledger? } := { hcut₁ with }
  cases hiso : isolate with
  | true =>
    have hisolated := hisolate.1 hiso
    have hnone : m₁.gathering? = none := by
      apply Option.eq_none_iff_forall_not_mem.2
      intro q hq
      exact (hjoins q hq).cheap hisolated
    apply (hcut₂.setApart hi ht hw hnone hisolated).mono
    intro _ m₃ h₃
    exact ⟨h₃.1, fun l hl => hm₂ l (h₃.2 ▸ hl)⟩
  | false =>
    have hcheap : ¬ g.Isolated c i := fun hisolated => by
      rw [hisolate.2 hisolated] at hiso
      cases hiso
    apply (hcut₂.gather hi ht hw countable hjoins hcheap).mono
    intro _ m₃ h₃
    exact ⟨h₃.1, fun l hl => hm₂ l (h₃.2 ▸ hl)⟩

/-! ## The whole walk -/

/-- **The walk over the scopes from a position on** ends with the frame cut into drafts
and the account of all its scopes. -/
theorem Cut.walk {ts : List SitedScope} (hts : List.Forall₂ c.Sites (g.scopes.drop i) ts)
    (h : m.Cut c g i) (hm : m.Balanced g i) (checked : c.check = .ok ())
    (hi : i ≤ g.scopes.length) (countable : g.Countable) :
    (Merge.walk i (g.before i) ts).Ensures m fun _ m' =>
      m'.Cut c g g.scopes.length ∧ m'.gathering? = none ∧ m'.Balanced g g.scopes.length := by
  induction ts generalizing i m with
  | nil =>
    have hend : i = g.scopes.length := by
      have hlen := hts.length_eq
      rw [List.length_drop, List.length_nil] at hlen
      omega
    subst hend
    unfold Merge.walk
    rw [Step.ensures_modify]
    have hclose := h.close (Nat.le_refl _) fun _ _ hlt => (Nat.lt_irrefl _ hlt).elim
    exact ⟨hclose, gathering?_close m, fun l hl => hm l (ledger?_close m ▸ hl)⟩
  | cons t ts ih =>
    obtain ⟨s, ss, ht, hts, hss⟩ := List.forall₂_cons_right_iff.1 hts
    obtain ⟨hlt, rfl, hbefore, rfl⟩ := Graph.of_scopes_drop hss
    have hnext : ts.head?.map (·.toPlacedScope) = g.scopes[i + 1]? := by
      rw [← List.head?_drop]
      generalize g.scopes.drop (i + 1) = rest at hts
      cases hts with
      | nil => rfl
      | cons hu _ => rw [List.head?_cons, List.head?_cons, Option.map_some, hu.scope]
    rw [Merge.walk, hnext, ht.scope, ← hbefore, Step.ensures_bind]
    exact (h.visit hm checked hlt ht countable).mono fun _ m' h' => ih hts h'.1 h'.2 hlt

theorem initial_cut (ts : List SitedScope) : (initial ts).Cut c g 0 := by
  unfold initial
  split <;> exact ⟨rfl, by simp, by simp, by simp, by simp⟩

theorem initial_balanced (ts : List SitedScope) : (initial ts).Balanced g 0 := by
  unfold initial
  split
  · intro l hl
    cases hl
    exact Ledger.opening_balanced
  · intro l hl
    cases hl

/-- **A frame is cut** into drafts without a fault. -/
theorem ofScopes_ensures {σ : Type} {s : σ} {ts : List SitedScope}
    (hts : List.Forall₂ c.Sites g.scopes ts) (checked : c.check = .ok ())
    (countable : g.Countable) :
    (ofScopes ts : Step σ Merge).Ensures s fun m s' => s' = s ∧
      Span.Tile 0 g.scopes.length (m.drafts.map Draft.span) ∧ (∀ d ∈ m.drafts, d.Merged c g) ∧
        m.Balanced g g.scopes.length := by
  unfold ofScopes
  rw [Step.ensures_map, Step.ensures_fresh]
  apply ((initial_cut ts).walk hts (initial_balanced ts) checked (Nat.zero_le _) countable).mono
  intro _ m hm
  rcases hm with ⟨hcut, hnone, hbalanced⟩
  have htile := hcut.tile
  rw [hnone, Option.elim_none] at htile
  exact ⟨rfl, htile, hcut.drafts, hbalanced⟩

/-! ## Handles -/

/-- With a ledger, every draft has a handle that reaches a tracker, and no tracker has
been signalled. -/
def Linked (m : Merge) : Prop :=
  ∀ l, m.ledger? = some l → l.Unsignalled ∧ ∀ d ∈ m.drafts, d.handle?.any (0 < ·.reach)

/-- A draft takes the handle of its walk. -/
theorem Linked.push (h : m.Linked) {d : Draft} (hd : d.handle? = m.handle?)
    (gathering? : Option Gathering) :
    Linked { m with drafts := m.drafts ++ [d], gathering? := gathering? } := by
  intro l hl
  obtain ⟨hblank, hdrafts⟩ := h l hl
  refine ⟨hblank, forall_mem_concat.2 ⟨hdrafts, ?_⟩⟩
  have hl' : m.ledger? = some l := hl
  have hpos : 0 < l.handle.reach := by
    rw [hblank.reach]
    exact List.length_pos_of_ne_nil hblank.some
  rw [hd, handle?, hl']
  simpa using hpos

theorem Linked.close (h : m.Linked) : m.close.Linked := by
  unfold Merge.close
  split
  · exact h
  · exact h.push rfl none

theorem Linked.enter (h : m.Linked) (position : Nat) (previous? : Option PlacedScope)
    (s : PlacedScope) : (Merge.enter position previous? s).Permits m fun _ => Linked := by
  unfold Merge.enter
  rw [Step.permits_bind, Step.permits_read]
  cases hl : m.ledger? with
  | none => exact Step.permits_pure.2 h
  | some l =>
    rw [Step.permits_zoom]
    refine ((h l hl).1.enter position previous? s).mono fun _ l' hl' => ?_
    intro l'' hsome
    cases hsome
    exact ⟨hl', (h l hl).2⟩

theorem Linked.visit (h : m.Linked) (position : Nat) (previous? next? : Option PlacedScope)
    (t : SitedScope) : (Merge.visit position previous? next? t).Permits m fun _ => Linked := by
  refine (visit_permits position previous? next? t m).mono fun _ m' hvisited => ?_
  cases hvisited with
  | apart lists henter =>
    have hlinked := h.close.enter _ _ _ () _ henter
    exact hlinked.push rfl _
  | first cost swapchains henter =>
    have hlinked := h.close.enter _ _ _ () _ henter
    exact hlinked
  | join cost swapchains henter =>
    have hlinked := h.enter _ _ _ () _ henter
    exact hlinked

theorem Linked.walk {ts : List SitedScope} (h : m.Linked) (position : Nat)
    (previous? : Option PlacedScope) :
    (Merge.walk position previous? ts).Permits m fun _ => Linked := by
  induction ts generalizing m position previous? with
  | nil => exact Step.permits_modify.2 h.close
  | cons t ts ih =>
    unfold Merge.walk
    rw [Step.permits_bind]
    exact (h.visit position previous? _ t).mono fun _ m' h' => ih h' _ _

theorem ofScopes_linked {σ : Type} {s : σ} (ts : List SitedScope) :
    (ofScopes ts : Step σ Merge).Permits s fun m s' => s' = s ∧ m.Linked := by
  unfold ofScopes
  rw [Step.permits_map, Step.permits_fresh]
  refine (Linked.walk ?_ 0 none).mono fun _ _ hm => ⟨rfl, hm⟩
  unfold initial
  split
  · intro l hl
    cases hl
    exact ⟨Ledger.opening_unsignalled, by simp⟩
  · intro l hl
    cases hl

end Merge

/-! ## Walking in lockstep -/

/-- Without merging, each scope is a draft. -/
theorem lockstep_sits {ss : List PlacedScope} (hi : i ≤ g.scopes.length)
    (hss : g.scopes.drop i = ss) (previous? : Option PlacedScope) :
    Span.Tile i g.scopes.length ((lockstep i previous? ss).map Draft.span) ∧
      ∀ d ∈ lockstep i previous? ss, d.Sits g := by
  induction ss generalizing i previous? with
  | nil =>
    have hlen := List.drop_eq_nil_iff.1 hss
    exact ⟨Nat.le_antisymm hi hlen, by simp [lockstep]⟩
  | cons s ss ih =>
    obtain ⟨hlt, hs, -, hdrop⟩ := Graph.of_scopes_drop hss
    obtain ⟨htile, hsits⟩ := ih hlt hdrop (some s)
    unfold lockstep
    refine ⟨⟨rfl, Nat.lt_succ_self i, htile⟩, ?_⟩
    intro d hd
    rcases List.mem_cons.1 hd with rfl | hd
    · refine ⟨?_, fun _ => rfl, ?_⟩
      · rw [← hs]
        exact (Graph.slice_single hlt).symm
      · simp only
        split <;> decide
    · exact hsits d hd

end FrameSchedule
