import FrameSchedule.Proofs.Leftovers
import FrameSchedule.Proofs.Trackers

/-!
# What the trackers of a plan require

A tracker requires what the scopes of the epochs up to its own wait for, and what is left to
the presentations of these epochs.  The ledger that is kept on the walk credits each fence
that is left to the one scope that leaves it, so the same requirement is the sum of what the
scopes account for, and the groups signal these accounts (`Plan.ofGraph_requires`).

A fence that an epoch has waited for is not left to its presentation, also when the epoch
signals it afterwards (`Plan.ofGraph_presents`).
-/

namespace FrameSchedule

variable {σ : Type} {s s' : σ} {c : Config} {g : Graph}

/-! ## The ledger of a walk -/

/-- Presentations are tracked: the device of the first scope allows it. -/
def Config.Tracks (c : Config) (g : Graph) : Prop :=
  g.scopes.head?.any fun scope => (c.find? scope.device).any (·.tracking)

/-- The ledger with which the walk over a graph ends, if presentations are tracked. -/
def Config.ledger? (c : Config) (g : Graph) : Option Ledger :=
  (c.site g.scopes).toOption.bind fun ts =>
    ((Merge.ofScopes ts : Step Unit Merge).run ()).result.toOption.bind (·.ledger?)

namespace Merge

variable {m m' : Merge} {t : SitedScope} {ts : List SitedScope}

/-- What a walk makes of a frame does not depend on the state around it. -/
theorem ofScopes_outside (ts : List SitedScope) :
    (ofScopes ts : Step σ Merge).Permits s fun m _ =>
      (ofScopes ts : Step Unit Merge).Yields () m () := by
  unfold ofScopes
  rw [Step.permits_map, Step.permits_fresh]
  intro _ m hm
  rw [Step.yields_iff_ensures, Step.ensures_map, Step.ensures_fresh]
  exact ⟨(), m, hm, rfl, rfl⟩

/-- The ledger of a graph is the one that its walk has kept. -/
theorem ledger?_of_yields (hts : c.site g.scopes = .ok ts)
    (hm : (ofScopes ts : Step σ Merge).Yields s m s') : c.ledger? g = m.ledger? := by
  have hresult := (ofScopes_outside ts m s' hm).1
  rw [Config.ledger?, hts, Except.toOption, Option.bind_some, hresult]
  rfl

/-- A walk ends with a ledger just when it has begun with one. -/
theorem ofScopes_isSome (hts : ts.map (·.toPlacedScope) = g.scopes) :
    (ofScopes ts : Step σ Merge).Permits s fun m _ =>
      m.ledger?.isSome = (initial ts).ledger?.isSome := by
  have hwalk : (ofScopes ts : Step σ Merge).Permits s fun m _ =>
      ∃ m₁ : Merge, m₁.ledger?.isSome = (initial ts).ledger?.isSome ∧ m = m₁.close :=
    ofScopes_visits (fun _ m => m.ledger?.isSome = (initial ts).ledger?.isSome)
      (fun _ _ _ _ _ _ h hvisited =>
        (hvisited.ledger fun _ _ _ _ _ => trivial).1.trans h) hts rfl
  intro m s' hm
  obtain ⟨m₁, h, rfl⟩ := hwalk m s' hm
  rw [ledger?_close]
  exact h

theorem initial_isSome (hts : c.site g.scopes = .ok ts) (tracks : c.Tracks g) :
    (initial ts).ledger?.isSome := by
  have hsites := Config.site_eq_ok_iff.1 hts
  unfold Config.Tracks at tracks
  cases hscopes : g.scopes with
  | nil =>
    rw [hscopes] at tracks
    cases tracks
  | cons scope scopes =>
    rw [hscopes] at tracks hsites
    obtain ⟨t, ts, ht, -, rfl⟩ := List.forall₂_cons_left_iff.1 hsites
    rw [List.head?_cons, Option.any_some, ht.profile, Option.any_some] at tracks
    rw [initial, List.head?_cons, Option.any_some, if_pos tracks]
    rfl

end Merge

/-- A scope accounts for what it waits for and what it has been credited with. -/
theorem Ledger.Follows.account_eq {l : Ledger} (h : l.Follows g g.scopes.length) {j : Nat}
    (hj : j < g.scopes.length) : g.account j = g.waitsOf j + l.credits.count j := by
  rw [Graph.account, h.count_credits hj]

/-- What the tracker before a position requires: the tracker there has begun with it. -/
def Chain.requiredBefore (chain : Chain) : Nat → Nat
  | 0 => 0
  | k + 1 => chain.trackers[k]?.elim 0 (·.required.toNat)

namespace Plan

variable {l : Ledger} {p : Plan}

/-- A plan whose trackers are those of the ledger that the walk has kept. -/
theorem ofGraph_follows (c : Config) (g : Graph) :
    (ofGraph c .parallel g : Step σ Plan).Permits s fun p _ =>
      ∀ planned, p.chain? = some planned →
        ∃ l, c.ledger? g = some l ∧ l.chain = planned ∧ l.Follows g g.scopes.length := by
  intro p s' hp planned hplanned
  obtain ⟨ts, m, hts, hscopes, hm, hp⟩ := ofGraph_walks g p s' hp
  obtain ⟨-, -, hbooked⟩ := Merge.ofScopes_permits hscopes m s' hm
  rw [(of_ofDrafts hp).2.2.1] at hplanned
  obtain ⟨l, hl, hchain⟩ := Option.map_eq_some_iff.1 hplanned
  exact ⟨l, (Merge.ledger?_of_yields hts hm).trans hl, hchain, hbooked l hl⟩

/-- A plan has trackers if presentations are tracked. -/
theorem ofGraph_tracks (tracks : c.Tracks g) :
    (ofGraph c .parallel g : Step σ Plan).Permits s fun p _ =>
      ∃ planned, p.chain? = some planned := by
  intro p s' hp
  obtain ⟨ts, m, hts, hscopes, hm, hp⟩ := ofGraph_walks g p s' hp
  have hsome := Merge.ofScopes_isSome hscopes m s' hm
  rw [Merge.initial_isSome hts tracks] at hsome
  obtain ⟨l, hl⟩ := Option.isSome_iff_exists.1 hsome
  rw [(of_ofDrafts hp).2.2.1, hl]
  exact ⟨l.chain, rfl⟩

/-! ## Requirements -/

/-- What the trackers of a ledger require and the groups of a plan signal.  A tracker requires
what is waited for and what is left to presentations in the epochs up to its own; and this is
what the scopes of these epochs wait for and have been credited with. -/
structure Requires (g : Graph) (l : Ledger) (p : Plan) : Prop where
  length : l.chain.trackers.length = 1 + g.epoch (g.scopes.length - 1)
  left : ∀ (k : Nat) (t : Tracker), l.chain.trackers[k]? = some t →
    t.required.toNat = g.sumThrough g.waitsOf g.scopes.length k +
      g.sumThrough (fun i => (g.leftTo i).card) g.scopes.length k
  accounted : ∀ (k : Nat) (t : Tracker), l.chain.trackers[k]? = some t →
    t.required.toNat =
      g.sumThrough (fun j => g.waitsOf j + l.credits.count j) g.scopes.length k
  /-- A scope is credited with the fences that it is the first to signal. -/
  credited : ∀ j < g.scopes.length,
    l.credits.count j = ∑ i ∈ Finset.range g.scopes.length, (g.leftToBy i j).card
  /-- Each fence that is left is credited to one scope. -/
  once : ∀ i < g.scopes.length, ∀ f ∈ g.leftTo i,
    ∃! j, j < g.scopes.length ∧ f ∈ g.leftToBy i j
  signals : ∀ G ∈ p.groups, G.signals.toNat =
    ∑ j ∈ Finset.Ico G.start G.stop, (g.waitsOf j + l.credits.count j)

/-- Plans require what their ledgers have followed. -/
theorem Tracked.requires (tracked : p.Tracked g l.chain) (h : l.Follows g g.scopes.length) :
    p.Requires g l := by
  constructor
  · rw [tracked.length, Nat.add_comm]
  · intro k t ht
    rw [tracked.required k t ht, Graph.sumThrough_account]
  · intro k t ht
    rw [tracked.required k t ht, Graph.sumThrough, Graph.sumThrough]
    apply Finset.sum_congr rfl
    intro j hj
    rw [h.account_eq (Finset.mem_range.1 hj)]
  · intro j hj
    rw [h.count_credits hj, Graph.card_leftBy hj]
  · intro i _ f hf
    obtain ⟨j, hj⟩ := Graph.exists_firstSignal (Graph.mem_leftTo.1 hf).2.1
    refine ⟨j, ⟨(Graph.of_firstSignal hj).1, Graph.mem_leftToBy.2 ⟨hf, hj⟩⟩, fun k hk => ?_⟩
    exact Option.some_inj.1 ((Graph.mem_leftToBy.1 hk.2).2.symm.trans hj)
  · intro G hG
    obtain ⟨-, -, hle⟩ := tracked.tile.bounds (List.mem_map_of_mem hG)
    have hstop : G.stop ≤ g.scopes.length := hle
    rw [tracked.signals G hG]
    apply Finset.sum_congr rfl
    intro j hj
    have hlt := (Finset.mem_Ico.1 hj).2
    exact h.account_eq (by omega)

/-- **The requirement of every tracker.**  Whenever a merging plan tracks presentations, its
trackers require what the scopes of a graph wait for and leave to presentations, epoch by
epoch, and its groups signal what their scopes account for.  There is such a plan if the
graph is built and its totals are words. -/
theorem ofGraph_requires (c : Config) (g : Graph) (s : σ) :
    ((ofGraph c .parallel g : Step σ Plan).Permits s fun p _ =>
      ∀ planned, p.chain? = some planned →
        ∃ l, c.ledger? g = some l ∧ l.chain = planned ∧ p.Requires g l) ∧
      (g.Built → g.Countable → c.check = .ok () → c.Covers g → c.Tracks g →
        ∃ p planned, ((ofGraph c .parallel g : Step σ Plan).run s).result = .ok p ∧
          p.chain? = some planned) := by
  constructor
  · intro p s' hp planned hplanned
    obtain ⟨l, hl, rfl, hfollows⟩ := ofGraph_follows c g p s' hp planned hplanned
    have htracked := ofGraph_tracked .parallel g p s' hp l.chain hplanned
    exact ⟨l, hl, rfl, htracked.requires hfollows⟩
  · intro built countable checked covers tracks
    obtain ⟨p, s', hp, -⟩ := ofGraph_parallel (s := s) built countable checked covers
    obtain ⟨planned, hplanned⟩ := ofGraph_tracks tracks p s' hp
    exact ⟨p, planned, hp.1, hplanned⟩

theorem ofGraph_requires_short :
    ∃ p l, ((ofGraph .plain .parallel .short : Step Unit Plan).run ()).result = .ok p ∧
      Config.plain.ledger? .short = some l ∧ p.chain? = some l.chain ∧ p.Requires .short l := by
  obtain ⟨hrequires, hreturns⟩ := ofGraph_requires .plain .short ()
  obtain ⟨p, planned, hp, hplanned⟩ :=
    hreturns Graph.short_built Graph.short_countable rfl Config.plain_covers rfl
  obtain ⟨l, hl, rfl, hrequired⟩ := hrequires p () ⟨hp, rfl⟩ planned hplanned
  exact ⟨p, l, hp, hl, hplanned, hrequired⟩

/-! ## Presentations -/

/-- A tracker requires, beyond what the tracker before it does, what its epoch waits for and
what is left to its presentation. -/
theorem Requires.at_epoch (h : p.Requires g l) {i : Nat} (hi : i < g.scopes.length)
    (hpresents : (g.scopeAt i).sync.presents = true) :
    ∃ t, l.chain.trackers[g.epoch i]? = some t ∧
      t.required.toNat = l.chain.requiredBefore (g.epoch i) +
        (∑ j ∈ g.positions (g.epoch i), g.waitsOf j) + (g.leftTo i).card := by
  have hlast : g.epoch i ≤ g.epoch (g.scopes.length - 1) := Graph.epoch_mono (by omega)
  have hlt : g.epoch i < l.chain.trackers.length := by
    rw [h.length]
    omega
  have htracker := List.getElem?_eq_getElem hlt
  rw [← Graph.sum_card_leftTo hi hpresents]
  refine ⟨_, htracker, ?_⟩
  rw [h.left _ _ htracker]
  -- the tracker has begun with all that the epochs before its own require
  cases hepoch : g.epoch i with
  | zero =>
    rw [Graph.sumThrough_zero, Graph.sumThrough_zero, Chain.requiredBefore, Nat.zero_add]
  | succ e =>
    have hbefore : e < l.chain.trackers.length := by omega
    have hrequired := h.left e _ (List.getElem?_eq_getElem hbefore)
    rw [Graph.sumThrough_succ_epoch, Graph.sumThrough_succ_epoch, Chain.requiredBefore,
      List.getElem?_eq_getElem hbefore, Option.elim_some, hrequired]
    omega

/-- **What a presentation requires.**  To the tracker of a presentation one signal is added for
each fence that is left to it.  A fence that the epoch signals, and does not wait for after that
signal, is one of them just when the epoch has not waited for it up to that signal either. -/
theorem ofGraph_presents (c : Config) (g : Graph) (s : σ) :
    (ofGraph c .parallel g : Step σ Plan).Permits s fun p _ =>
      ∀ planned, p.chain? = some planned → ∀ i < g.scopes.length,
        (g.scopeAt i).sync.presents = true →
          (∃ t, planned.trackers[g.epoch i]? = some t ∧
            t.required.toNat = planned.requiredBefore (g.epoch i) +
              (∑ j ∈ g.positions (g.epoch i), g.waitsOf j) + (g.leftTo i).card) ∧
          ∀ j ≤ i, g.epoch j = g.epoch i → ∀ f ∈ (g.scopeAt j).sync.signalFences,
            (∀ k, j < k → k ≤ i → f ∉ (g.scopeAt k).sync.waitFences) →
              (f ∈ g.leftTo i ↔
                ∀ k ≤ j, g.epoch k = g.epoch i → f ∉ (g.scopeAt k).sync.waitFences) := by
  intro p s' hp planned hplanned i hi hpresents
  obtain ⟨l, -, rfl, hfollows⟩ := ofGraph_follows c g p s' hp planned hplanned
  have htracked := ofGraph_tracked .parallel g p s' hp l.chain hplanned
  constructor
  · exact (htracked.requires hfollows).at_epoch hi hpresents
  · intro j hj hepoch f hsignals hafter
    exact Graph.mem_leftTo_iff_of_signal hi hpresents hj hepoch hsignals hafter

/-- The presentation of the short frame is left one fence. -/
theorem ofGraph_presents_short :
    ∃ p planned t, ((ofGraph .plain .parallel .short : Step Unit Plan).run ()).result = .ok p ∧
      p.chain? = some planned ∧ planned.trackers[0]? = some t ∧ t.required.toNat = 1 ∧
        ⟨1⟩ ∈ Graph.short.leftTo 3 := by
  obtain ⟨p, _, ⟨hp, rfl⟩, -⟩ := ofGraph_parallel (s := ()) Graph.short_built
    Graph.short_countable rfl Config.plain_covers
  obtain ⟨planned, hplanned⟩ := ofGraph_tracks (c := .plain) (g := .short) rfl p () ⟨hp, rfl⟩
  obtain ⟨⟨t, ht, hrequired⟩, hleft⟩ := ofGraph_presents .plain .short () p () ⟨hp, rfl⟩ planned
    hplanned 3 (by decide +kernel) (by decide +kernel)
  have hepoch : Graph.short.epoch 3 = 0 := by decide +kernel
  have hwaits : ∑ j ∈ Graph.short.positions 0, Graph.short.waitsOf j = 0 := by decide +kernel
  have hcard : (Graph.short.leftTo 3).card = 1 := by decide +kernel
  rw [hepoch] at ht hrequired hleft
  rw [hwaits, hcard] at hrequired
  have hquiet : ∀ k ≤ 3, ⟨1⟩ ∉ (Graph.short.scopeAt k).sync.waitFences := by decide +kernel
  have hfence := (hleft 1 (by decide) (by decide +kernel) ⟨1⟩ (by decide +kernel)
    fun k _ hk => hquiet k hk).2 fun k hk _ => hquiet k (Nat.le_trans hk (by decide))
  exact ⟨p, planned, t, hp, hplanned, ht, hrequired, hfence⟩

end Plan

/-- A fence that is waited for, and then signalled by the scope that presents. -/
def Graph.rearmed : Graph :=
  ((addAll [
    { name := "a", sync := { waitFences := [⟨1⟩] } },
    { name := "b", sync := { signalFences := [⟨1⟩], swapchains := [⟨1⟩] } }]).run {}).state

/-- The presentation adds no requirement for a fence that nobody waits for after its last
signal: an earlier wait is taken for one of that signal. -/
theorem Plan.rearmed_adds_nothing :
    ∃ p planned t, ((ofGraph .plain .parallel .rearmed : Step Unit Plan).run ()).result = .ok p ∧
      p.chain? = some planned ∧ planned.trackers[Graph.rearmed.epoch 1]? = some t ∧
        (Graph.rearmed.scopeAt 1).sync.presents = true ∧
        ⟨1⟩ ∈ (Graph.rearmed.scopeAt 1).sync.signalFences ∧
        (∀ k, 1 < k → k ≤ 1 → ⟨1⟩ ∉ (Graph.rearmed.scopeAt k).sync.waitFences) ∧
          t.required.toNat = planned.requiredBefore (Graph.rearmed.epoch 1) +
            ∑ j ∈ Graph.rearmed.positions (Graph.rearmed.epoch 1), Graph.rearmed.waitsOf j := by
  have hplan : ((ofGraph .plain .parallel .rearmed : Step Unit Plan).run ()).result.toOption.any
      fun p => p.chain?.any fun planned => planned.trackers[0]?.any (·.required.toNat = 1) := by
    decide +kernel
  have hepoch : Graph.rearmed.epoch 1 = 0 := by decide +kernel
  have hwaits : ∑ j ∈ Graph.rearmed.positions 0, Graph.rearmed.waitsOf j = 1 := by decide +kernel
  have built : Graph.rearmed.Built := Graph.Built.empty.addAll _ () _ ⟨rfl, rfl⟩
  obtain ⟨p, _, ⟨hp, rfl⟩, -⟩ := ofGraph_parallel (s := ()) built
    ⟨by decide, by decide, by decide⟩ (rfl : Config.plain.check = .ok ())
    (by unfold Config.Covers; decide)
  rw [hp] at hplan
  obtain ⟨planned, hplanned, htracker⟩ := (Option.any_eq_true _ p.chain?).1 hplan
  obtain ⟨t, ht, hrequired⟩ := (Option.any_eq_true _ _).1 htracker
  refine ⟨p, planned, t, hp, hplanned, hepoch ▸ ht, by decide +kernel, by decide +kernel,
    by omega, ?_⟩
  rw [hepoch, hwaits]
  exact of_decide_eq_true hrequired

end FrameSchedule
