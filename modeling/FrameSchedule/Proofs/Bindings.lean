import FrameSchedule.Proofs.Requirements

/-!
# What presentations are bound to

A presentation takes all that its epoch leaves over, and is bound to the tracker of the epoch.
The presentations of the same scope that come after it find nothing left over, and the scope
after that opens an epoch, so nothing is required of this tracker any more
(`Ledger.Final.enter`).  Its requirement is the one that the first presentation has seen, at
every later point of the pass over the frame (`Plan.ofGraph_binds`).
-/

namespace FrameSchedule

/-- The same scope with other presentations. -/
def PlacedScope.presenting (scope : PlacedScope) (swapchains : List SwapchainId) : PlacedScope :=
  { scope with sync := { scope.sync with swapchains } }

/-! ## Trackers that are done with -/

namespace Ledger

/-- The tracker at a position is `t`, and there is another after it. -/
structure Closed (e : Nat) (t : Tracker) (l : Ledger) : Prop where
  there : l.chain.trackers[e]? = some t
  behind : e + 1 < l.chain.trackers.length

/-- The last tracker is `t`, at position `e`, and the epoch leaves nothing over for it. -/
structure Final (e : Nat) (t : Tracker) (l : Ledger) : Prop where
  there : l.chain.trackers[e]? = some t
  last : l.chain.trackers.length = e + 1
  unwaited : l.unwaited = 0

variable {e : Nat} {t : Tracker} {l : Ledger}

/-- What opening an epoch comes to, and requirements and presentations keep, is so after an
entry, if it is a matter of the trackers. -/
theorem enter_permits_of (inv : Ledger → Prop) {previous? : Option PlacedScope}
    (hopen : (Step.onlyIf (previous?.any (·.sync.presents)) newEpoch).Permits l fun _ => inv)
    (hchain : ∀ l l', l'.chain = l.chain → inv l → inv l')
    (hrequire : ∀ l n, inv l → (onChain (Chain.require n)).Permits l fun _ => inv)
    (hpresent : ∀ l name swapchain, inv l → (present name swapchain).Permits l fun _ => inv)
    (position : Nat) (scope : PlacedScope) :
    (enter position previous? scope).Permits l fun _ => inv := by
  have hsignal : ∀ fence l, inv l → (signalFence position fence).Permits l fun _ => inv := by
    intro fence l h
    refine Step.permits_update.2 fun l' hl' => hchain l l' ?_ h
    split at hl'
    · cases hl'
      rfl
    · obtain ⟨_, -, rfl⟩ := exists_of_map_eq_ok hl'
      rfl
  have hwait : ∀ fence l, inv l → (waitFence fence).Permits l fun _ => inv := by
    intro fence l h
    refine Step.permits_update.2 fun l' hl' => hchain l l' ?_ h
    split at hl'
    · cases hl'
      rfl
    · split at hl'
      · cases hl'
        rfl
      · obtain ⟨_, -, rfl⟩ := exists_of_map_eq_ok hl'
        rfl
  unfold enter
  simp only [Step.permits_bind]
  refine hopen.mono fun _ l₁ h₁ => ?_
  refine (Step.Permits.forEach inv hsignal h₁).mono fun _ l₂ h₂ => ?_
  refine (Step.Permits.forEach inv hwait h₂).mono fun _ l₃ h₃ => ?_
  refine (hrequire l₃ _ h₃).mono fun _ l₄ h₄ => ?_
  exact Step.Permits.forEach inv (fun swapchain l h => hpresent l scope.name swapchain h) h₄

/-- A presentation is a requirement, as far as the trackers are concerned. -/
theorem present_permits (name : String) (swapchain : SwapchainId) (l : Ledger) :
    (present name swapchain).Permits l fun _ l' => l'.unwaited = 0 ∧
      (Chain.require l.unwaited).Yields l.chain () l'.chain := by
  unfold present onChain
  rw [Step.permits_bind, Step.permits_read, Step.permits_bind, Step.permits_zoom]
  intro _ c hc
  simp only [Step.permits_bind, Step.permits_modify, Step.permits_read]
  cases Chain.current? (credit { l with chain := c }).chain with
  | none => exact Step.permits_pure.2 ⟨rfl, hc⟩
  | some last =>
    simp only [Step.permits_bind, Step.permits_note, Step.permits_write]
    exact ⟨rfl, hc⟩

namespace Closed

/-- Requirements go to the last tracker. -/
theorem chain (h : l.Closed e t) {n : UInt32} {c : Chain}
    (hc : (Chain.require n).Yields l.chain () c) : Closed e t { l with chain := c } := by
  have hthere := h.there
  have hbehind := h.behind
  rcases Chain.require_permits n l.chain () c hc with
    ⟨-, rfl⟩ | ⟨ts, last, u, hts, hus, -⟩
  · exact h
  · rw [hts, List.length_append, List.length_singleton] at hbehind
    rw [hts, List.getElem?_append_left (by omega)] at hthere
    constructor
    · rw [hus, List.getElem?_append_left (by omega)]
      exact hthere
    · rw [hus, List.length_append, List.length_singleton]
      exact hbehind

theorem require (h : l.Closed e t) (n : UInt32) :
    (onChain (Chain.require n)).Permits l fun _ => Closed e t :=
  Step.permits_zoom.2 fun _ _ hc => h.chain hc

theorem present (h : l.Closed e t) (name : String) (swapchain : SwapchainId) :
    (Ledger.present name swapchain).Permits l fun _ => Closed e t := by
  refine (present_permits name swapchain l).mono fun _ l' hl' => ?_
  have hclosed := h.chain hl'.2
  exact ⟨hclosed.there, hclosed.behind⟩

/-- An entry leaves a tracker alone that is not the last, -/
theorem enter (h : l.Closed e t) (position : Nat) (previous? : Option PlacedScope)
    (scope : PlacedScope) :
    (Ledger.enter position previous? scope).Permits l fun _ => Closed e t := by
  refine enter_permits_of _ (Step.permits_onlyIf.2 ⟨fun _ => ?_, fun _ => h⟩)
    (fun l l' hsame h => ⟨hsame ▸ h.there, hsame ▸ h.behind⟩) (fun _ n h => h.require n)
    (fun _ name swapchain h => h.present name swapchain) position scope
  simp only [newEpoch, onChain, Chain.createHandle, Step.permits_bind, Step.permits_zoom,
    Step.permits_modify, Step.permits_read, Step.permits_pure]
  constructor
  · rw [Chain.grow, List.getElem?_append_left (Nat.lt_of_succ_lt h.behind)]
    exact h.there
  · rw [Chain.grow, List.length_append]
    exact Nat.lt_add_right 1 h.behind

end Closed

namespace Final

/-- A further presentation requires nothing. -/
theorem present (h : l.Final e t) (name : String) (swapchain : SwapchainId) :
    (Ledger.present name swapchain).Permits l fun _ => Final e t := by
  refine (present_permits name swapchain l).mono fun _ l' hl' => ?_
  obtain ⟨hunwaited, hrequire⟩ := hl'
  have hthere := h.there
  have hlast := h.last
  rw [h.unwaited] at hrequire
  rcases Chain.require_permits 0 l.chain () l'.chain hrequire with
    ⟨hnone, -⟩ | ⟨ts, t₀, u, hts, hus, hrequired, hsignalled, -⟩
  · rw [hnone] at hlast
    cases hlast
  · rw [hts, List.length_append, List.length_singleton, Nat.add_right_cancel_iff] at hlast
    have hsame : u = t₀ := by
      rw [UInt32.toNat_zero, Nat.add_zero, UInt32.toNat_inj] at hrequired
      cases u
      cases t₀
      exact congr (congrArg Tracker.mk hrequired) hsignalled
    rw [hts] at hthere
    refine ⟨?_, ?_, hunwaited⟩
    · rw [hus, hsame]
      exact hthere
    · rw [hus, List.length_append, hlast, List.length_singleton]

/-- and the entry after a presentation opens an epoch, behind the tracker that was the last. -/
theorem enter (h : l.Final e t) (position : Nat) {previous? : Option PlacedScope}
    (hpresented : previous?.any (·.sync.presents) = true) (scope : PlacedScope) :
    (Ledger.enter position previous? scope).Permits l fun _ => Closed e t := by
  refine enter_permits_of _ ?_ (fun l l' hsame h => ⟨hsame ▸ h.there, hsame ▸ h.behind⟩)
    (fun _ n h => h.require n) (fun _ name swapchain h => h.present name swapchain) position scope
  rw [hpresented]
  simp only [newEpoch, onChain, Chain.createHandle, Step.onlyIf, if_true, Step.permits_bind,
    Step.permits_zoom, Step.permits_modify, Step.permits_read, Step.permits_pure]
  have hlast := h.last
  constructor
  · rw [Chain.grow, List.getElem?_append_left (by omega)]
    exact h.there
  · rw [Chain.grow, List.length_append, List.length_singleton, hlast]
    exact Nat.lt_succ_self (e + 1)

end Final

/-! ## The pass over a frame -/

/-- The pass over the scopes before a position. -/
def pass (g : Graph) (j : Nat) : Step Ledger Unit :=
  Step.forEach (fun k => enter k (g.before k) (g.scopeAt k)) (List.range j)

/-- The pass up to presentation `m` of the scope at a position. -/
def passTo (g : Graph) (j m : Nat) : Step Ledger Unit := do
  pass g j
  enter j (g.before j)
    ((g.scopeAt j).presenting ((g.scopeAt j).sync.swapchains.take m))

variable {g : Graph} {i j m : Nat}

theorem pass_succ (g : Graph) (j : Nat) :
    pass g (j + 1) = pass g j >>= fun _ => enter j (g.before j) (g.scopeAt j) := by
  rw [pass, List.range_succ, Step.forEach_append, Step.forEach, Step.forEach, pass]
  exact congrArg _ (funext fun _ => bind_pure_unit)

/-- An entry that presents less comes first. -/
theorem enter_append (position : Nat) (previous? : Option PlacedScope) {scope : PlacedScope}
    {before after : List SwapchainId} (h : scope.sync.swapchains = before ++ after) :
    enter position previous? scope =
      enter position previous? (scope.presenting before) >>= fun _ =>
        Step.forEach (present scope.name) after := by
  unfold enter PlacedScope.presenting
  rw [h, Step.forEach_append]
  simp only [bind_assoc]
  rfl

/-- The pass goes on from a presentation to those after it, -/
theorem passTo_append (g : Graph) (j : Nat) {m m' : Nat} (h : m ≤ m') :
    passTo g j m' = passTo g j m >>= fun _ => Step.forEach (present (g.scopeAt j).name)
      (((g.scopeAt j).sync.swapchains.take m').drop m) := by
  have htake : (g.scopeAt j).sync.swapchains.take m =
      ((g.scopeAt j).sync.swapchains.take m').take m := by
    rw [List.take_take, Nat.min_eq_left h]
  unfold passTo
  rw [htake, bind_assoc]
  refine congrArg _ (funext fun _ => ?_)
  have hsplit : ((g.scopeAt j).presenting ((g.scopeAt j).sync.swapchains.take m')).sync.swapchains =
      ((g.scopeAt j).sync.swapchains.take m').take m ++
        ((g.scopeAt j).sync.swapchains.take m').drop m := (List.take_append_drop m _).symm
  exact enter_append j (g.before j) hsplit

/-- and to the scopes behind, when there are no more. -/
theorem pass_succ_eq_passTo (g : Graph) (j : Nat)
    (h : (g.scopeAt j).sync.swapchains.length ≤ m) : pass g (j + 1) = passTo g j m := by
  rw [pass_succ, passTo, List.take_of_length_le h]
  rfl

theorem exists_pass {n : Nat} (h : (pass g n).Yields .opening () l) (hj : j ≤ n) :
    ∃ l', (pass g j).Yields .opening () l' := by
  induction hj generalizing l with
  | refl => exact ⟨l, h⟩
  | step _ ih =>
    rw [pass_succ, Step.yields_bind] at h
    obtain ⟨_, _, hbefore, -⟩ := h
    exact ih hbefore

/-- A pass that comes to its end has come to every presentation on the way. -/
theorem exists_passTo {n : Nat} (h : (pass g n).Yields .opening () l) (hj : j < n) (m : Nat) :
    ∃ l', (passTo g j m).Yields .opening () l' := by
  obtain ⟨l', hl'⟩ := exists_pass h hj
  rw [pass_succ_eq_passTo g j (Nat.le_max_right m _), passTo_append g j (Nat.le_max_left m _),
    Step.yields_bind] at hl'
  obtain ⟨_, l'', hl'', -⟩ := hl'
  exact ⟨l'', hl''⟩

/-- The pass over the scopes before a position is accounted for. -/
theorem pass_follows (hj : j ≤ g.scopes.length) :
    (pass g j).Permits .opening fun _ => Follows g j := by
  induction j with
  | zero => exact Step.permits_pure.2 (opening_follows g)
  | succ j ih =>
    rw [pass_succ, Step.permits_bind]
    exact (ih (Nat.le_of_succ_le hj)).mono fun _ _ h => h.enter hj

/-! ## The tracker of a presentation -/

/-- The first presentation takes what is left over. -/
theorem passTo_one (hi : i < g.scopes.length)
    (hpresents : (g.scopeAt i).sync.presents = true) :
    (passTo g i 1).Permits .opening fun _ l => ∃ t, l.Final (g.epoch i) t := by
  have hlength : ∀ (n : UInt32) (c : Chain),
      (Chain.require n).Permits c fun _ d => d.trackers.length = c.trackers.length := by
    intro n c _ d hd
    rcases Chain.require_permits n c () d hd with ⟨-, rfl⟩ | ⟨ts, t, u, hts, hus, -⟩
    · rfl
    · rw [hts, hus, List.length_append, List.length_append]
      rfl
  have hkept : ∀ (l : Ledger) (name : String) (swapchain : SwapchainId),
      (present name swapchain).Permits l fun _ l' =>
        l'.unwaited = 0 ∧ l'.chain.trackers.length = l.chain.trackers.length :=
    fun l name swapchain => (present_permits name swapchain l).mono fun _ _ h =>
      ⟨h.1, hlength _ _ () _ h.2⟩
  obtain ⟨swapchain, rest, hswapchains⟩ : ∃ swapchain rest,
      (g.scopeAt i).sync.swapchains = swapchain :: rest :=
    List.exists_cons_of_ne_nil (by simpa [Sync.presents] using hpresents)
  rw [passTo_append g i (Nat.zero_le 1), hswapchains, List.take_succ_cons, List.take_zero, passTo]
  simp only [Step.permits_bind]
  refine (pass_follows (Nat.le_of_lt hi)).mono fun _ l h => ?_
  -- the trackers up to the epoch of the scope are there before it presents anything
  refine (enter_permits_of (fun l => l.chain.trackers.length = g.epoch i + 1)
    ((h.openEpoch hi).mono fun _ _ h => h.1.length) (fun _ _ hsame h => hsame ▸ h)
    (fun l n h => Step.permits_zoom.2 ((hlength n l.chain).mono fun _ _ hd => hd.trans h))
    (fun l name swapchain h => (hkept l name swapchain).mono fun _ _ hd => hd.2.trans h)
    i _).mono fun _ l₁ h₁ => ?_
  refine Step.permits_bind.2 ((hkept l₁ _ swapchain).mono fun _ l₂ h₂ => Step.permits_pure.2 ?_)
  have hlast := h₂.2.trans h₁
  exact ⟨_, List.getElem?_eq_getElem (by omega), hlast, h₂.1⟩

section

variable {first : Ledger} (hfirst : (passTo g i 1).Yields .opening () first)
  (hfinal : first.Final (g.epoch i) t)
include hfirst hfinal

/-- The presentations behind the first require nothing, -/
theorem passTo_final (hm : 0 < m) :
    (passTo g i m).Permits .opening fun _ => Final (g.epoch i) t := by
  rw [passTo_append g i hm, Step.permits_bind]
  intro _ l hl
  rw [(hl.unique hfirst).2]
  exact Step.Permits.forEach _ (fun swapchain l h => h.present _ swapchain) hfinal

/-- and no scope behind requires anything of the same tracker. -/
theorem enter_closed (hi : i < g.scopes.length)
    (hpresents : (g.scopeAt i).sync.presents = true) (hij : i < j) (scope : PlacedScope) :
    (pass g j).Permits .opening fun _ l =>
      (enter j (g.before j) scope).Permits l fun _ => Closed (g.epoch i) t := by
  induction hij generalizing scope with
  | refl =>
    have hpresented : (g.before (i + 1)).any (·.sync.presents) = true := by
      rw [Graph.before, Graph.getElem?_eq_scopeAt hi, Option.any_some, hpresents]
    rw [pass_succ_eq_passTo g i (Nat.le_max_right 1 _)]
    exact (passTo_final hfirst hfinal (Nat.le_max_left 1 _)).mono
      fun _ _ h => h.enter _ hpresented scope
  | step _ ih =>
    rw [pass_succ, Step.permits_bind]
    exact (ih (g.scopeAt _)).mono fun _ _ h => h.mono fun _ _ h => h.enter _ _ scope

/-- **The requirement that a presentation has seen** stays, whatever comes after it. -/
theorem passTo_there (hi : i < g.scopes.length)
    (hpresents : (g.scopeAt i).sync.presents = true) (hlater : i < j ∨ j = i ∧ 0 < m) :
    (passTo g j m).Permits .opening fun _ l => l.chain.trackers[g.epoch i]? = some t := by
  rcases hlater with hij | ⟨rfl, hm⟩
  · exact Step.permits_bind.2 ((enter_closed hfirst hfinal hi hpresents hij _).mono
      fun _ _ h => h.mono fun _ _ h => h.there)
  · exact (passTo_final hfirst hfinal hm).mono fun _ _ h => h.there

end

/-- The tracker of a presentation is, from the first presentation of the scope on, the one that
the pass ends with. -/
theorem exists_there (h : (pass g g.scopes.length).Yields .opening () l)
    (hi : i < g.scopes.length) (hpresents : (g.scopeAt i).sync.presents = true) :
    ∃ t, l.chain.trackers[g.epoch i]? = some t ∧
      ∀ j m, j < g.scopes.length → (i < j ∨ j = i ∧ 0 < m) → ∃ l',
        (passTo g j m).Yields .opening () l' ∧ l'.chain.trackers[g.epoch i]? = some t := by
  obtain ⟨first, hfirst⟩ := exists_passTo h hi 1
  obtain ⟨t, hfinal⟩ := passTo_one hi hpresents () first hfirst
  have hthere : ∀ j m, (i < j ∨ j = i ∧ 0 < m) → (passTo g j m).Permits .opening
      fun _ l => l.chain.trackers[g.epoch i]? = some t :=
    fun _ _ hlater => passTo_there hfirst hfinal hi hpresents hlater
  refine ⟨t, ?_, fun j m hj hlater => ?_⟩
  · -- the pass ends with the last presentation of the last scope
    obtain ⟨k, hk⟩ : ∃ k, g.scopes.length = k + 1 := Nat.exists_eq_add_one_of_ne_zero (by omega)
    rw [hk, pass_succ_eq_passTo g k (Nat.le_max_right 1 _)] at h
    exact hthere k _ (by omega) () l h
  · obtain ⟨l', hl'⟩ := exists_passTo h hj m
    exact ⟨l', hl', hthere j m hlater () l' hl'⟩

end Ledger

/-! ## The plan -/

namespace Merge

variable {σ : Type} {s : σ} {g : Graph}

/-- The ledger of a walk is that of the pass over the scopes before a position. -/
def Passed (g : Graph) (i : Nat) (m : Merge) : Prop :=
  ∀ l, m.ledger? = some l → (Ledger.pass g i).Yields .opening () l

variable {i : Nat} {m : Merge}

theorem Passed.close (h : m.Passed g i) : m.close.Passed g i := by
  unfold Passed
  rwa [ledger?_close]

theorem ofScopes_pass {ts : List SitedScope} (hts : ts.map (·.toPlacedScope) = g.scopes) :
    (ofScopes ts : Step σ Merge).Permits s fun m _ => m.Passed g g.scopes.length := by
  have hinitial : (initial ts).Passed g 0 := by
    unfold initial
    split
    · rintro l ⟨⟩
      exact ⟨rfl, rfl⟩
    · rintro l ⟨⟩
  have hwalk : (ofScopes ts : Step σ Merge).Permits s fun m _ => ∃ m₁ : Merge,
      m₁.Passed g g.scopes.length ∧ m = m₁.close := by
    refine ofScopes_visits (fun i => Passed g i) (fun i m m' t hi ht h hvisited => ?_) hts hinitial
    refine (hvisited.ledger fun l hl _ l' henter => ?_).2
    rw [Ledger.pass_succ, ← ht]
    exact Step.yields_bind.2 ⟨(), l, h l hl, henter⟩
  intro m s' hm
  obtain ⟨m₁, h, rfl⟩ := hwalk m s' hm
  exact h.close

end Merge

namespace Plan

variable {σ : Type} {s : σ} {c : Config} {g : Graph} {p : Plan}

/-- What the groups of a plan signal, and what its presentations are bound to. -/
structure Binds (g : Graph) (l : Ledger) (p : Plan) : Prop where
  /-- A group captures the trackers up to that of its last scope. -/
  handle : ∀ G ∈ p.groups, G.handle? = some ⟨1 + g.epoch (G.stop - 1)⟩
  ascending : p.groups.Pairwise fun G H => ∀ a b, G.handle? = some a → H.handle? = some b →
    a.reach ≤ b.reach
  presentations : p.presentations = (List.range g.scopes.length).flatMap fun j =>
    (g.scopeAt j).sync.swapchains.map (·, g.epoch j)
  pass : (Ledger.pass g g.scopes.length).Yields .opening () l
  /-- The tracker of a scope that presents something is done with when the scope has presented
  the first of its swapchains. -/
  kept : ∀ i < g.scopes.length, (g.scopeAt i).sync.presents = true →
    ∃ t, l.chain.trackers[g.epoch i]? = some t ∧
      ∀ j m, j < g.scopes.length → (i < j ∨ j = i ∧ 0 < m) → ∃ l',
        (Ledger.passTo g j m).Yields .opening () l' ∧ l'.chain.trackers[g.epoch i]? = some t

theorem Tracked.binds {l : Ledger} (tracked : p.Tracked g l.chain)
    (hpass : (Ledger.pass g g.scopes.length).Yields .opening () l) : p.Binds g l where
  handle G hG := by rw [tracked.handle G hG, Nat.add_comm]
  ascending := by
    have hpairs := List.pairwise_map.1 tracked.tile.pairwise
    refine hpairs.imp_of_mem fun {G H} hG hH hbefore a b ha hb => ?_
    cases (tracked.handle G hG).symm.trans ha
    cases (tracked.handle H hH).symm.trans hb
    have hspan : G.stop ≤ H.start := hbefore
    obtain ⟨-, hlt, -⟩ := tracked.tile.bounds (List.mem_map_of_mem hH)
    have hlt : H.start < H.stop := hlt
    exact Nat.succ_le_succ (Graph.epoch_mono (by omega))
  presentations := tracked.presentations
  pass := hpass
  kept _ hi hpresents := Ledger.exists_there hpass hi hpresents

/-- **Handles and bindings.**  Whenever a merging plan tracks presentations, each group captures
one tracker more than there are presenting scopes before its last one; each presentation, in the
order of the scopes, is bound to the tracker behind those of the presenting scopes before its
own; and once bound a tracker stays as it is to the end of the pass.  There is such a plan if the
graph is built, its totals are words, and the device of its first scope tracks presentations. -/
theorem ofGraph_binds (c : Config) (g : Graph) (s : σ) :
    ((ofGraph c .parallel g : Step σ Plan).Permits s fun p _ =>
      ∀ planned, p.chain? = some planned →
        ∃ l, c.ledger? g = some l ∧ l.chain = planned ∧ p.Binds g l) ∧
      (g.Built → g.Countable → c.check = .ok () → c.Covers g → c.Tracks g →
        ∃ p planned, ((ofGraph c .parallel g : Step σ Plan).run s).result = .ok p ∧
          p.chain? = some planned) := by
  constructor
  · intro p s' hp planned hplanned
    have htracked := ofGraph_tracked .parallel g p s' hp planned hplanned
    obtain ⟨ts, m, hts, hscopes, hm, hp⟩ := ofGraph_walks g p s' hp
    rw [(of_ofDrafts hp).2.2.1] at hplanned
    obtain ⟨l, hl, rfl⟩ := Option.map_eq_some_iff.1 hplanned
    have hpass := Merge.ofScopes_pass hscopes m s' hm l hl
    exact ⟨l, (Merge.ledger?_of_yields hts hm).trans hl, rfl, htracked.binds hpass⟩
  · intro built countable checked covers tracks
    obtain ⟨p, s', hp, -⟩ := ofGraph_parallel (s := s) built countable checked covers
    obtain ⟨planned, hplanned⟩ := ofGraph_tracks tracks p s' hp
    exact ⟨p, planned, hp.1, hplanned⟩

end Plan

/-- A scope that presents one swapchain twice, and one behind it that presents another. -/
def Graph.twice : Graph :=
  ((addAll [
    { name := "a", sync := { signalFences := [⟨1⟩], swapchains := [⟨7⟩, ⟨7⟩] } },
    { name := "b" },
    { name := "c", sync := { swapchains := [⟨8⟩] } }]).run {}).state

theorem Plan.ofGraph_binds_twice :
    ∃ p l, ((ofGraph .plain .parallel .twice : Step Unit Plan).run ()).result = .ok p ∧
      p.chain? = some l.chain ∧ p.Binds .twice l ∧
        p.presentations = [(⟨7⟩, 0), (⟨7⟩, 0), (⟨8⟩, 1)] := by
  have built : Graph.twice.Built := Graph.Built.empty.addAll _ () _ ⟨rfl, rfl⟩
  obtain ⟨hbinds, hreturns⟩ := ofGraph_binds .plain .twice ()
  obtain ⟨p, planned, hp, hplanned⟩ := hreturns built ⟨by decide, by decide, by decide⟩ rfl
    (by unfold Config.Covers; decide) rfl
  obtain ⟨l, -, rfl, hbound⟩ := hbinds p () ⟨hp, rfl⟩ planned hplanned
  refine ⟨p, l, hp, hplanned, hbound, ?_⟩
  rw [hbound.presentations]
  decide +kernel

end FrameSchedule
