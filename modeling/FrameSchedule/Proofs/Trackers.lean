import FrameSchedule.Proofs.Frames
import FrameSchedule.Proofs.Ledgers
import FrameSchedule.Proofs.Visits

/-!
# The trackers of a plan

The walk over a frame keeps its drafts tiled and gives each of them the handle of the
epoch of its last scope (`Merge.Entered`).  So in a plan with trackers the signals of a
group are what its scopes account for, and a tracker requires what all scopes of the
epochs up to its own account for (`Plan.Tracked`).  Nothing is assumed of the graph or of
its totals: a plan exists only if every sum on the way is a word.
-/

namespace FrameSchedule

/-! ## The walk -/

namespace Merge

variable {g : Graph} {i : Nat} {m m' : Merge} {t : SitedScope}

/-- The drafts cut the positions before the gathering, the gathering holds the scopes from
there up to position `i`, and with a ledger every draft has the handle of its epoch. -/
structure Entered (g : Graph) (i : Nat) (m : Merge) : Prop where
  tile : Span.Tile 0 (m.gathering?.elim i (·.start)) (m.drafts.map Draft.span)
  slices : ∀ d ∈ m.drafts, d.members = g.slice d.span.start d.span.stop
  gathered : ∀ q, m.gathering? = some q → q.start < i ∧ q.members = g.slice q.start i
  handles : m.ledger?.isSome → ∀ d ∈ m.drafts,
    d.handle? = some ⟨g.epoch (d.span.stop - 1) + 1⟩

/-- The ledger has the scopes before position `i`. -/
def Booked (g : Graph) (i : Nat) (m : Merge) : Prop :=
  ∀ l, m.ledger? = some l → l.Follows g i

/-- The handle of a walk is that of the epoch of the last scope in the ledger. -/
theorem Booked.handle (h : m.Booked g i) (hsome : m.ledger?.isSome) :
    m.handle? = some ⟨g.epoch (i - 1) + 1⟩ := by
  obtain ⟨l, hl⟩ := Option.isSome_iff_exists.1 hsome
  have hreach := (h l hl).demands.reach
  rw [handle?, hl, Option.map_some, ← hreach]

theorem Booked.close (h : m.Booked g i) : m.close.Booked g i := by
  unfold Booked
  rw [ledger?_close]
  exact h

theorem Entered.close (h : m.Entered g i) (hbooked : m.Booked g i) (hi : i ≤ g.scopes.length) :
    m.close.Entered g i := by
  cases hq : m.gathering? with
  | none =>
    rw [close_of_none hq]
    exact h
  | some q =>
    obtain ⟨hlt, hmembers⟩ := h.gathered q hq
    have htile := h.tile
    rw [hq, Option.elim_some] at htile
    have hspan : Draft.span ⟨.primary, q.start, q.members, m.handle?⟩ = ⟨q.start, i⟩ := by
      rw [Draft.span, hmembers, Graph.length_slice hi, Nat.add_sub_cancel' (Nat.le_of_lt hlt)]
    rw [close_of_some hq]
    refine ⟨?_, ?_, by simp, fun hsome => ?_⟩
    · rw [List.map_append, List.map_singleton, hspan]
      exact htile.concat hlt
    · refine forall_mem_concat.2 ⟨h.slices, ?_⟩
      rw [hspan]
      exact hmembers
    · refine forall_mem_concat.2 ⟨h.handles hsome, ?_⟩
      rw [hspan]
      exact hbooked.handle hsome

/-- An entry into the ledger is all that `enter` does. -/
theorem Booked.enter (h : m.Booked g i) (hi : i < g.scopes.length) :
    (Merge.enter i (g.before i) (g.scopeAt i)).Permits m fun _ m' =>
      (∃ ledger?, m' = { m with ledger? := ledger? } ∧ ledger?.isSome = m.ledger?.isSome) ∧
        m'.Booked g (i + 1) :=
  enter_permits_of fun l hl => (h l hl).enter hi

theorem Entered.enter (h : m.Entered g i) (hbooked : m.Booked g i) (hi : i < g.scopes.length) :
    (Merge.enter i (g.before i) (g.scopeAt i)).Permits m fun _ m' =>
      m'.Entered g i ∧ m'.Booked g (i + 1) ∧ m'.gathering? = m.gathering? := by
  intro _ m' henter
  obtain ⟨⟨ledger?, rfl, hsome⟩, hbooked'⟩ := hbooked.enter hi () m' henter
  exact ⟨{ h with handles := fun hsome' => h.handles (hsome ▸ hsome') }, hbooked', rfl⟩

/-- A scope set apart is a draft of its own. -/
theorem Entered.pushSplit (h : m.Entered g i) (hbooked : m.Booked g (i + 1))
    (hi : i < g.scopes.length) (hnone : m.gathering? = none) (lists : UInt32) :
    (m.pushSplit i (g.scopeAt i) lists).Entered g (i + 1) := by
  have htile := h.tile
  rw [hnone, Option.elim_none] at htile
  unfold Merge.pushSplit
  constructor
  · rw [hnone, Option.elim_none, List.map_append, List.map_singleton]
    exact htile.concat (Nat.lt_succ_self i)
  · exact forall_mem_concat.2 ⟨h.slices, (Graph.slice_single hi).symm⟩
  · intro q hq
    rw [hnone] at hq
    cases hq
  · intro hsome
    exact forall_mem_concat.2 ⟨h.handles hsome, hbooked.handle hsome⟩

/-- A gathering takes in the next scope. -/
theorem Entered.gather (h : m.Entered g i) {q : Gathering}
    (hstart : q.start = m.gathering?.elim i (·.start)) (hle : q.start ≤ i)
    (hmembers : q.members = g.slice q.start (i + 1)) :
    Entered g (i + 1) { m with gathering? := some q } := by
  constructor
  · rw [Option.elim_some, hstart]
    exact h.tile
  · exact h.slices
  · intro q' hq'
    cases hq'
    exact ⟨Nat.lt_succ_of_le hle, hmembers⟩
  · exact h.handles

/-- **One scope of the walk.** -/
theorem Entered.visit (h : m.Entered g i) (hbooked : m.Booked g i) (hi : i < g.scopes.length)
    (ht : t.toPlacedScope = g.scopeAt i) {next? : Option PlacedScope}
    (hvisited : Visited i (g.before i) next? t m m') :
    m'.Entered g (i + 1) ∧ m'.Booked g (i + 1) := by
  have hclosed := h.close hbooked (Nat.le_of_lt hi)
  have hbooked₀ := hbooked.close
  have hnone := gathering?_close m
  cases hvisited with
  | apart lists henter =>
    rw [ht] at henter ⊢
    obtain ⟨hentered, hbooked', hsame⟩ := hclosed.enter hbooked₀ hi () _ henter
    exact ⟨hentered.pushSplit hbooked' hi (hsame.trans hnone) lists, hbooked'⟩
  | first cost swapchains henter _ =>
    rw [ht] at henter
    obtain ⟨hentered, hbooked', hsame⟩ := hclosed.enter hbooked₀ hi () _ henter
    refine ⟨hentered.gather ?_ (Nat.le_refl i) ?_, hbooked'⟩
    · rw [hsame, hnone, Option.elim_none]
    · rw [ht, Graph.slice_single hi]
  | @join _ cost swapchains q henter hq =>
    rw [ht] at henter
    obtain ⟨hentered, hbooked', hsame⟩ := h.enter hbooked hi () _ henter
    obtain ⟨hlt, hmembers⟩ := h.gathered q hq
    refine ⟨hentered.gather ?_ (Nat.le_of_lt hlt) ?_, hbooked'⟩
    · rw [hsame, hq, Option.elim_some]
    · rw [ht, hmembers, Graph.slice_succ (Nat.le_of_lt hlt) hi]

/-- **The walk over a frame.** -/
theorem ofScopes_permits {σ : Type} {s : σ} {ts : List SitedScope}
    (hts : ts.map (·.toPlacedScope) = g.scopes) :
    (ofScopes ts : Step σ Merge).Permits s fun m _ => m.Entered g g.scopes.length ∧
      m.gathering? = none ∧ m.Booked g g.scopes.length := by
  have hentered : (initial ts).Entered g 0 := by
    unfold initial
    split <;> exact ⟨rfl, by simp, by simp, by simp⟩
  have hbooked : (initial ts).Booked g 0 := by
    unfold initial
    split
    · intro l hl
      cases hl
      exact Ledger.opening_follows g
    · intro l hl
      cases hl
  have hwalk : (ofScopes ts : Step σ Merge).Permits s fun m _ => ∃ m₁ : Merge,
      (m₁.Entered g g.scopes.length ∧ m₁.Booked g g.scopes.length) ∧ m = m₁.close :=
    ofScopes_visits (fun i m => m.Entered g i ∧ m.Booked g i)
      (fun _ _ _ _ hi ht h => h.1.visit h.2 hi ht) hts ⟨hentered, hbooked⟩
  intro m s' hm
  obtain ⟨m₁, ⟨h, hbooked⟩, rfl⟩ := hwalk m s' hm
  exact ⟨h.close hbooked (Nat.le_refl _), gathering?_close m₁, hbooked.close⟩

end Merge

/-! ## Accounts of slices -/

/-- Entries of a list are counted position by position. -/
theorem countP_eq_sum_count {n : Nat} {q : Nat → Prop} [DecidablePred q] {cs : List Nat}
    (h : ∀ c ∈ cs, c < n) :
    cs.countP q = ∑ j ∈ Finset.range n, if q j then cs.count j else 0 := by
  induction cs with
  | nil => simp
  | cons c cs ih =>
    have hsplit : ∀ j, (if q j then (c :: cs).count j else 0) =
        (if q j then cs.count j else 0) + if c = j then (if q c then 1 else 0) else 0 := by
      intro j
      by_cases hj : c = j
      · subst hj
        by_cases hc : q c <;> simp [hc]
      · simp [hj]
    rw [Finset.sum_congr rfl fun j _ => hsplit j, Finset.sum_add_distrib, Finset.sum_ite_eq,
      if_pos (Finset.mem_range.2 (h c List.mem_cons_self)),
      ← ih fun c' hc' => h c' (List.mem_cons_of_mem c hc'), List.countP_cons]
    simp

/-- A sum over the scopes of a slice and their positions. -/
theorem Graph.sum_slice {g : Graph} {a b : Nat} (measure : PlacedScope × Nat → Nat)
    (hab : a ≤ b) (hb : b ≤ g.scopes.length) :
    (((g.slice a b).zipIdx a).map measure).sum =
      ∑ j ∈ Finset.Ico a b, measure (g.scopeAt j, j) := by
  induction b, hab using Nat.le_induction with
  | base => simp [slice]
  | succ b hab ih =>
    have hlt : b < g.scopes.length := hb
    rw [slice_succ hab hlt, List.zipIdx_append, List.map_append, List.sum_append,
      ih (Nat.le_of_lt hlt), length_slice (Nat.le_of_lt hlt), Nat.add_sub_cancel' hab,
      Finset.sum_Ico_succ_top hab]
    simp

namespace Ledger

variable {g : Graph} {l : Ledger}

/-- At the end of the frame the scopes are credited with what they leave over. -/
theorem Follows.count_credits (h : l.Follows g g.scopes.length) {j : Nat}
    (hj : j < g.scopes.length) : l.credits.count j = (g.leftBy j).card := by
  rw [h.credits]
  split
  · rfl
  · rename_i hlate
    rw [Graph.leftBy_eq_empty (Nat.le_of_not_lt fun hlt => hlate ⟨hj, hlt⟩), Finset.card_empty]

/-- At the end of the frame every tracker requires what the scopes of the epochs up to its
own account for. -/
theorem Follows.required (h : l.Follows g g.scopes.length) {k : Nat} {t : Tracker}
    (ht : l.chain.trackers[k]? = some t) :
    t.required.toNat = g.sumThrough g.account g.scopes.length k := by
  have hcredited : ∀ c ∈ l.credits, c < g.scopes.length := by
    intro c hc
    have hpos := List.count_pos_iff.2 hc
    rw [h.credits] at hpos
    by_contra hge
    rw [if_neg fun hboth => hge hboth.1] at hpos
    exact Nat.lt_irrefl 0 hpos
  rw [h.demands.asks.each k t ht, countP_eq_sum_count hcredited, Graph.sumThrough,
    Graph.sumThrough, ← Finset.sum_add_distrib]
  refine Finset.sum_congr rfl fun j hj => ?_
  rw [h.count_credits (Finset.mem_range.1 hj), Graph.account]
  split <;> rfl

/-- The signals of a row of scopes are what the scopes account for. -/
theorem Follows.accounts (h : l.Follows g g.scopes.length) {a b : Nat} {w : UInt32}
    (hab : a ≤ b) (hb : b ≤ g.scopes.length) (hw : l.accounts a (g.slice a b) = .ok w) :
    w.toNat = ∑ j ∈ Finset.Ico a b, g.account j := by
  unfold Ledger.accounts at hw
  cases hws : ((g.slice a b).zipIdx a).mapM fun m => l.account m.2 m.1 with
  | error fault => rw [hws] at hw; cases hw
  | ok ws =>
    rw [hws] at hw
    have hmap : ((g.slice a b).zipIdx a).map (fun m =>
        m.1.sync.waitCount.toNat + l.credits.count m.2) = ws.map (·.toNat) := by
      refine map_eq_of_forall₂ (mapM_eq_ok_iff.1 hws) fun m v hv => ?_
      unfold account at hv
      cases hn : Count.ofNat (l.credits.count m.2) with
      | error fault => rw [hn] at hv; cases hv
      | ok n =>
        rw [hn] at hv
        rw [Count.add_eq_ok_iff.1 hv, Count.ofNat_eq_ok_iff.1 hn]
    rw [Count.sum_eq_ok_iff.1 hw, Count.total_eq_sum, ← hmap, Graph.sum_slice _ hab hb]
    refine Finset.sum_congr rfl fun j hj => ?_
    have hlt := (Finset.mem_Ico.1 hj).2
    simp only
    rw [h.count_credits (by omega), Graph.account, Graph.waitsOf]

end Ledger

/-! ## The plan -/

namespace Plan

/-- The groups tile the frame, and have the handle of their last scope's epoch and the
signals that their scopes account for; the trackers `planned` require what the epochs up
to each account for. -/
structure Tracked (g : Graph) (planned : Chain) (p : Plan) : Prop where
  tile : Span.Tile 0 g.scopes.length (p.groups.map Group.span)
  handle : ∀ G ∈ p.groups, G.handle? = some ⟨g.epoch (G.stop - 1) + 1⟩
  signals : ∀ G ∈ p.groups, G.signals.toNat = ∑ j ∈ Finset.Ico G.start G.stop, g.account j
  length : planned.trackers.length = g.epoch (g.scopes.length - 1) + 1
  required : ∀ (k : Nat) (t : Tracker), planned.trackers[k]? = some t →
    t.required.toNat = g.sumThrough g.account g.scopes.length k
  presentations : p.presentations = (List.range g.scopes.length).flatMap fun j =>
    (g.scopeAt j).sync.swapchains.map (·, g.epoch j)

variable {g : Graph} {job : JobPolicy} {ledger? : Option Ledger} {drafts : List Draft} {p : Plan}
  {c : Config}

/-- What the walk has entered, a plan with trackers shows. -/
theorem tracked_of_ofDrafts {m : Merge} (hentered : m.Entered g g.scopes.length)
    (hempty : m.gathering? = none) (hbooked : m.Booked g g.scopes.length)
    (hp : ofDrafts job m.ledger? m.drafts = .ok p) {planned : Chain}
    (hplanned : p.chain? = some planned) : p.Tracked g planned := by
  obtain ⟨hgroups, -, hchain, hpresentations⟩ := of_ofDrafts hp
  have follows := groupsOf_follows hgroups
  rw [hchain] at hplanned
  obtain ⟨l, hl, rfl⟩ := Option.map_eq_some_iff.1 hplanned
  have hfollows := hbooked l hl
  have htile := hentered.tile
  rw [hempty, Option.elim_none, ← map_span follows] at htile
  have hdraft : ∀ G ∈ p.groups, ∃ d ∈ m.drafts, (∃ k, Group.Follows m.ledger? (d, k) G) ∧
      G.start = d.span.start ∧ G.stop = d.span.stop := by
    intro G hG
    obtain ⟨d, hd, k, hfollow⟩ := exists_draft follows hG
    refine ⟨d, hd, ⟨k, hfollow⟩, hfollow.start, ?_⟩
    rw [Group.stop, hfollow.start, hfollow.members, Draft.span]
  refine ⟨htile, fun G hG => ?_, fun G hG => ?_, hfollows.demands.length,
    fun k t ht => hfollows.required ht, ?_⟩
  · obtain ⟨d, hd, ⟨k, hfollow⟩, -, hstop⟩ := hdraft G hG
    rw [hfollow.handle, hstop]
    exact hentered.handles (by rw [hl]; rfl) d hd
  · obtain ⟨d, hd, ⟨k, hfollow⟩, hstart, hstop⟩ := hdraft G hG
    have hsignals := hfollow.signals
    obtain ⟨-, hlt, hle⟩ := htile.bounds (List.mem_map_of_mem hG)
    rw [hl, signalsOf, hentered.slices d hd, ← hstop, ← hstart, ← hfollow.start] at hsignals
    exact hfollows.accounts (Nat.le_of_lt hlt) hle hsignals
  · rw [hpresentations, hl]
    exact hfollows.presentations

/-- **The trackers of a plan** are those of the graph. -/
theorem ofGraph_tracked {σ : Type} {s : σ} (policy : SchedulePolicy) (g : Graph) :
    (ofGraph c policy g : Step σ Plan).Permits s fun p _ =>
      ∀ planned, p.chain? = some planned → p.Tracked g planned := by
  cases policy with
  | parallel =>
    refine (ofGraph_walks g).mono fun p s' hp planned hplanned => ?_
    obtain ⟨ts, m, -, hscopes, hm, hp⟩ := hp
    obtain ⟨hentered, hempty, hbooked⟩ := Merge.ofScopes_permits hscopes m s' hm
    exact tracked_of_ofDrafts hentered hempty hbooked hp hplanned
  | lockstep =>
    refine (ofGraph_lockstep g).mono fun p _ hp planned hplanned => ?_
    rw [(of_ofDrafts hp.2).2.2.1] at hplanned
    cases hplanned

end Plan

/-- The plan of an open frame. -/
theorem Scheduler.start_tracked {σ Λ : Type} (graph : Graph) (s : Scheduler σ Λ) :
    (start graph).Permits s fun p _ =>
      ∀ planned, p.chain? = some planned → p.Tracked graph planned :=
  start_permits_of fun _ => Plan.ofGraph_tracked s.policy graph

end FrameSchedule
