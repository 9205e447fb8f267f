import FrameSchedule.Proofs.Releases

/-!
# Which scopes share a batch

A scope of the walk is set apart, starts a gathering, or joins one (`Merge.Visited`).  It
joins only where no rule forbids it, so the scopes of a primary group are no subpasses, run
where the first one runs, and wait for nothing behind the first one (`Graph.Alike`).

Several groups share a handler only as the subpasses of one render pass: each of them is one
scope, and these scopes have one group number (`Plan.Laid.group_eq`).  Whatever else shares
a batch is of one primary group.  So a scope that waits never shares a batch with an earlier
scope of another group number (`Plan.Laid.lt_of_waits`), and a batch runs where the first
scope with the group number of any of its scopes asked to (`Plan.Laid.first_site`).
-/

namespace FrameSchedule

/-! ## Scopes of one gathering -/

namespace Graph

variable {g : Graph} {i : Nat}

/-- The scopes of a span are no subpasses, run on one queue of one device, and wait and
signal only at its ends. -/
structure Alike (g : Graph) (a b : Nat) : Prop where
  apart : ∀ i, a ≤ i → i < b → ¬ g.Subpass i
  queue : ∀ i, a ≤ i → i < b → (g.scopeAt i).queue = (g.scopeAt a).queue
  device : ∀ i, a ≤ i → i < b → (g.scopeAt i).device = (g.scopeAt a).device
  waits : ∀ i, a < i → i < b → (g.scopeAt i).sync.hasWaits = false
  signals : ∀ i, a ≤ i → i + 1 < b → (g.scopeAt i).sync.hasSignals = false

theorem alike_single (h : ¬ g.Subpass i) : g.Alike i (i + 1) where
  apart j hj hlt := (Nat.le_antisymm hj (Nat.le_of_lt_succ hlt)) ▸ h
  queue j hj hlt := by rw [Nat.le_antisymm hj (Nat.le_of_lt_succ hlt)]
  device j hj hlt := by rw [Nat.le_antisymm hj (Nat.le_of_lt_succ hlt)]
  waits j hj hlt := by omega
  signals j hj hlt := by omega

/-- The scope at `i` is like those from `a` on. -/
theorem Alike.succ {a : Nat} (h : g.Alike a i) (ha : a < i) (hsubpass : ¬ g.Subpass i)
    (hqueue : (g.scopeAt i).queue = (g.scopeAt a).queue)
    (hdevice : (g.scopeAt i).device = (g.scopeAt a).device)
    (hwaits : (g.scopeAt i).sync.hasWaits = false)
    (hsignals : (g.scopeAt (i - 1)).sync.hasSignals = false) : g.Alike a (i + 1) := by
  have hsplit : ∀ j, j < i + 1 → j < i ∨ j = i := fun j hj => Nat.lt_succ_iff_lt_or_eq.1 hj
  constructor
  · intro j hj hlt
    rcases hsplit j hlt with hlt | rfl
    · exact h.apart j hj hlt
    · exact hsubpass
  · intro j hj hlt
    rcases hsplit j hlt with hlt | rfl
    · exact h.queue j hj hlt
    · exact hqueue
  · intro j hj hlt
    rcases hsplit j hlt with hlt | rfl
    · exact h.device j hj hlt
    · exact hdevice
  · intro j hj hlt
    rcases hsplit j hlt with hlt | rfl
    · exact h.waits j hj hlt
    · exact hwaits
  · intro j hj hlt
    rcases hsplit (j + 1) hlt with hlt | rfl
    · exact h.signals j hj hlt
    · exact hsignals

/-- Scopes of one number are subpasses. -/
theorem Built.subpass (built : g.Built) {j : Nat} (hi : i < g.scopes.length)
    (hj : j < g.scopes.length) (hne : i ≠ j)
    (hgroup : (g.scopeAt i).group = (g.scopeAt j).group) : g.Subpass i := by
  have hget : ∀ k < g.scopes.length, (g.scopes.map (·.group))[k]? =
      some (g.scopeAt k).group := by
    intro k hk
    rw [List.getElem?_map, getElem?_eq_scopeAt hk, Option.map_some]
  have hget' := hget j hj
  rw [← hgroup] at hget'
  rcases Nat.lt_or_gt_of_ne hne with hlt | hgt
  · refine ⟨i + 1, .inr rfl, Nat.lt_of_le_of_lt hlt hj, ?_⟩
    rcases Nat.lt_or_eq_of_le hlt with hbetween | rfl
    · exact (built.contiguous.eq_of_getElem? (Nat.lt_succ_self i) hbetween (hget i hi)
        (hget _ (Nat.lt_trans hbetween hj)) hget').symm
    · exact hgroup.symm
  · refine ⟨i - 1, .inl (Nat.sub_add_cancel (Nat.one_le_of_lt hgt)), by omega, ?_⟩
    rcases Nat.lt_or_eq_of_le (Nat.le_sub_one_of_lt hgt) with hbetween | rfl
    · exact (built.contiguous.eq_of_getElem? hbetween (by omega) hget'
        (hget _ (by omega)) (hget i hi)).symm
    · exact hgroup.symm

end Graph

/-! ## The walk -/

namespace Merge

variable {g : Graph} {i : Nat} {m m' : Merge} {t : SitedScope}

/-- The drafts of a walk that are primary, and its gathering, hold scopes that are alike. -/
structure Sorted (g : Graph) (i : Nat) (m : Merge) : Prop where
  drafts : ∀ d ∈ m.drafts, d.kind.level = .primary → g.Alike d.span.start d.span.stop
  gathered : ∀ q, m.gathering? = some q → q.start < i ∧ q.members.length = i - q.start ∧
    q.queue = (g.scopeAt q.start).queue ∧ q.device = (g.scopeAt q.start).device ∧
      g.Alike q.start i

theorem Sorted.close (h : m.Sorted g i) :
    ∀ d ∈ m.close.drafts, d.kind.level = .primary → g.Alike d.span.start d.span.stop := by
  unfold Merge.close
  split
  · exact h.drafts
  · rename_i q hq
    obtain ⟨hlt, hlength, -, -, halike⟩ := h.gathered q hq
    apply forall_mem_concat.2 ⟨h.drafts, fun _ => ?_⟩
    rw [Draft.span, hlength, Nat.add_sub_cancel' (Nat.le_of_lt hlt)]
    exact halike

/-- **One scope of the walk.** -/
theorem Sorted.visit (h : m.Sorted g i) (hi : i < g.scopes.length)
    (ht : t.toPlacedScope = g.scopeAt i)
    (hvisited : Visited i (g.before i) g.scopes[i + 1]? t m m') : m'.Sorted g (i + 1) := by
  have hnot : t.inSubpass (g.before i) g.scopes[i + 1]? = false → ¬ g.Subpass i := by
    intro hsubpass hshared
    rw [ht, (Graph.inSubpass_iff hi).2 hshared] at hsubpass
    cases hsubpass
  cases hvisited with
  | apart lists henter =>
    obtain ⟨ledger?, rfl⟩ := enter_permits _ _ _ _ () _ henter
    constructor
    · exact forall_mem_concat.2 ⟨h.close, fun hlevel => by cases hlevel⟩
    · intro q hq
      have hnone := gathering?_close m
      simp only [pushSplit, hnone] at hq
      cases hq
  | first cost swapchains henter hsubpass =>
    obtain ⟨ledger?, rfl⟩ := enter_permits _ _ _ _ () _ henter
    constructor
    · exact h.close
    · intro q hq
      cases hq
      have hqueue : t.queue = (g.scopeAt i).queue := by rw [ht]
      have hdevice : t.device = (g.scopeAt i).device := by rw [ht]
      exact ⟨Nat.lt_succ_self i, by simp, hqueue, hdevice, Graph.alike_single (hnot hsubpass)⟩
  | @join _ cost swapchains q henter hq hsubpass hqueue hdevice hwaits hsignals =>
    obtain ⟨ledger?, rfl⟩ := enter_permits _ _ _ _ () _ henter
    obtain ⟨hlt, hlength, hqueue₀, hdevice₀, halike⟩ := h.gathered q hq
    constructor
    · exact h.drafts
    · intro q' hq'
      cases hq'
      rw [ht] at hqueue hdevice hwaits
      have hbefore : (g.scopeAt (i - 1)).sync.hasSignals = false := by
        rw [Graph.before_eq (Nat.zero_lt_of_lt hlt) (Nat.le_of_lt hi)] at hsignals
        exact hsignals
      refine ⟨Nat.lt_succ_of_lt hlt, ?_, hqueue₀, hdevice₀, halike.succ hlt (hnot hsubpass)
        (hqueue.symm.trans hqueue₀) (hdevice.symm.trans hdevice₀) hwaits hbefore⟩
      rw [List.length_append, hlength, List.length_singleton]
      exact (Nat.succ_sub (Nat.le_of_lt hlt)).symm

/-- **The walk over a frame.** -/
theorem ofScopes_sorted {σ : Type} {s : σ} {ts : List SitedScope}
    (hts : ts.map (·.toPlacedScope) = g.scopes) :
    (ofScopes ts : Step σ Merge).Permits s fun m _ =>
      ∀ d ∈ m.drafts, d.kind.level = .primary → g.Alike d.span.start d.span.stop := by
  have hsorted : (initial ts).Sorted g 0 := by
    unfold initial
    split <;> exact ⟨by simp, by simp⟩
  have hwalk : (ofScopes ts : Step σ Merge).Permits s fun m _ =>
      ∃ m₁ : Merge, m₁.Sorted g g.scopes.length ∧ m = m₁.close :=
    ofScopes_visits (Sorted g) (fun _ _ _ _ hi ht h => h.visit hi ht) hts hsorted
  intro m s' hm
  obtain ⟨m₁, h, rfl⟩ := hwalk m s' hm
  exact h.close

end Merge

/-- Walked in lockstep, a scope is a primary draft if it is no subpass. -/
theorem lockstep_sorted {g : Graph} {i : Nat} {ss : List PlacedScope}
    (hss : g.scopes.drop i = ss) :
    ∀ d ∈ lockstep i (g.before i) ss, d.kind.level = .primary →
      g.Alike d.span.start d.span.stop := by
  induction ss generalizing i with
  | nil =>
    intro d hd
    cases hd
  | cons s ss ih =>
    obtain ⟨hlt, hs, hbefore, hdrop⟩ := Graph.of_scopes_drop hss
    have hnext : ss.head? = g.scopes[i + 1]? := by rw [← hdrop, List.head?_drop]
    unfold lockstep
    rw [← hbefore, hnext, ← hs]
    intro d hd hlevel
    rcases List.mem_cons.1 hd with rfl | hd
    · apply Graph.alike_single
      intro hshared
      simp only [if_pos ((Graph.inSubpass_iff hlt).2 hshared)] at hlevel
      cases hlevel
    · exact ih hdrop d hd hlevel

/-! ## The plan -/

namespace Plan

/-- How the groups of a plan lie on its frame: they cut it into parts, are numbered and
placed by their first scopes, and hold scopes that are alike unless they are split. -/
structure Laid (g : Graph) (p : Plan) : Prop where
  tile : Span.Tile 0 g.scopes.length (p.groups.map Group.span)
  members : ∀ G ∈ p.groups, G.members = g.slice G.start G.stop
  id : ∀ G ∈ p.groups, G.id = (g.scopeAt G.start).group
  queue : ∀ G ∈ p.groups, G.queue = (g.scopeAt G.start).queue
  device : ∀ G ∈ p.groups, G.device = (g.scopeAt G.start).device
  alike : ∀ G ∈ p.groups, G.level = .primary → g.Alike G.start G.stop

variable {g : Graph} {job : JobPolicy} {ledger? : Option Ledger} {drafts : List Draft} {p : Plan}
  {c : Config}

/-- The first scope of a group says where it runs. -/
theorem head_of_groupsOf {groups : List Group} (h : groupsOf job ledger? drafts = .ok groups)
    {G : Group} (hG : G ∈ groups) :
    ∃ s, G.members.head? = some s ∧ G.id = s.group ∧ G.queue = s.queue ∧ G.device = s.device := by
  obtain ⟨d, -, hd⟩ := exists_of_mem_forall₂ (mapM_eq_ok_iff.1 h) hG
  cases hsignals : signalsOf ledger? d.1 with
  | error fault => simp [hsignals, bind, Except.bind] at hd
  | ok signals =>
    simp only [hsignals, bind, Except.bind, Group.ofDraft] at hd
    split at hd
    · cases hd
    · rename_i first others hmembers
      split at hd
      · cases hd
      · split at hd
        · cases hd
        · cases hd
          exact ⟨first, by rw [hmembers, List.head?_cons], rfl, rfl, rfl⟩

theorem laid_of_ofDrafts (hp : ofDrafts job ledger? drafts = .ok p)
    (tile : Span.Tile 0 g.scopes.length (drafts.map Draft.span))
    (slices : ∀ d ∈ drafts, d.members = g.slice d.span.start d.span.stop)
    (alike : ∀ d ∈ drafts, d.kind.level = .primary → g.Alike d.span.start d.span.stop) :
    p.Laid g := by
  have hgroups := (of_ofDrafts hp).1
  have follows := groupsOf_follows hgroups
  rw [← map_span follows] at tile
  have hdraft : ∀ G ∈ p.groups, ∃ d ∈ drafts, d.span = G.span ∧ d.members = G.members ∧
      d.kind = G.kind := by
    intro G hG
    obtain ⟨d, hd, k, hfollow⟩ := exists_draft follows hG
    refine ⟨d, hd, ?_, hfollow.members.symm, hfollow.kind.symm⟩
    rw [Group.span, Group.stop, hfollow.start, hfollow.members, Draft.span]
  have hmembers : ∀ G ∈ p.groups, G.members = g.slice G.start G.stop := by
    intro G hG
    obtain ⟨d, hd, hspan, hsame, -⟩ := hdraft G hG
    rw [← hsame, slices d hd, hspan, Group.span]
  have hfirst : ∀ G ∈ p.groups, G.id = (g.scopeAt G.start).group ∧
      G.queue = (g.scopeAt G.start).queue ∧ G.device = (g.scopeAt G.start).device := by
    intro G hG
    obtain ⟨s, hs, hhead⟩ := head_of_groupsOf hgroups hG
    obtain ⟨-, hlt, hle⟩ := tile.bounds (List.mem_map_of_mem hG)
    have hscope : g.scopeAt G.start = s := by
      apply Graph.scopeAt_eq
      rw [hmembers G hG, Graph.slice, List.head?_take, List.head?_drop] at hs
      split at hs
      · cases hs
      · exact hs
    rw [hscope]
    exact hhead
  constructor
  · exact tile
  · exact hmembers
  · exact fun G hG => (hfirst G hG).1
  · exact fun G hG => (hfirst G hG).2.1
  · exact fun G hG => (hfirst G hG).2.2
  · intro G hG hlevel
    obtain ⟨d, hd, hspan, -, hkind⟩ := hdraft G hG
    have halike := alike d hd (by rw [hkind]; exact hlevel)
    rw [hspan] at halike
    exact halike

/-- **The plan of a frame** is laid on it, under either policy. -/
theorem ofGraph_laid {σ : Type} {s : σ} (policy : SchedulePolicy) (g : Graph) :
    (ofGraph c policy g : Step σ Plan).Permits s fun p _ => p.Laid g := by
  cases policy with
  | parallel =>
    refine (ofGraph_walks g).mono fun p s' hp => ?_
    obtain ⟨ts, m, -, hscopes, hm, hp⟩ := hp
    obtain ⟨hentered, hempty, -⟩ := Merge.ofScopes_permits hscopes m s' hm
    have htile := hentered.tile
    rw [hempty, Option.elim_none] at htile
    exact laid_of_ofDrafts hp htile hentered.slices (Merge.ofScopes_sorted hscopes m s' hm)
  | lockstep =>
    obtain ⟨htile, hsits⟩ := lockstep_sits (Nat.zero_le g.scopes.length) List.drop_zero none
    exact (ofGraph_lockstep g).mono fun p _ hp =>
      laid_of_ofDrafts hp.2 htile (fun d hd => (hsits d hd).members)
        (lockstep_sorted List.drop_zero)

/-! ## Handlers -/

namespace Laid

variable {G G' : Group} {H H' : Handler} {a b i j : Nat}

theorem bounds (laid : p.Laid g) (hG : G ∈ p.groups) :
    G.start < G.stop ∧ G.stop ≤ g.scopes.length :=
  (laid.tile.bounds (List.mem_map_of_mem hG)).2

theorem lt_of_owns (laid : p.Laid g) (formed : p.Formed) (hH : H ∈ p.handlers)
    (howns : H.Owns i) : i < g.scopes.length := by
  obtain ⟨G, hG, -, hlt⟩ := howns
  exact Nat.lt_of_lt_of_le hlt (laid.bounds (formed.mem_groups hH hG)).2

/-- A group with a subpass is split. -/
theorem level_of_subpass (laid : p.Laid g) (hG : G ∈ p.groups) (hle : G.start ≤ i)
    (hlt : i < G.stop) (hshared : g.Subpass i) : G.level = .secondary := by
  cases hlevel : G.level with
  | primary => exact ((laid.alike G hG hlevel).apart i hle hlt hshared).elim
  | secondary => rfl

/-- A group with a subpass has no other scope. -/
theorem stop_of_subpass (laid : p.Laid g) (formed : p.Formed) (hG : G ∈ p.groups)
    (hle : G.start ≤ i) (hlt : i < G.stop) (hshared : g.Subpass i) : G.stop = G.start + 1 := by
  obtain ⟨s, hs⟩ := (formed.formed G hG).single (laid.level_of_subpass hG hle hlt hshared)
  rw [Group.stop, hs, List.length_singleton]

/-- A subpass gives its number to its group, and so to its handler. -/
theorem id_of_subpass (laid : p.Laid g) (formed : p.Formed) (hH : H ∈ p.handlers)
    (howns : H.Owns i) (hshared : g.Subpass i) : H.id = (g.scopeAt i).group := by
  obtain ⟨G, hG, hle, hlt⟩ := howns
  have hmem := formed.mem_groups hH hG
  have hstop := laid.stop_of_subpass formed hmem hle hlt hshared
  obtain rfl : i = G.start := by omega
  rw [← laid.id G hmem, formed.numbered hH G hG]

/-- Different groups start at different scopes. -/
theorem start_ne (laid : p.Laid g) (hG : G ∈ p.groups) (hG' : G' ∈ p.groups) (hne : G ≠ G') :
    G.start ≠ G'.start := by
  have hpairs : p.groups.Pairwise fun G G' => G ≠ G' → G.start ≠ G'.start := by
    apply (List.pairwise_map.1 laid.tile.pairwise).imp_of_mem
    intro G G' hG _ hle _
    exact Nat.ne_of_lt (Nat.lt_of_lt_of_le (laid.bounds hG).1 hle)
  have hsymm : Std.Symm fun G G' : Group => G ≠ G' → G.start ≠ G'.start :=
    ⟨fun G G' h hne heq => h hne.symm heq.symm⟩
  exact hpairs.forall_of_forall (fun G _ hne => (hne rfl).elim) hG hG' hne

/-- Groups that share a handler start at subpasses. -/
theorem subpass_of_shared (laid : p.Laid g) (formed : p.Formed) (built : g.Built)
    (hH : H ∈ p.handlers) (hG : G ∈ H.groups) (hG' : G' ∈ H.groups) (hne : G ≠ G') :
    g.Subpass G.start := by
  have hmem := formed.mem_groups hH hG
  have hmem' := formed.mem_groups hH hG'
  have hstart := Nat.lt_of_lt_of_le (laid.bounds hmem).1 (laid.bounds hmem).2
  have hstart' := Nat.lt_of_lt_of_le (laid.bounds hmem').1 (laid.bounds hmem').2
  apply built.subpass hstart hstart' (laid.start_ne hmem hmem' hne)
  rw [← laid.id G hmem, ← laid.id G' hmem', formed.numbered hH G hG, formed.numbered hH G' hG']

/-- **Groups that share a handler** are subpasses with one number, and each is one scope. -/
theorem group_eq (laid : p.Laid g) (formed : p.Formed) (built : g.Built) (hH : H ∈ p.handlers)
    (hG : G ∈ H.groups) (hG' : G' ∈ H.groups) (hne : G ≠ G') (hle : G.start ≤ i)
    (hlt : i < G.stop) : i = G.start ∧ (g.scopeAt i).group = H.id := by
  have hmem := formed.mem_groups hH hG
  have hstop := laid.stop_of_subpass formed hmem (Nat.le_refl _) (laid.bounds hmem).1
    (laid.subpass_of_shared formed built hH hG hG' hne)
  obtain rfl : i = G.start := by omega
  exact ⟨rfl, (laid.id G hmem).symm.trans (formed.numbered hH G hG)⟩

/-- Handlers own the scopes in order. -/
theorem le_of_owns (laid : p.Laid g) (formed : p.Formed) (ha : p.handlers[a]? = some H)
    (hb : p.handlers[b]? = some H') (hi : H.Owns i) (hj : H'.Owns j) (hij : i ≤ j) : a ≤ b := by
  obtain ⟨m, -, -, hcut⟩ := formed.exists_cut laid.tile (b + 1)
  have hbefore := (hcut b H' j hb hj).2 (Nat.lt_succ_self b)
  exact Nat.le_of_lt_succ ((hcut a H i ha hi).1 (Nat.lt_of_le_of_lt hij hbefore))

/-- Scopes of one number have one handler. -/
theorem eq_of_group_eq (laid : p.Laid g) (formed : p.Formed) (built : g.Built)
    (ha : p.handlers[a]? = some H) (hb : p.handlers[b]? = some H') (hi : H.Owns i)
    (hj : H'.Owns j) (hgroup : (g.scopeAt i).group = (g.scopeAt j).group) : a = b := by
  have hmem := List.mem_of_getElem? ha
  have hmem' := List.mem_of_getElem? hb
  by_cases hij : i = j
  · subst hij
    exact Nat.le_antisymm (laid.le_of_owns formed ha hb hi hj (Nat.le_refl i))
      (laid.le_of_owns formed hb ha hj hi (Nat.le_refl i))
  · have hlt := laid.lt_of_owns formed hmem hi
    have hlt' := laid.lt_of_owns formed hmem' hj
    apply formed.eq_of_id_eq ha hb
    rw [laid.id_of_subpass formed hmem hi (built.subpass hlt hlt' hij hgroup),
      laid.id_of_subpass formed hmem' hj (built.subpass hlt' hlt (Ne.symm hij) hgroup.symm), hgroup]

/-- **A scope that waits** is in a later batch than the scopes of other numbers before it. -/
theorem lt_of_waits (laid : p.Laid g) (formed : p.Formed) (built : g.Built)
    (ha : p.handlers[a]? = some H) (hb : p.handlers[b]? = some H') (hi : H.Owns i)
    (hj : H'.Owns j) (hij : i < j) (hgroup : (g.scopeAt i).group ≠ (g.scopeAt j).group)
    (hwaits : (g.scopeAt j).sync.hasWaits = true) : a < b := by
  apply Nat.lt_of_le_of_ne (laid.le_of_owns formed ha hb hi hj (Nat.le_of_lt hij))
  intro hab
  subst hab
  obtain rfl : H = H' := Option.some_inj.1 (ha.symm.trans hb)
  have hH := List.mem_of_getElem? ha
  obtain ⟨G, hG, hle, hlt⟩ := hi
  obtain ⟨G', hG', hle', hlt'⟩ := hj
  by_cases hsame : G = G'
  · subst hsame
    have hmem := formed.mem_groups hH hG
    cases hlevel : G.level with
    | primary =>
      have hnone := (laid.alike G hmem hlevel).waits j (Nat.lt_of_le_of_lt hle hij) hlt'
      rw [hnone] at hwaits
      cases hwaits
    | secondary =>
      obtain ⟨s, hs⟩ := (formed.formed G hmem).single hlevel
      rw [Group.stop, hs, List.length_singleton] at hlt'
      omega
  · have hfirst := (laid.group_eq formed built hH hG hG' hsame hle hlt).2
    have hsecond := (laid.group_eq formed built hH hG' hG (Ne.symm hsame) hle' hlt').2
    exact hgroup (hfirst.trans hsecond.symm)

/-- The group of a scope runs where the scope asked to. -/
theorem site (laid : p.Laid g) (formed : p.Formed) (hG : G ∈ p.groups) (hle : G.start ≤ i)
    (hlt : i < G.stop) :
    G.queue = (g.scopeAt i).queue ∧ G.device = (g.scopeAt i).device := by
  rw [laid.queue G hG, laid.device G hG]
  cases hlevel : G.level with
  | primary =>
    have halike := laid.alike G hG hlevel
    exact ⟨(halike.queue i hle hlt).symm, (halike.device i hle hlt).symm⟩
  | secondary =>
    obtain ⟨s, hs⟩ := (formed.formed G hG).single hlevel
    rw [Group.stop, hs, List.length_singleton] at hlt
    obtain rfl : i = G.start := by omega
    exact ⟨rfl, rfl⟩

/-- The first group of a handler starts first. -/
theorem first_start_lt (laid : p.Laid g) (formed : p.Formed) (hH : H ∈ p.handlers)
    (hG : G ∈ H.groups) (hne : G ≠ H.first) : H.first.start < G.start := by
  have hpairs := (List.pairwise_map.1 laid.tile.pairwise).sublist (formed.sublist_groups hH)
  have hle := (List.pairwise_cons.1 hpairs).1 G ((List.mem_cons.1 hG).resolve_left hne)
  have hfirst := formed.mem_groups hH (List.mem_cons_self : H.first ∈ H.groups)
  exact Nat.lt_of_lt_of_le (laid.bounds hfirst).1 hle

/-- **The batch of a scope** runs where the first scope of its number asked to. -/
theorem first_site (laid : p.Laid g) (formed : p.Formed) (built : g.Built) (hH : H ∈ p.handlers)
    (howns : H.Owns i) :
    ∃ s, g.scopes.find? (·.group = (g.scopeAt i).group) = some s ∧
      H.first.queue = s.queue ∧ H.first.device = s.device := by
  have hi := laid.lt_of_owns formed hH howns
  obtain ⟨s, hs⟩ : ∃ s, g.scopes.find? (·.group = (g.scopeAt i).group) = some s := by
    apply Option.isSome_iff_exists.1
    rw [List.find?_isSome]
    exact ⟨g.scopeAt i, Graph.scopeAt_mem hi, decide_eq_true rfl⟩
  refine ⟨s, hs, ?_⟩
  obtain ⟨hgroup, j, hj, hget, hearlier⟩ := List.find?_eq_some_iff_getElem.1 hs
  rw [Graph.getElem_eq_scopeAt hj] at hget
  subst hget
  -- the first scope of the number is one of the handler's
  obtain ⟨position, H', hH', howns'⟩ := formed.exists_owner laid.tile hj
  obtain ⟨k, hk⟩ := List.mem_iff_getElem?.1 hH
  obtain rfl := laid.eq_of_group_eq formed built hH' hk howns' howns (of_decide_eq_true hgroup)
  obtain rfl : H' = H := Option.some_inj.1 (hH'.symm.trans hk)
  obtain ⟨G, hG, hle, hlt⟩ := howns'
  have hfirst : H'.first ∈ H'.groups := List.mem_cons_self
  by_cases hsame : G = H'.first
  · subst hsame
    exact laid.site formed (formed.mem_groups hH hfirst) hle hlt
  · obtain ⟨hstart, hid⟩ := laid.group_eq formed built hH hG hfirst hsame hle hlt
    have hbefore := laid.first_start_lt formed hH hG hsame
    have hid' := (laid.group_eq formed built hH hfirst hG (Ne.symm hsame) (Nat.le_refl _)
      (laid.bounds (formed.mem_groups hH hfirst)).1).2
    have hnot := hearlier H'.first.start (hstart ▸ hbefore)
    rw [Graph.getElem_eq_scopeAt (Nat.lt_trans (hstart ▸ hbefore) hj), hid',
      ← of_decide_eq_true hgroup, hid] at hnot
    simp at hnot

end Laid

end Plan

/-- The plan of an open frame. -/
theorem Scheduler.start_laid {σ Λ : Type} (graph : Graph) (s : Scheduler σ Λ) :
    (start graph).Permits s fun p _ => p.Laid graph :=
  start_permits_of fun _ => Plan.ofGraph_laid s.policy graph

end FrameSchedule
