import FrameSchedule.Proofs.Layouts

/-!
# Render passes and handlers

The scopes of one group number are a run of the frame (`Graph.run`).  A run of several scopes
is a render pass, and it has one handler: its groups are the scopes of the run, one by one and
in order.  Any other handler has one group.  The handlers cut the list of groups into parts,
and a group is looked up by its number (`Plan.Passes`).

The walk finds a run by the neighbours of each scope, and the handlers find it by the numbers
of the groups.  That both find the same runs rests on the numbers of a graph being contiguous
(`Graph.Built.subpass`).
-/

namespace FrameSchedule

variable {σ : Type} {s : σ} {c : Config} {g : Graph} {id : GroupId}

/-! ## Plans that can be summed up -/

namespace Plan

variable {p : Plan} {planned : Chain}

/-- The signals of a plan are in number what its last tracker requires. -/
theorem Tracked.total_lt (tracked : p.Tracked g planned) :
    Count.total (p.groups.map (·.signals)) < UInt32.size := by
  have hlast : g.epoch (g.scopes.length - 1) < planned.trackers.length := by
    rw [tracked.length]
    exact Nat.lt_succ_self _
  have hrequired := tracked.required _ _ (List.getElem?_eq_getElem hlast)
  have hall : g.sumThrough g.account g.scopes.length (g.epoch (g.scopes.length - 1)) =
      ∑ j ∈ Finset.Ico 0 g.scopes.length, g.account j := by
    rw [Graph.sumThrough, Finset.range_eq_Ico]
    apply Finset.sum_congr rfl
    intro j hj
    have hlt := (Finset.mem_Ico.1 hj).2
    exact if_pos (Graph.epoch_mono (by omega))
  have hsignals : (p.groups.map (·.signals)).map (·.toNat) =
      p.groups.map (Group.sumOf g.account) := by
    rw [List.map_map]
    exact List.map_congr_left fun G hG => tracked.signals G hG
  rw [Count.total_eq_sum, hsignals, Group.sum_of_tile g.account tracked.tile, ← hall, ← hrequired]
  exact UInt32.toNat_lt _

/-- The trackers of every plan of a graph can be summed up, so the plan is formed. -/
theorem formed_of_ofGraph (policy : SchedulePolicy) (g : Graph) :
    (ofGraph c policy g : Step σ Plan).Permits s fun p _ => p.Formed := by
  intro p s' hp
  have htracked := ofGraph_tracked policy g p s' hp
  obtain ⟨us, hus⟩ : ∃ us, p.unreachable = .ok us := by
    cases hchain : p.chain? with
    | none =>
      rw [unreachable, hchain]
      exact ⟨[], rfl⟩
    | some planned => exact exists_unreachable (htracked planned hchain).total_lt
  exact (ofGraph_formed policy g p s' hp).2 us hus

end Plan

/-! ## Spans of handlers -/

namespace Handler

/-- The positions of a handler's groups. -/
def span (H : Handler) : Span :=
  ⟨H.start, H.stop⟩

/-- Handlers whose groups are numbered from a position on cut the positions from there. -/
theorem tile_span {hs : List Handler} {a : Nat}
    (hindex : ∀ (k : Nat) (G : Group), (hs.flatMap (·.groups))[k]? = some G → G.index = a + k) :
    Span.Tile a (a + (hs.flatMap (·.groups)).length) (hs.map span) := by
  induction hs generalizing a with
  | nil => exact rfl
  | cons H hs ih =>
    rw [List.flatMap_cons] at hindex ⊢
    have hstart : H.start = a := hindex 0 H.first rfl
    have hstop : H.stop = a + H.groups.length := by rw [stop, hstart]
    have hrest : ∀ (k : Nat) (G : Group), (hs.flatMap (·.groups))[k]? = some G →
        G.index = H.stop + k := by
      intro k G hG
      rw [hstop, Nat.add_assoc]
      apply hindex
      rw [List.getElem?_append_right (Nat.le_add_right _ k), Nat.add_sub_cancel_left]
      exact hG
    rw [List.length_append, ← Nat.add_assoc, ← hstop]
    have hlt : a < H.stop := by
      rw [hstop]
      exact Nat.lt_add_of_pos_right (Nat.succ_pos _)
    exact ⟨hstart, hlt, ih hrest⟩

/-- The groups of one number are those of the handlers of that number. -/
theorem filter_flatMap_groups {hs : List Handler} (hnumbered : ∀ H ∈ hs, H.Numbered)
    (id : GroupId) :
    (hs.flatMap (·.groups)).filter (·.id = id) = (hs.filter (·.id = id)).flatMap (·.groups) := by
  induction hs with
  | nil => rfl
  | cons H hs ih =>
    have hH := hnumbered H List.mem_cons_self
    rw [List.flatMap_cons, List.filter_append,
      ih fun H' hH' => hnumbered H' (List.mem_cons_of_mem H hH')]
    by_cases hid : H.id = id
    · have hall : H.groups.filter (·.id = id) = H.groups :=
        List.filter_eq_self.2 fun G hG => decide_eq_true ((hH G hG).trans hid)
      rw [hall, List.filter_cons, if_pos (decide_eq_true hid), List.flatMap_cons]
    · have hnone : H.groups.filter (·.id = id) = [] :=
        List.filter_eq_nil_iff.2 fun G hG heq => hid ((hH G hG).symm.trans (of_decide_eq_true heq))
      rw [hnone, List.filter_cons, if_neg fun heq => hid (of_decide_eq_true heq), List.nil_append]

end Handler

namespace Plan.Formed

variable {p : Plan} {H : Handler} {G : Group}

theorem tile_handlers (formed : p.Formed) :
    Span.Tile 0 p.groups.length (p.handlers.map Handler.span) := by
  have hindex : ∀ (k : Nat) (G : Group), (p.handlers.flatMap (·.groups))[k]? = some G →
      G.index = 0 + k := by
    intro k G hG
    rw [formed.flatMap_groups] at hG
    rw [Nat.zero_add]
    exact formed.index k G hG
  have htile := Handler.tile_span hindex
  rw [formed.flatMap_groups, Nat.zero_add] at htile
  exact htile

/-- A handler has the groups at its positions. -/
theorem groups_eq_slice (formed : p.Formed) (hH : H ∈ p.handlers) :
    H.groups = (p.groups.drop H.start).take (H.stop - H.start) := by
  obtain ⟨before, after, hsplit⟩ := List.append_of_mem hH
  have hgroups := formed.flatMap_groups
  rw [hsplit, List.flatMap_append, List.flatMap_cons] at hgroups
  -- the handler starts where the groups of the handlers before it end
  have hstart : H.start = (before.flatMap (·.groups)).length := by
    apply formed.index
    rw [← hgroups, List.getElem?_append_right (Nat.le_refl _), Nat.sub_self]
    rfl
  rw [Handler.stop, Nat.add_sub_cancel_left, ← hgroups, hstart, List.drop_left, List.take_left]

/-- A number is that of one handler at most. -/
theorem filter_id (formed : p.Formed) (hH : H ∈ p.handlers) :
    p.handlers.filter (·.id = H.id) = [H] := by
  obtain ⟨before, after, hsplit⟩ := List.append_of_mem hH
  have hdistinct := formed.distinct
  rw [hsplit, List.map_append, List.map_cons, List.nodup_middle, List.nodup_cons,
    ← List.map_append] at hdistinct
  have hother : ∀ H' ∈ before ++ after, ¬ (decide (H'.id = H.id) = true) := fun H' hH' heq =>
    hdistinct.1 (List.mem_map.2 ⟨H', hH', of_decide_eq_true heq⟩)
  rw [hsplit, List.filter_append, List.filter_cons, if_pos (decide_eq_true rfl),
    List.filter_eq_nil_iff.2 fun H' hH' => hother H' (List.mem_append_left _ hH'),
    List.filter_eq_nil_iff.2 fun H' hH' => hother H' (List.mem_append_right _ hH')]
  rfl

/-- A handler has the groups of its number. -/
theorem groups_eq_filter (formed : p.Formed) (hH : H ∈ p.handlers) :
    H.groups = p.groups.filter (·.id = H.id) := by
  have hall := Handler.filter_flatMap_groups (fun H' hH' => formed.numbered hH') H.id
  rw [formed.flatMap_groups, formed.filter_id hH, List.flatMap_singleton] at hall
  exact hall.symm

/-- A group is found by its number, in the handler that has its position. -/
theorem exists_lookup (formed : p.Formed) {k : Nat} (hG : p.groups[k]? = some G) :
    ∃ (position : Nat) (H : Handler), p.handlerIndex? G.id = some position ∧
      p.handlers[position]? = some H ∧ H.start ≤ k ∧ k < H.stop := by
  have hmem := List.mem_of_getElem? hG
  obtain ⟨position, H, hposition, hH, hid⟩ := formed.exists_handlerIndex hmem
  have hH' := List.mem_of_getElem? hH
  have hgroup : G ∈ H.groups := by
    rw [formed.groups_eq_filter hH']
    exact List.mem_filter.2 ⟨hmem, decide_eq_true hid.symm⟩
  obtain ⟨i, hi⟩ := List.mem_iff_getElem?.1 hgroup
  have hlt : i < H.groups.length := (List.getElem?_eq_some_iff.1 hi).1
  rw [formed.groups_eq_slice hH', List.getElem?_take, List.getElem?_drop] at hi
  split at hi
  · have hindex := (formed.index _ G hi).symm.trans (formed.index k G hG)
    refine ⟨position, H, hposition, hH, by omega, ?_⟩
    rw [Handler.stop]
    omega
  · cases hi

end Plan.Formed

/-! ## Runs of scopes -/

namespace Graph

variable {i : Nat}

/-- The scopes of a group number, in order. -/
def run (g : Graph) (id : GroupId) : List PlacedScope :=
  g.scopes.filter (·.group = id)

/-- A run of several scopes has several positions. -/
theorem two_le_run_iff : 2 ≤ (g.run id).length ↔
    ∃ i j, (i < g.scopes.length ∧ (g.scopeAt i).group = id) ∧
      (j < g.scopes.length ∧ (g.scopeAt j).group = id) ∧ i ≠ j := by
  have hcard : (g.run id).length =
      ((Finset.range g.scopes.length).filter fun i => (g.scopeAt i).group = id).card := by
    rw [run]
    conv => left; rw [← map_scopeAt, List.filter_map, List.length_map]
    rfl
  rw [hcard]
  show 1 < Finset.card _ ↔ _
  rw [Finset.one_lt_card_iff]
  simp only [Finset.mem_filter, Finset.mem_range]

/-- The scopes of a run of several are subpasses. -/
theorem Built.subpass_of_run (built : g.Built) (hrun : 2 ≤ (g.run id).length)
    (hi : i < g.scopes.length) (hgroup : (g.scopeAt i).group = id) : g.Subpass i := by
  obtain ⟨j, k, ⟨hj, hgroup₁⟩, ⟨hk, hgroup₂⟩, hne⟩ := two_le_run_iff.1 hrun
  by_cases hij : i = j
  · subst hij
    exact built.subpass hi hk hne (hgroup.trans hgroup₂.symm)
  · exact built.subpass hi hj hij (hgroup.trans hgroup₁.symm)

end Graph

/-! ## Passes -/

namespace Plan

variable {p : Plan} {H : Handler} {G : Group}

/-- Groups that cut the scopes from a position on hold these scopes, in order. -/
theorem flatMap_members_of_tile {gs : List Group} {a : Nat}
    (htile : Span.Tile a g.scopes.length (gs.map Group.span))
    (hmembers : ∀ G ∈ gs, G.members = g.slice G.start G.stop) :
    gs.flatMap (·.members) = g.scopes.drop a := by
  induction gs generalizing a with
  | nil =>
    have hend : a = g.scopes.length := htile
    rw [hend, List.drop_length]
    rfl
  | cons G gs ih =>
    obtain ⟨rfl, hlt, htile⟩ := htile
    rw [List.flatMap_cons, hmembers G List.mem_cons_self,
      ih htile fun G' hG' => hmembers G' (List.mem_cons_of_mem G hG')]
    exact Graph.slice_append_drop (Nat.le_of_lt hlt)

/-- What a group has of the scopes of a number: it is one of them, or it has none. -/
inductive Shares (id : GroupId) (G : Group) : Prop
  | one {scope : PlacedScope} :
    G.id = id → G.members = [scope] → scope.group = id → Shares id G
  | none : G.id ≠ id → (∀ scope ∈ G.members, scope.group ≠ id) → Shares id G

/-- The groups of a number are its scopes, one by one, if each group shares in them so. -/
theorem map_members_of_shares {gs : List Group} (hshares : ∀ G ∈ gs, Shares id G) :
    (gs.filter (·.id = id)).map (·.members) =
      ((gs.flatMap (·.members)).filter (·.group = id)).map ([·]) := by
  induction gs with
  | nil => rfl
  | cons G gs ih =>
    rw [List.flatMap_cons, List.filter_append, List.map_append,
      ← ih fun G' hG' => hshares G' (List.mem_cons_of_mem G hG'), List.filter_cons]
    cases hshares G List.mem_cons_self with
    | one hid hmembers hgroup =>
      rw [if_pos (decide_eq_true hid), hmembers, List.filter_cons,
        if_pos (decide_eq_true hgroup), List.map_cons, hmembers]
      rfl
    | none hid hmembers =>
      have hempty : G.members.filter (·.group = id) = [] :=
        List.filter_eq_nil_iff.2 fun scope hscope hgroup =>
          hmembers scope hscope (of_decide_eq_true hgroup)
      rw [if_neg fun heq => hid (of_decide_eq_true heq), hempty]
      rfl

/-- A group of a plan is one scope of a run of several, or has none of them. -/
theorem Laid.shares (laid : p.Laid g) (formed : p.Formed) (built : g.Built)
    (hrun : 2 ≤ (g.run id).length) (hG : G ∈ p.groups) : Shares id G := by
  obtain ⟨hlt, hle⟩ := laid.bounds hG
  have hnumber := laid.id G hG
  by_cases hid : G.id = id
  · have hshared := built.subpass_of_run hrun (Nat.lt_of_lt_of_le hlt hle) (hnumber ▸ hid)
    obtain ⟨scope, hscope⟩ :=
      (formed.formed G hG).single (laid.level_of_subpass hG (Nat.le_refl _) hlt hshared)
    have hgroup := (formed.formed G hG).number
    rw [hscope, List.head?_cons, Option.map_some, Option.some_inj] at hgroup
    exact .one hid hscope (hgroup.trans hid)
  · apply Shares.none hid
    intro scope hscope hgroup
    rw [laid.members G hG, Graph.mem_slice hle] at hscope
    obtain ⟨i, hstart, hstop, rfl⟩ := hscope
    have hshared := built.subpass_of_run hrun (Nat.lt_of_lt_of_le hstop hle) hgroup
    have hsingle := laid.stop_of_subpass formed hG hstart hstop hshared
    obtain rfl : i = G.start := by omega
    exact hid (hnumber.trans hgroup)

/-- **The groups of a run of several scopes** are these scopes, one by one. -/
theorem Laid.members_of_run (laid : p.Laid g) (formed : p.Formed) (built : g.Built)
    (hrun : 2 ≤ (g.run id).length) :
    (p.groups.filter (·.id = id)).map (·.members) = (g.run id).map ([·]) := by
  have hscopes := flatMap_members_of_tile laid.tile laid.members
  rw [List.drop_zero] at hscopes
  rw [map_members_of_shares fun G hG => laid.shares formed built hrun hG, hscopes, Graph.run]

/-- How the handlers of a plan lie on its groups, and on the runs of its frame. -/
structure Passes (g : Graph) (p : Plan) : Prop where
  /-- The handlers cut the list of groups into nonempty parts. -/
  tile : Span.Tile 0 p.groups.length (p.handlers.map Handler.span)
  groups : ∀ H ∈ p.handlers, H.groups = (p.groups.drop H.start).take (H.stop - H.start)
  distinct : (p.handlers.map (·.id)).Nodup
  lookup : ∀ (k : Nat) (G : Group), p.groups[k]? = some G →
    ∃ (position : Nat) (H : Handler), p.handlerIndex? G.id = some position ∧
      p.handlers[position]? = some H ∧ H.start ≤ k ∧ k < H.stop
  /-- A run of several scopes has one handler, with a split group for each scope. -/
  shared : ∀ id, 2 ≤ (g.run id).length → ∃ H, p.handlers.filter (·.id = id) = [H] ∧
    H.kind = .secondary ∧ H.groups.map (·.members) = (g.run id).map ([·]) ∧
      ∀ G ∈ H.groups, G.level = .secondary
  /-- Any other handler has one group, and is of its kind. -/
  single : ∀ H ∈ p.handlers, (g.run H.id).length < 2 →
    H.others = [] ∧ (H.kind = .primary ↔ H.first.level = .primary)

/-- The handler of a run of several scopes. -/
theorem Laid.exists_pass (laid : p.Laid g) (formed : p.Formed) (built : g.Built)
    (hrun : 2 ≤ (g.run id).length) :
    ∃ H, p.handlers.filter (·.id = id) = [H] ∧ H.kind = .secondary ∧
      H.groups.map (·.members) = (g.run id).map ([·]) ∧ ∀ G ∈ H.groups, G.level = .secondary := by
  obtain ⟨i, -, ⟨hi, hgroup⟩, -, -⟩ := Graph.two_le_run_iff.1 hrun
  obtain ⟨position, H, hposition, howns⟩ := formed.exists_owner laid.tile hi
  have hH := List.mem_of_getElem? hposition
  have hid := laid.id_of_subpass formed hH howns (built.subpass_of_run hrun hi hgroup)
  rw [hgroup] at hid
  subst hid
  have hmembers := laid.members_of_run formed built hrun
  rw [← formed.groups_eq_filter hH] at hmembers
  have hothers : H.others ≠ [] := by
    intro hnil
    have hlength := congrArg List.length hmembers
    rw [List.length_map, List.length_map, Handler.groups, hnil, List.length_singleton] at hlength
    omega
  have hkind := Handler.kind_of_mem (formed.runs ▸ hH)
  rw [Handler.kindOf, if_neg hothers] at hkind
  exact ⟨H, formed.filter_id hH, hkind, hmembers,
    fun G hG => laid.level_of_shared formed built hH hothers hG⟩

/-- The handler of a number that no two scopes share. -/
theorem Laid.single_of_run (laid : p.Laid g) (formed : p.Formed) (hH : H ∈ p.handlers)
    (hrun : (g.run H.id).length < 2) :
    H.others = [] ∧ (H.kind = .primary ↔ H.first.level = .primary) := by
  have hothers : H.others = [] := by
    by_contra hshared
    -- two groups of the handler start at two scopes of its number
    obtain ⟨G, hG, hne⟩ := formed.exists_other hH hshared H.first
    have hfirst : H.first ∈ H.groups := List.mem_cons_self
    have hscope : ∀ G ∈ H.groups, G.start < g.scopes.length ∧
        (g.scopeAt G.start).group = H.id := by
      intro G hG
      have hmem := formed.mem_groups hH hG
      obtain ⟨hlt, hle⟩ := laid.bounds hmem
      exact ⟨Nat.lt_of_lt_of_le hlt hle, (laid.id G hmem).symm.trans (formed.numbered hH G hG)⟩
    have hstart := laid.start_ne (formed.mem_groups hH hfirst) (formed.mem_groups hH hG) hne
    have hseveral := Graph.two_le_run_iff.2 ⟨_, _, hscope _ hfirst, hscope G hG, hstart⟩
    omega
  have hkind := Handler.kind_of_mem (formed.runs ▸ hH)
  rw [Handler.kindOf, if_pos hothers] at hkind
  rw [hkind]
  exact ⟨hothers, Iff.rfl⟩

/-- **Render passes are handlers.**  In every plan of a graph that has been built, under either
policy, the handlers cut the list of groups into parts, a run of several scopes has one handler
with a split group for each scope, and any other handler has one group.  There is such a plan
if the totals of the graph are words. -/
theorem ofGraph_passes (policy : SchedulePolicy) (c : Config) (s : σ) (built : g.Built) :
    ((ofGraph c policy g : Step σ Plan).Permits s fun p _ => p.Passes g) ∧
      (g.Countable → c.check = .ok () → c.Covers g →
        ∃ p, ((ofGraph c policy g : Step σ Plan).run s).result = .ok p) := by
  constructor
  · intro p s' hp
    have formed := formed_of_ofGraph policy g p s' hp
    have laid := ofGraph_laid policy g p s' hp
    constructor
    · exact formed.tile_handlers
    · exact fun H hH => formed.groups_eq_slice hH
    · exact formed.distinct
    · exact fun k G hG => formed.exists_lookup hG
    · exact fun id hrun => laid.exists_pass formed built hrun
    · exact fun H hH hrun => laid.single_of_run formed hH hrun
  · intro countable checked covers
    obtain ⟨p, _, hp, -⟩ := ofGraph_ensures (s := s) policy built countable checked covers
    exact ⟨p, hp.1⟩

/-- A frame with a render pass of two scopes. -/
theorem ofGraph_passes_layered :
    ∃ p, ((ofGraph .plain .parallel Scheduler.layered : Step Unit Plan).run ()).result = .ok p ∧
      p.Passes Scheduler.layered ∧ (Scheduler.layered.run ⟨1⟩).length = 2 := by
  have built : Scheduler.layered.Built := Graph.Built.empty.addAll _ () _ ⟨rfl, rfl⟩
  obtain ⟨hpasses, hreturns⟩ := ofGraph_passes .parallel .plain () built
  obtain ⟨p, hp⟩ := hreturns ⟨by decide, by decide, by decide⟩ rfl
    (by unfold Config.Covers; decide)
  exact ⟨p, hp, hpasses p () ⟨hp, rfl⟩, by decide +kernel⟩

end Plan

end FrameSchedule
