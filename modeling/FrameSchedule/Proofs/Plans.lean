import FrameSchedule.Proofs.Walk
import Mathlib.Data.List.SplitBy

/-!
# Groups and handlers of a plan

A group repeats its draft, with a number and its signals (`Group.Follows`).  The groups
of the handlers, in order, are the groups of the plan, each handler has those of one
group number, and no two handlers have one number (`Plan.Formed`).

A plan exists whenever the totals of the graph are words (`Plan.exists_ofDrafts`): the
groups of a built graph have contiguous numbers, and all signals of a frame are pledged
by its scopes.
-/

namespace FrameSchedule

/-! ## Handlers -/

namespace Handler

variable {groups : List Group} {hs : List Handler} {h : Handler}

/-- The handlers of groups, without the check of their numbers. -/
def ofRuns (groups : List Group) : List Handler :=
  (groups.splitBy fun a b => a.id = b.id).filterMap ofRun?

theorem ofGroups_eq_ok_iff : ofGroups groups = .ok hs ↔
    checkIds [] (ofRuns groups) = .ok () ∧ hs = ofRuns groups := by
  rw [ofGroups, ofRuns]
  cases checkIds [] ((groups.splitBy fun a b => a.id = b.id).filterMap ofRun?) with
  | error fault => simp [bind, Except.bind]
  | ok u => simp [bind, Except.bind, pure, Except.pure, eq_comm]

theorem ofRun?_eq_some {run : List Group} (hrun : ofRun? run = some h) : h.groups = run := by
  cases run with
  | nil => cases hrun
  | cons first others =>
    cases hrun
    rfl

/-- No run is lost on the way to the handlers. -/
theorem map_groups_ofRuns (groups : List Group) :
    (ofRuns groups).map (·.groups) = groups.splitBy fun a b => a.id = b.id := by
  have hne := List.nil_notMem_splitBy (fun a b : Group => a.id = b.id) groups
  unfold ofRuns
  generalize (groups.splitBy fun a b => a.id = b.id) = runs at hne
  induction runs with
  | nil => rfl
  | cons run runs ih =>
    cases run with
    | nil => exact (hne List.mem_cons_self).elim
    | cons first others =>
      have hrest := ih fun hmem => hne (List.mem_cons_of_mem _ hmem)
      have hfirst : ofRun? (first :: others) =
          some ⟨kindOf first others, first.id, first, others⟩ := rfl
      rw [List.filterMap_cons_some hfirst, List.map_cons, hrest]
      rfl

theorem flatMap_ofRuns (groups : List Group) : (ofRuns groups).flatMap (·.groups) = groups := by
  rw [List.flatMap, map_groups_ofRuns, List.flatten_splitBy]

/-- The number of a handler is that of its first group. -/
def Numbered (h : Handler) : Prop :=
  ∀ g ∈ h.groups, g.id = h.id

theorem numbered_of_mem (hmem : h ∈ ofRuns groups) : h.Numbered := by
  obtain ⟨run, hrun, hh⟩ := List.mem_filterMap.1 hmem
  have hchain := List.isChain_of_mem_splitBy hrun
  have hgroups := ofRun?_eq_some hh
  cases run with
  | nil => cases hh
  | cons first others =>
    cases hh
    intro g hg
    rw [hgroups] at hg
    rcases List.mem_cons.1 hg with rfl | hg
    · rfl
    · have hsame : List.IsChain (fun a b : Group => a.id = b.id) (first :: others) :=
        hchain.imp fun a b hab => of_decide_eq_true hab
      have htrans : IsTrans Group fun a b => a.id = b.id := ⟨fun _ _ _ hab hbc => hab.trans hbc⟩
      exact (List.pairwise_cons.1 (List.isChain_iff_pairwise.1 hsame)).1 g hg |>.symm

/-- Two handlers in a row have different numbers. -/
theorem isChain_ofRuns (groups : List Group) :
    (ofRuns groups).IsChain fun a b => a.id ≠ b.id := by
  have hchain := List.isChain_getLast_head_splitBy (fun a b : Group => a.id = b.id) groups
  rw [← map_groups_ofRuns, List.isChain_map] at hchain
  refine List.IsChain.imp_of_mem_imp ?_ hchain
  intro a b ha hb hpair
  rcases hpair with ⟨hane, hbne, hdiff⟩
  have hlast := numbered_of_mem ha _ (List.getLast_mem hane)
  have hhead := numbered_of_mem hb _ (List.head_mem hbne)
  rw [hlast, hhead, decide_eq_false_iff_not] at hdiff
  exact hdiff

/-- The check passes just when the numbers are distinct and new. -/
theorem checkIds_eq_ok_iff {seen : List GroupId} :
    checkIds seen hs = .ok () ↔ (hs.map (·.id)).Nodup ∧ ∀ h ∈ hs, h.id ∉ seen := by
  induction hs generalizing seen with
  | nil => simp [checkIds]
  | cons h hs ih =>
    unfold checkIds
    by_cases hmem : h.id ∈ seen
    · simp [hmem]
    · rw [if_neg hmem, ih, List.map_cons, List.nodup_cons]
      simp only [List.mem_map, List.mem_cons]
      grind

end Handler

/-- Contiguous entries without equal neighbours are distinct. -/
theorem Contiguous.nodup {α : Type} {l : List α} (h : Contiguous l)
    (hchain : l.IsChain fun a b => a ≠ b) : l.Nodup := by
  induction l with
  | nil => exact List.nodup_nil
  | cons a l ih =>
    refine List.nodup_cons.2 ⟨fun hmem => ?_, ih (h.of_sublist (List.sublist_cons_self a l))
      hchain.of_cons⟩
    cases l with
    | nil => cases hmem
    | cons b l =>
      have hne : a ≠ b := (List.isChain_cons_cons.1 hchain).1
      have hrest : a ∈ l := (List.mem_cons.1 hmem).resolve_left hne
      exact hne (h a b (((List.singleton_sublist.2 hrest).cons_cons b).cons_cons a))

/-- The handlers of groups with contiguous numbers pass the check. -/
theorem Handler.exists_ofGroups {groups : List Group} (h : Contiguous (groups.map (·.id))) :
    ofGroups groups = .ok (ofRuns groups) := by
  refine ofGroups_eq_ok_iff.2 ⟨checkIds_eq_ok_iff.2 ⟨?_, by simp⟩, rfl⟩
  have hsub : ((ofRuns groups).map (·.id)).Sublist (groups.map (·.id)) := by
    conv => right; rw [← flatMap_ofRuns groups]
    have hall : ∀ hs : List Handler, (∀ h ∈ hs, h.Numbered) →
        (hs.map (·.id)).Sublist ((hs.flatMap (·.groups)).map (·.id)) := by
      intro hs hnum
      induction hs with
      | nil => exact List.Sublist.refl _
      | cons h hs ih =>
        have hfirst : h.first.id = h.id := hnum h List.mem_cons_self _ List.mem_cons_self
        rw [List.map_cons, List.flatMap_cons, List.map_append, Handler.groups, List.map_cons,
          hfirst]
        apply List.Sublist.cons_cons h.id
        exact (ih fun h' hh' => hnum h' (List.mem_cons_of_mem _ hh')).trans
          (List.sublist_append_right _ _)
    exact hall _ fun h hh => numbered_of_mem hh
  apply (h.of_sublist hsub).nodup
  rw [List.isChain_map]
  exact isChain_ofRuns groups

/-! ## Groups -/

/-- The positions of a group. -/
def Group.span (G : Group) : Span :=
  ⟨G.start, G.stop⟩

/-- What the constructor of groups sees to. -/
structure Group.Formed (G : Group) : Prop where
  number : G.members.head?.map (·.group) = some G.id
  single : G.level = .secondary → ∃ s, G.members = [s]
  lists : G.lists ≠ 0

/-- A group repeats a draft with its position, and has the signals of its scopes. -/
structure Group.Follows (ledger? : Option Ledger) (d : Draft × Nat) (G : Group) : Prop where
  index : G.index = d.2
  kind : G.kind = d.1.kind
  start : G.start = d.1.start
  members : G.members = d.1.members
  handle : G.handle? = d.1.handle?
  signals : Plan.signalsOf ledger? d.1 = .ok G.signals
  formed : G.Formed

theorem Group.ofDraft_eq_ok {index : Nat} {job : JobPolicy} {signals : UInt32} {d : Draft}
    {G : Group} (h : ofDraft index job signals d = .ok G)
    {ledger? : Option Ledger} (hsignals : Plan.signalsOf ledger? d = .ok signals) :
    G.Follows ledger? (d, index) := by
  unfold ofDraft at h
  split at h
  · cases h
  · rename_i first others hmembers
    split at h
    · cases h
    · rename_i hshared
      split at h
      · cases h
      · rename_i hlists
        cases h
        refine ⟨rfl, rfl, rfl, rfl, rfl, hsignals, ⟨?_, fun hlevel => ?_, hlists⟩⟩
        · simp only [hmembers]
          rfl
        · have hothers : others = [] := by
            by_contra hne
            exact hshared ⟨hlevel, hne⟩
          exact ⟨first, by rw [hmembers, hothers]⟩

/-- A draft that has scopes makes a group. -/
theorem Group.exists_ofDraft {g : Graph} {d : Draft} (h : d.Sits g) (hne : d.members ≠ [])
    (index : Nat) (job : JobPolicy) (signals : UInt32) :
    ∃ G, ofDraft index job signals d = .ok G := by
  cases hmembers : d.members with
  | nil => exact (hne hmembers).elim
  | cons first others =>
    have hsingle : ¬ (d.kind.level = .secondary ∧ others ≠ []) := by
      intro hboth
      rcases hboth with ⟨hlevel, hothers⟩
      have hstop := h.single hlevel
      simp only [Draft.span, hmembers, List.length_cons] at hstop
      exact hothers (List.eq_nil_of_length_eq_zero (by omega))
    rw [ofDraft, hmembers]
    simp only [if_neg hsingle, if_neg h.lists]
    exact ⟨_, rfl⟩

namespace Plan

variable {job : JobPolicy} {ledger? : Option Ledger} {drafts : List Draft} {groups : List Group}

theorem groupsOf_follows (h : groupsOf job ledger? drafts = .ok groups) :
    List.Forall₂ (Group.Follows ledger?) drafts.zipIdx groups := by
  apply (mapM_eq_ok_iff.1 h).imp
  intro d G hG
  cases hsignals : signalsOf ledger? d.1 with
  | error fault => simp [hsignals, bind, Except.bind] at hG
  | ok signals =>
    rw [hsignals] at hG
    exact Group.ofDraft_eq_ok hG hsignals

theorem exists_groupsOf (job : JobPolicy) {g : Graph} (sits : ∀ d ∈ drafts, d.Sits g)
    (nonempty : ∀ d ∈ drafts, d.members ≠ [])
    (hsignals : ∀ d ∈ drafts, ∃ n, signalsOf ledger? d = .ok n) :
    ∃ groups, groupsOf job ledger? drafts = .ok groups := by
  have heach : ∀ d ∈ drafts.zipIdx, ∃ G,
      (do Group.ofDraft d.2 job (← signalsOf ledger? d.1) d.1) = Except.ok G := by
    intro dk hd
    rcases dk with ⟨d, k⟩
    have hmem := List.fst_mem_of_mem_zipIdx hd
    obtain ⟨n, hn⟩ := hsignals d hmem
    rw [hn]
    exact Group.exists_ofDraft (sits d hmem) (nonempty d hmem) k job n
  obtain ⟨groups, hgroups⟩ := exists_forall₂ heach
  exact ⟨groups, mapM_eq_ok_iff.2 hgroups⟩

variable (follows : List.Forall₂ (Group.Follows ledger?) drafts.zipIdx groups)

include follows

theorem index_of_follows {k : Nat} {G : Group} (hG : groups[k]? = some G) : G.index = k := by
  obtain ⟨hk, hget⟩ := List.getElem?_eq_some_iff.1 hG
  have hfollows := List.forall₂_iff_get.1 follows
  have hk' : k < drafts.zipIdx.length := by
    rw [hfollows.1]
    exact hk
  have hat := (hfollows.2 k hk' hk).index
  simp only [List.get_eq_getElem, List.getElem_zipIdx, hget, Nat.zero_add] at hat
  exact hat

/-- What holds of a draft and its group as far as their scopes go. -/
theorem forall₂_drafts : List.Forall₂ (fun d G => ∃ k, Group.Follows ledger? (d, k) G)
    drafts groups := by
  refine List.forall₂_iff_get.2 ⟨?_, fun k hd hG => ?_⟩
  · rw [← follows.length_eq, List.length_zipIdx]
  · have hat := (List.forall₂_iff_get.1 follows).2 k (by rwa [List.length_zipIdx]) hG
    simp only [List.get_eq_getElem, List.getElem_zipIdx, Nat.zero_add] at hat ⊢
    exact ⟨k, hat⟩

theorem exists_draft {G : Group} (hG : G ∈ groups) :
    ∃ d ∈ drafts, ∃ k, Group.Follows ledger? (d, k) G :=
  exists_of_mem_forall₂ (forall₂_drafts follows) hG

theorem map_span : groups.map Group.span = drafts.map Draft.span := by
  refine (map_eq_of_forall₂ (forall₂_drafts follows) fun d G hd => ?_).symm
  rcases hd with ⟨k, hk⟩
  rw [Group.span, Group.stop, hk.start, hk.members, Draft.span]

theorem flatMap_members : groups.flatMap (·.members) = drafts.flatMap (·.members) := by
  have hmap : drafts.map (·.members) = groups.map (·.members) := by
    apply map_eq_of_forall₂ (forall₂_drafts follows)
    intro d G hd
    rcases hd with ⟨k, hk⟩
    exact hk.members.symm
  rw [List.flatMap, List.flatMap, hmap]

/-- The numbers of the groups are among those of their scopes, in order. -/
theorem map_id_sublist :
    (groups.map (·.id)).Sublist ((groups.flatMap (·.members)).map (·.group)) := by
  have hall := forall₂_drafts follows
  clear follows
  induction hall with
  | nil => exact List.Sublist.refl _
  | @cons d G _ _ hd _ ih =>
    rcases hd with ⟨k, hk⟩
    have hnumber := hk.formed.number
    cases hmembers : G.members with
    | nil => rw [hmembers] at hnumber; cases hnumber
    | cons first others =>
      rw [hmembers, List.head?_cons, Option.map_some, Option.some_inj] at hnumber
      rw [List.map_cons, List.flatMap_cons, hmembers, List.map_append, List.map_cons, hnumber]
      exact List.Sublist.cons_cons G.id (ih.trans (List.sublist_append_right _ _))

end Plan

/-! ## Existence -/

section Existence

variable {g : Graph} {drafts : List Draft} {a : Nat}

/-- Drafts that tile the scopes from a position on hold these scopes, in order. -/
theorem flatMap_zipIdx_drafts (tile : Span.Tile a g.scopes.length (drafts.map Draft.span))
    (sits : ∀ d ∈ drafts, d.Sits g) :
    drafts.flatMap (fun d => d.members.zipIdx d.start) = (g.scopes.drop a).zipIdx a := by
  induction drafts generalizing a with
  | nil =>
    have hend : a = g.scopes.length := tile
    rw [hend, List.drop_length]
    rfl
  | cons d ds ih =>
    rcases tile with ⟨hstart, hlt, hrest⟩
    have hmembers := (sits d List.mem_cons_self).members
    have hsplit : g.scopes.drop a = d.members ++ g.scopes.drop d.span.stop := by
      rw [hmembers, hstart, Graph.slice_append_drop (Nat.le_of_lt hlt)]
    have hstart' : d.start = a := hstart
    rw [List.flatMap_cons, ih hrest fun d' hd' => sits d' (List.mem_cons_of_mem _ hd'), hsplit,
      List.zipIdx_append, hstart']
    rw [Draft.span, hstart']

theorem flatMap_members_drafts (tile : Span.Tile 0 g.scopes.length (drafts.map Draft.span))
    (sits : ∀ d ∈ drafts, d.Sits g) : drafts.flatMap (·.members) = g.scopes := by
  have hzip := congrArg (List.map (·.1)) (flatMap_zipIdx_drafts tile sits)
  rw [List.map_flatMap, List.zipIdx_map_fst, List.drop_zero] at hzip
  simpa only [List.zipIdx_map_fst] using hzip

theorem nonempty_of_tile (tile : Span.Tile a g.scopes.length (drafts.map Draft.span)) :
    ∀ d ∈ drafts, d.members ≠ [] := by
  induction drafts generalizing a with
  | nil => simp
  | cons d ds ih =>
    rcases tile with ⟨hstart, hlt, hrest⟩
    intro d' hd'
    rcases List.mem_cons.1 hd' with rfl | hd'
    · intro hnil
      unfold Draft.span at hstart hlt
      rw [hnil] at hlt
      simp only [List.length_nil] at hstart hlt
      omega
    · exact ih hrest d' hd'

/-- The signals that a draft accounts for. -/
def Ledger.dueOf (l : Ledger) (d : Draft) : Nat :=
  ((d.members.zipIdx d.start).map l.due).sum

/-- All signals of a frame are pledged by its scopes. -/
theorem sum_dueOf_lt {l : Ledger} (tile : Span.Tile 0 g.scopes.length (drafts.map Draft.span))
    (sits : ∀ d ∈ drafts, d.Sits g) (countable : g.Countable)
    (balanced : l.Balanced (g.sumBefore (·.sync.waits) g.scopes.length)
      (g.sumBefore (·.sync.signalFences.length) g.scopes.length)) :
    (drafts.map l.dueOf).sum < UInt32.size := by
  have hflat : (drafts.map l.dueOf).sum = (g.scopes.zipIdx.map l.due).sum := by
    have hzip := flatMap_zipIdx_drafts tile sits
    rw [List.drop_zero] at hzip
    rw [← hzip, List.map_flatMap, List.flatMap, List.sum_flatten, List.map_map]
    rfl
  have hdue := Ledger.sum_due_le g.scopes balanced 0
  have hpledges := g.sumBefore_pledges g.scopes.length
  have hpledged := countable.pledges
  simp only [Graph.sumBefore, List.take_length] at hdue hpledges
  omega

end Existence

namespace Plan

/-- A frame whose signals are a word has no tracker with more. -/
theorem exists_unreachable {p : Plan} (h : Count.total (p.groups.map (·.signals)) < UInt32.size) :
    ∃ us, p.unreachable = .ok us := by
  have hreach : ∀ k, ∃ w, p.reachable k = .ok w := by
    intro k
    have hsub : ((p.groups.filter (reaches k)).map (·.signals)).Sublist
        (p.groups.map (·.signals)) := List.filter_sublist.map _
    obtain ⟨w, hw, -⟩ := Count.exists_sum (Nat.lt_of_le_of_lt (Count.total_le_of_sublist hsub) h)
    exact ⟨w, hw⟩
  simp only [unreachable]
  generalize ((p.chain?.map (·.trackers)).getD []).zipIdx = trackers
  have heach : ∀ t ∈ trackers, ∃ r : Nat × UInt32 × UInt32,
      (do return (t.2, ← p.reachable t.2, t.1.required)) = Except.ok r := by
    intro t _
    obtain ⟨w, hw⟩ := hreach t.2
    rw [hw]
    exact ⟨_, rfl⟩
  obtain ⟨sums, hsums⟩ := exists_forall₂ heach
  rw [mapM_eq_ok_iff.2 hsums]
  exact ⟨_, rfl⟩

variable {g : Graph} {job : JobPolicy} {ledger? : Option Ledger} {drafts : List Draft}

/-- Each draft has its signals, and their sum is a word. -/
theorem exists_due (countable : g.Countable)
    (tile : Span.Tile 0 g.scopes.length (drafts.map Draft.span))
    (sits : ∀ d ∈ drafts, d.Sits g)
    (balanced : ∀ l, ledger? = some l →
      l.Balanced (g.sumBefore (·.sync.waits) g.scopes.length)
        (g.sumBefore (·.sync.signalFences.length) g.scopes.length)) :
    ∃ due : Draft → Nat, (∀ d ∈ drafts, ∃ n, signalsOf ledger? d = .ok n ∧ n.toNat = due d) ∧
      (drafts.map due).sum < UInt32.size := by
  cases hl : ledger? with
  | none => exact ⟨fun _ => 0, fun _ _ => ⟨0, rfl, rfl⟩, by simp⟩
  | some l =>
    have hfits := sum_dueOf_lt tile sits countable (balanced l hl)
    refine ⟨l.dueOf, fun d hd => Ledger.exists_accounts ?_, hfits⟩
    have hle := List.single_le_sum (fun n _ => Nat.zero_le n) _
      (List.mem_map_of_mem (f := l.dueOf) hd)
    exact Nat.lt_of_le_of_lt hle hfits

/-- The groups have the signals of their drafts. -/
theorem total_signals {groups : List Group} {due : Draft → Nat}
    (follows : List.Forall₂ (Group.Follows ledger?) drafts.zipIdx groups)
    (hdue : ∀ d ∈ drafts, ∃ n, signalsOf ledger? d = .ok n ∧ n.toNat = due d) :
    Count.total (groups.map (·.signals)) = (drafts.map due).sum := by
  have hall := forall₂_drafts follows
  clear follows
  induction hall with
  | nil => rfl
  | @cons d G _ _ hd _ ih =>
    rcases hd with ⟨k, hk⟩
    obtain ⟨n, hn, hval⟩ := hdue d List.mem_cons_self
    rw [hk.signals] at hn
    cases hn
    rw [List.map_cons, Count.total, hval, ih fun d' hd' => hdue d' (List.mem_cons_of_mem _ hd'),
      List.map_cons, List.sum_cons]

/-- **Drafts that cut a built graph make a plan** whose groups follow them. -/
theorem exists_ofDrafts (job : JobPolicy) (built : g.Built) (countable : g.Countable)
    (tile : Span.Tile 0 g.scopes.length (drafts.map Draft.span))
    (sits : ∀ d ∈ drafts, d.Sits g)
    (balanced : ∀ l, ledger? = some l →
      l.Balanced (g.sumBefore (·.sync.waits) g.scopes.length)
        (g.sumBefore (·.sync.signalFences.length) g.scopes.length)) :
    ∃ p, ofDrafts job ledger? drafts = .ok p ∧
      List.Forall₂ (Group.Follows ledger?) drafts.zipIdx p.groups ∧
        ∃ us, p.unreachable = .ok us := by
  obtain ⟨due, hdue, hfits⟩ := exists_due countable tile sits balanced
  obtain ⟨groups, hgroups⟩ := exists_groupsOf job sits (nonempty_of_tile tile)
    fun d hd => (hdue d hd).imp fun _ hn => hn.1
  have follows := groupsOf_follows hgroups
  have hids : Contiguous (groups.map (·.id)) := by
    apply built.contiguous.of_sublist
    rw [← flatMap_members_drafts tile sits, ← flatMap_members follows]
    exact map_id_sublist follows
  refine ⟨⟨groups, Handler.ofRuns groups, ledger?.map (·.chain),
    (ledger?.map (·.presentations)).getD []⟩, ?_, follows, exists_unreachable ?_⟩
  · rw [ofDrafts, hgroups]
    simp only [bind, Except.bind, Handler.exists_ofGroups hids]
    rfl
  · rw [total_signals follows hdue]
    exact hfits

/-- What every plan of an open frame is: its groups are numbered by their positions and
gathered into handlers with different numbers, and its signals are a word that no
tracker has had a part of. -/
structure Formed (p : Plan) : Prop where
  index : ∀ (k : Nat) (G : Group), p.groups[k]? = some G → G.index = k
  formed : ∀ G ∈ p.groups, G.Formed
  runs : p.handlers = Handler.ofRuns p.groups
  distinct : (p.handlers.map (·.id)).Nodup
  total : Count.total (p.groups.map (·.signals)) < UInt32.size
  blank : ∀ chain, p.chain? = some chain → ∀ t ∈ chain.trackers, t.signalled = 0

/-- A tracker that all groups signal gets all signals of the frame. -/
theorem total_lt_of_reachable {p : Plan} {k : Nat} {w : UInt32} (h : p.reachable k = .ok w)
    (hall : ∀ G ∈ p.groups, reaches k G = true) :
    Count.total (p.groups.map (·.signals)) < UInt32.size := by
  rw [reachable, List.filter_eq_self.2 hall] at h
  rw [← Count.sum_eq_ok_iff.1 h]
  exact w.toNat_lt

/-- Once the trackers have been summed up, the first one has. -/
theorem exists_reachable {p : Plan} {chain : Chain} (hchain : p.chain? = some chain)
    (hne : chain.trackers ≠ []) {us : List (Nat × UInt32 × UInt32)}
    (hus : p.unreachable = .ok us) : ∃ w, p.reachable 0 = .ok w := by
  obtain ⟨t, ts, htrackers⟩ := List.exists_cons_of_ne_nil hne
  simp only [unreachable, hchain, Option.map_some, Option.getD_some, htrackers,
    List.zipIdx_cons, List.mapM_cons] at hus
  cases hw : p.reachable 0 with
  | error fault => rw [hw] at hus; cases hus
  | ok w => exact ⟨w, rfl⟩

/-- What a plan takes over from its drafts and its ledger. -/
theorem of_ofDrafts {p : Plan} (h : ofDrafts job ledger? drafts = .ok p) :
    groupsOf job ledger? drafts = .ok p.groups ∧ Handler.ofGroups p.groups = .ok p.handlers ∧
      p.chain? = ledger?.map (·.chain) ∧
        p.presentations = (ledger?.map (·.presentations)).getD [] := by
  unfold ofDrafts at h
  cases hgroups : groupsOf job ledger? drafts with
  | error fault => rw [hgroups] at h; cases h
  | ok groups =>
    cases hhandlers : Handler.ofGroups groups with
    | error fault => simp only [hgroups, bind, Except.bind, hhandlers] at h; cases h
    | ok handlers =>
      simp only [hgroups, bind, Except.bind, hhandlers, pure, Except.pure, Except.ok.injEq] at h
      subst h
      exact ⟨rfl, hhandlers, rfl, rfl⟩

/-- A plan of drafts with handles is formed if its trackers have been summed up. -/
theorem formed_of_ofDrafts {p : Plan} (h : ofDrafts job ledger? drafts = .ok p)
    (linked : ∀ l, ledger? = some l →
      l.Unsignalled ∧ ∀ d ∈ drafts, d.handle?.any (0 < ·.reach))
    {us : List (Nat × UInt32 × UInt32)} (hus : p.unreachable = .ok us) : p.Formed := by
  obtain ⟨hgroups, hhandlers, hchain, -⟩ := of_ofDrafts h
  have follows := groupsOf_follows hgroups
  obtain ⟨hcheck, hruns⟩ := Handler.ofGroups_eq_ok_iff.1 hhandlers
  have hids := (Handler.checkIds_eq_ok_iff.1 hcheck).1
  rw [← hruns] at hids
  have hdrafts : ∀ G ∈ p.groups, ∃ d ∈ drafts, ∃ k, Group.Follows ledger? (d, k) G :=
    fun G hG => exists_draft follows hG
  refine ⟨fun k G hG => index_of_follows follows hG, ?_, hruns, hids, ?_, ?_⟩
  · intro G hG
    obtain ⟨d, -, k, hd⟩ := hdrafts G hG
    exact hd.formed
  · cases hl : ledger? with
    | none =>
      have hzero : ∀ G ∈ p.groups, G.signals = 0 := by
        intro G hG
        obtain ⟨d, -, k, hd⟩ := hdrafts G hG
        have hsignals := hd.signals
        rw [hl] at hsignals
        exact (Except.ok.inj hsignals).symm
      rw [List.map_congr_left hzero, List.map_const', Count.total_eq_sum]
      simp
    | some l =>
      obtain ⟨hblank, hhandles⟩ := linked l hl
      -- all groups signal the first tracker
      obtain ⟨w, hw⟩ := exists_reachable (by rw [hchain, hl, Option.map_some]) hblank.some hus
      apply total_lt_of_reachable hw
      intro G hG
      obtain ⟨d, hd, k, hfollows⟩ := hdrafts G hG
      rw [reaches, hfollows.handle]
      exact hhandles d hd
  · intro chain hsome
    rw [hchain] at hsome
    obtain ⟨l, hl, rfl⟩ := Option.map_eq_some_iff.1 hsome
    exact (linked l hl).1.blank

/-! ## Plans of graphs -/

variable {σ : Type} {s : σ} {c : Config}

/-- A merging plan is made of a walk over the scopes of the frame. -/
theorem ofGraph_walks (g : Graph) :
    (ofGraph c .parallel g : Step σ Plan).Permits s fun p s' => ∃ ts m,
      c.site g.scopes = .ok ts ∧ ts.map (·.toPlacedScope) = g.scopes ∧
        (Merge.ofScopes ts : Step σ Merge).Yields s m s' ∧
          ofDrafts SchedulePolicy.parallel.job m.ledger? m.drafts = .ok p := by
  unfold ofGraph
  rw [Step.permits_bind, Step.permits_ofError]
  intro ts hts
  have hscopes : ts.map (·.toPlacedScope) = g.scopes.map id :=
    (map_eq_of_forall₂ (Config.site_eq_ok_iff.1 hts) fun _ _ ht => ht.scope.symm).symm
  rw [List.map_id] at hscopes
  rw [Step.permits_bind]
  intro m s' hm
  rw [Step.permits_ofFault]
  exact fun p hp => ⟨ts, m, hts, hscopes, hm, hp⟩

/-- A plan in lockstep is made of the scopes of the frame. -/
theorem ofGraph_lockstep (g : Graph) :
    (ofGraph c .lockstep g : Step σ Plan).Permits s fun p s' => s' = s ∧
      ofDrafts SchedulePolicy.lockstep.job none (lockstep 0 none g.scopes) = .ok p := by
  unfold ofGraph
  rw [Step.permits_bind, Step.permits_ofError]
  intro _ _
  simp only
  rw [Step.permits_ofFault]
  exact fun p hp => ⟨rfl, hp⟩

/-- Every plan of a graph whose trackers can be summed up is formed. -/
theorem ofGraph_formed (policy : SchedulePolicy) (g : Graph) :
    (ofGraph c policy g : Step σ Plan).Permits s fun p s' => s' = s ∧
      ∀ us, p.unreachable = .ok us → p.Formed := by
  cases policy with
  | parallel =>
    refine (ofGraph_walks g).mono fun p s' hp => ?_
    obtain ⟨ts, m, -, -, hm, hp⟩ := hp
    obtain ⟨hs, hlinked⟩ := Merge.ofScopes_linked ts m s' hm
    exact ⟨hs, fun us hus => formed_of_ofDrafts hp hlinked hus⟩
  | lockstep =>
    refine (ofGraph_lockstep g).mono fun p s' hp => ⟨hp.1, fun us hus => ?_⟩
    exact formed_of_ofDrafts hp.2 (by simp) hus

/-- What the plan of a graph makes of its drafts. -/
structure Drafted (g : Graph) (drafts : List Draft) (p : Plan) : Prop where
  tile : Span.Tile 0 g.scopes.length (drafts.map Draft.span)
  sits : ∀ d ∈ drafts, d.Sits g
  follows : ∃ ledger?, List.Forall₂ (Group.Follows ledger?) drafts.zipIdx p.groups
  unreachable : ∃ us, p.unreachable = .ok us

variable {g : Graph}

/-- **A merging plan exists** for every graph that is built and counted. -/
theorem ofGraph_parallel (built : g.Built) (countable : g.Countable)
    (checked : c.check = .ok ()) (covers : c.Covers g) :
    (ofGraph c .parallel g : Step σ Plan).Ensures s fun p s' => s' = s ∧
      ∃ drafts, Drafted g drafts p ∧ ∀ d ∈ drafts, d.Merged c g := by
  obtain ⟨ts, hsite, hts⟩ := covers.exists_site
  unfold ofGraph
  rw [Step.ensures_bind, Step.ensures_ofError]
  refine ⟨ts, hsite, ?_⟩
  simp only [Step.ensures_bind, Step.ensures_ofFault]
  apply (Merge.ofScopes_ensures hts checked countable).mono
  intro m s' hm
  rcases hm with ⟨rfl, tile, merged, balanced⟩
  have sits : ∀ d ∈ m.drafts, d.Sits g := fun d hd => (merged d hd).toSits
  obtain ⟨p, hp, follows, hus⟩ :=
    exists_ofDrafts SchedulePolicy.parallel.job built countable tile sits balanced
  exact ⟨p, hp, rfl, m.drafts, ⟨tile, sits, ⟨m.ledger?, follows⟩, hus⟩, merged⟩

/-- **A plan exists** under both policies. -/
theorem ofGraph_ensures (policy : SchedulePolicy) (built : g.Built) (countable : g.Countable)
    (checked : c.check = .ok ()) (covers : c.Covers g) :
    (ofGraph c policy g : Step σ Plan).Ensures s fun p s' => s' = s ∧
      ∃ drafts, Drafted g drafts p := by
  cases policy with
  | parallel =>
    apply (ofGraph_parallel built countable checked covers).mono
    intro p s' hp
    rcases hp with ⟨hs, drafts, hdrafts, -⟩
    exact ⟨hs, drafts, hdrafts⟩
  | lockstep =>
    obtain ⟨ts, hsite, -⟩ := covers.exists_site
    obtain ⟨tile, sits⟩ := lockstep_sits (Nat.zero_le g.scopes.length) rfl none
    rw [List.drop_zero] at tile sits
    have balanced : ∀ l, (none : Option Ledger) = some l →
        l.Balanced (g.sumBefore (·.sync.waits) g.scopes.length)
          (g.sumBefore (·.sync.signalFences.length) g.scopes.length) := by
      intro l hl
      cases hl
    obtain ⟨p, hp, follows, hus⟩ :=
      exists_ofDrafts SchedulePolicy.lockstep.job built countable tile sits balanced
    unfold ofGraph
    rw [Step.ensures_bind, Step.ensures_ofError]
    refine ⟨ts, hsite, ?_⟩
    simp only
    rw [Step.ensures_ofFault]
    exact ⟨p, hp, rfl, _, tile, sits, ⟨none, follows⟩, hus⟩

end Plan

/-! ## A short frame -/

/-- A configuration of one device that tracks presentations. -/
def Config.plain : Config :=
  .ofList [(⟨0⟩, { tracking := true })]

/-- Two cheap scopes, one that costs more than a list, and a presentation. -/
def Graph.short : Graph :=
  ((addAll [
    { name := "shadow", items := 40 },
    { name := "sky", items := 10, sync := { signalFences := [⟨1⟩] } },
    { name := "terrain", items := 600 },
    { name := "overlay", items := 5, sync := { swapchains := [⟨1⟩] } }]).run {}).state

theorem Graph.short_built : short.Built :=
  Built.empty.addAll _ () _ ⟨rfl, rfl⟩

theorem Graph.short_countable : short.Countable :=
  ⟨by decide, by decide, by decide⟩

theorem Config.plain_covers : plain.Covers Graph.short := by
  unfold Covers
  decide

end FrameSchedule
