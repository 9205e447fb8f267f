import FrameSchedule.Proofs.Frames

/-!
# Complete frames

Read in order, the lists of all submissions of a frame visit its scopes in order, and
record of each scope a row of item ranges that tile its items (`Visits`).  The scopes of
a group, of a handler and of a frame are visited one after the other, so what holds of
one group holds of the whole frame (`Scheduler.start_record_complete`).
-/

namespace FrameSchedule

/-- A scope and the items of it that went into a list. -/
abbrev Entry := ScopeId × ItemRange

/-! ## Ranges of items -/

namespace ItemRange

/-- The ranges, in order, go from `a` to `b` without a gap or an overlap. -/
def Tiles : Nat → Nat → List ItemRange → Prop
  | a, b, [] => a = b
  | a, b, r :: rs => r.start.toNat = a ∧ a ≤ r.stop.toNat ∧ Tiles r.stop.toNat b rs

/-- The parts of a scope from one on tile the rest of its items. -/
theorem tiles_slices (items : UInt32) {count : Nat} (hcount : count < UInt32.size)
    (hpos : 0 < count) (k i : Nat) (hi : i + k = count) :
    Tiles (cut items i count).toNat items.toNat
      ((List.range' i k).map fun j => slice items j count) := by
  induction k generalizing i with
  | zero =>
    obtain rfl : i = count := hi
    rw [List.range'_zero, List.map_nil, Tiles, toNat_cut (Nat.le_refl i) hcount]
    exact Nat.mul_div_cancel _ hpos
  | succ k ih =>
    have hrest := ih (i + 1) (by omega)
    rw [List.range'_succ, List.map_cons]
    refine ⟨rfl, ?_, hrest⟩
    show (cut items i count).toNat ≤ (cut items (i + 1) count).toNat
    rw [toNat_cut (by omega) hcount, toNat_cut (by omega) hcount]
    exact Nat.div_le_div_right (Nat.mul_le_mul_left _ (Nat.le_succ i))

end ItemRange

/-! ## Visits -/

/-- The entries visit the scopes in order: each of them has a row of entries whose
ranges tile its items. -/
def Visits : List PlacedScope → List Entry → Prop
  | [], es => es = []
  | s :: ss, es => ∃ rs rest, es = rs.map (s.id, ·) ++ rest ∧ rs ≠ [] ∧
      ItemRange.Tiles 0 s.items.toNat rs ∧ Visits ss rest

namespace Visits

variable {ss : List PlacedScope} {es : List Entry} {s : PlacedScope}

theorem append {ss' : List PlacedScope} {es' : List Entry} (h : Visits ss es)
    (h' : Visits ss' es') : Visits (ss ++ ss') (es ++ es') := by
  induction ss generalizing es with
  | nil =>
    obtain rfl : es = [] := h
    exact h'
  | cons s ss ih =>
    rcases h with ⟨rs, rest, rfl, hne, htiles, hrest⟩
    exact ⟨rs, rest ++ es', List.append_assoc _ _ _, hne, htiles, ih hrest⟩

/-- Runs of visits make up a visit. -/
theorem flatMap {α : Type} {xs : List α} {scopes : α → List PlacedScope} {entries : α → List Entry}
    (h : ∀ x ∈ xs, Visits (scopes x) (entries x)) :
    Visits (xs.flatMap scopes) (xs.flatMap entries) := by
  induction xs with
  | nil => exact rfl
  | cons x xs ih =>
    rw [List.flatMap_cons, List.flatMap_cons]
    exact (h x List.mem_cons_self).append (ih fun y hy => h y (List.mem_cons_of_mem x hy))

/-- The scopes visited are those of the entries. -/
theorem mem_iff (h : Visits ss es) {id : ScopeId} :
    id ∈ es.map (·.1) ↔ id ∈ ss.map (·.id) := by
  induction ss generalizing es with
  | nil =>
    obtain rfl : es = [] := h
    exact Iff.rfl
  | cons s ss ih =>
    rcases h with ⟨rs, rest, rfl, hne, -, hrest⟩
    have hrow : id ∈ (rs.map (s.id, ·)).map (·.1) ↔ id = s.id := by
      rw [List.map_map, List.mem_map]
      constructor
      · intro hr
        rcases hr with ⟨r, -, rfl⟩
        rfl
      · intro heq
        subst heq
        obtain ⟨r, hr⟩ := List.exists_mem_of_ne_nil rs hne
        exact ⟨r, hr, rfl⟩
    rw [List.map_append, List.mem_append, hrow, ih hrest, List.map_cons, List.mem_cons]

/-- Scopes with ascending numbers are visited in this order. -/
theorem pairwise (h : Visits ss es)
    (hsorted : ss.Pairwise fun s s' => s.id.word.toNat < s'.id.word.toNat) :
    es.Pairwise fun e e' => e.1.word.toNat ≤ e'.1.word.toNat := by
  induction ss generalizing es with
  | nil =>
    obtain rfl : es = [] := h
    exact List.Pairwise.nil
  | cons s ss ih =>
    rcases h with ⟨rs, rest, rfl, -, -, hrest⟩
    obtain ⟨hfirst, hsorted⟩ := List.pairwise_cons.1 hsorted
    refine List.pairwise_append.2 ⟨?_, ih hrest hsorted, fun e he e' he' => ?_⟩
    · rw [List.pairwise_map]
      exact List.pairwise_of_forall fun _ _ => Nat.le_refl _
    · obtain ⟨r, -, rfl⟩ := List.mem_map.1 he
      obtain ⟨s', hs', hid⟩ := List.mem_map.1 (hrest.mem_iff.1 (List.mem_map_of_mem he'))
      rw [← hid]
      exact Nat.le_of_lt (hfirst s' hs')

/-- The entries of one scope are its row. -/
theorem tiles_filter (h : Visits ss es) (hnodup : (ss.map (·.id)).Nodup) (hs : s ∈ ss) :
    ItemRange.Tiles 0 s.items.toNat ((es.filter (·.1 = s.id)).map (·.2)) := by
  induction ss generalizing es with
  | nil => cases hs
  | cons s' ss ih =>
    rcases h with ⟨rs, rest, rfl, -, htiles, hrest⟩
    obtain ⟨hnew, hnodup⟩ : s'.id ∉ ss.map (·.id) ∧ (ss.map (·.id)).Nodup :=
      List.nodup_cons.1 hnodup
    rw [List.filter_append, List.map_append]
    rcases List.mem_cons.1 hs with rfl | hs
    · have hothers : rest.filter (·.1 = s.id) = [] := by
        refine List.filter_eq_nil_iff.2 fun e he hid => hnew ?_
        rw [← of_decide_eq_true hid]
        exact hrest.mem_iff.1 (List.mem_map_of_mem he)
      have hown : (rs.map (s.id, ·)).filter (·.1 = s.id) = rs.map (s.id, ·) :=
        List.filter_eq_self.2 fun e he => by
          obtain ⟨r, -, rfl⟩ := List.mem_map.1 he
          exact decide_eq_true rfl
      have hranges : (rs.map (s.id, ·)).map (·.2) = rs := by
        rw [List.map_map]
        exact List.map_id rs
      rw [hothers, hown, hranges, List.map_nil, List.append_nil]
      exact htiles
    · have hother : (rs.map (s'.id, ·)).filter (·.1 = s.id) = [] := by
        refine List.filter_eq_nil_iff.2 fun e he hid => hnew ?_
        obtain ⟨r, -, rfl⟩ := List.mem_map.1 he
        have hid : s'.id = s.id := of_decide_eq_true hid
        rw [hid]
        exact List.mem_map_of_mem hs
      rw [hother, List.map_nil, List.nil_append]
      exact ih hrest hnodup hs

/-- Of runs of visits with different scopes, one has the entries of a scope. -/
theorem countP_eq_one {α : Type} {xs : List α} {scopes : α → List PlacedScope}
    {entries : α → List Entry} (h : ∀ x ∈ xs, Visits (scopes x) (entries x))
    (hnodup : ((xs.flatMap scopes).map (·.id)).Nodup) {id : ScopeId}
    (hid : id ∈ (xs.flatMap scopes).map (·.id)) :
    xs.countP (fun x => id ∈ (entries x).map (·.1)) = 1 := by
  induction xs with
  | nil => cases hid
  | cons x xs ih =>
    have hx := h x List.mem_cons_self
    have hxs : ∀ y ∈ xs, Visits (scopes y) (entries y) :=
      fun y hy => h y (List.mem_cons_of_mem x hy)
    rw [List.flatMap_cons, List.map_append] at hnodup hid
    obtain ⟨-, hrest, hdisjoint⟩ := List.nodup_append.1 hnodup
    rw [List.countP_cons]
    by_cases hfirst : id ∈ (scopes x).map (·.id)
    · have hzero : xs.countP (fun x => id ∈ (entries x).map (·.1)) = 0 := by
        apply List.countP_eq_zero.2
        intro y hy hmem
        have hmem := (hxs y hy).mem_iff.1 (of_decide_eq_true hmem)
        refine hdisjoint id hfirst id ?_ rfl
        rw [List.map_flatMap]
        exact List.mem_flatMap.2 ⟨y, hy, hmem⟩
      rw [hzero, if_pos (decide_eq_true (hx.mem_iff.2 hfirst))]
    · have hothers := (List.mem_append.1 hid).resolve_left hfirst
      rw [ih hxs hrest hothers, if_neg]
      exact fun hmem => hfirst (hx.mem_iff.1 (of_decide_eq_true hmem))

end Visits

/-! ## What a frame records -/

/-- The entries of all lists of a submission, in order. -/
def Submission.recorded (s : Submission CommandList) : List Entry :=
  s.lists.flatMap (·.recorded)

/-- The entries of all lists of a group, in order. -/
def Group.entries (G : Group) : List Entry :=
  (List.range G.lists.toNat).flatMap fun i => (G.listOf i).recorded

/-- The lists of a group visit its scopes. -/
theorem Group.Formed.visits {G : Group} (h : G.Formed) : Visits G.members G.entries := by
  have hitems : ∀ i, (G.listOf i).recorded = G.members.map fun s => (s.id, G.items i s) :=
    fun _ => rfl
  simp only [Group.entries, hitems, Group.items, Group.lists]
  cases hkind : G.kind with
  | primary =>
    simp only [GroupKind.lists, UInt32.toNat_one, List.range_one, List.flatMap_singleton]
    generalize G.members = ss
    induction ss with
    | nil => exact rfl
    | cons s ss ih =>
      exact ⟨[.whole s.items], _, rfl, List.cons_ne_nil _ _, ⟨rfl, Nat.zero_le _, rfl⟩, ih⟩
  | secondary count =>
    obtain ⟨s, hs⟩ := h.single (by rw [Group.level, hkind]; rfl)
    have hlists := h.lists
    rw [Group.lists, hkind] at hlists
    have hpos : 0 < count.toNat := Count.pos_of_ne_zero hlists
    have htiles := ItemRange.tiles_slices s.items count.toNat_lt hpos count.toNat 0
      (Nat.zero_add _)
    rw [ItemRange.toNat_cut (Nat.zero_le _) count.toNat_lt, Nat.mul_zero, Nat.zero_div,
      ← List.range_eq_range'] at htiles
    simp only [hs, GroupKind.lists, List.map_cons, List.map_nil]
    refine ⟨(List.range count.toNat).map fun i => .slice s.items i count.toNat, [], ?_, ?_,
      htiles, rfl⟩
    · rw [List.append_nil, List.map_map]
      exact (List.map_eq_flatMap ..).symm
    · intro hnil
      have hlen := congrArg List.length hnil
      rw [List.length_map, List.length_range, List.length_nil] at hlen
      omega

/-- A handler submits the entries of its groups. -/
theorem Handler.recorded_submission (H : Handler) :
    H.submission.recorded = H.groups.flatMap (·.entries) := by
  have hall : ∀ (gs : List Group) (subpass : Nat),
      (keptFrom subpass gs).flatMap (·.recorded) = gs.flatMap (·.entries) := by
    intro gs
    induction gs with
    | nil => exact fun _ => rfl
    | cons G gs ih =>
      intro subpass
      have hrest := ih (subpass + 1)
      unfold keptFrom at hrest ⊢
      rw [List.zipIdx_cons, List.flatMap_cons, List.flatMap_append, hrest, List.flatMap_cons,
        List.flatMap_map]
      rfl
  exact hall H.groups 0

theorem Plan.Formed.visits {p : Plan} (h : p.Formed) {H : Handler} (hH : H ∈ p.handlers) :
    Visits H.members H.submission.recorded := by
  rw [Handler.recorded_submission, Handler.members]
  exact Visits.flatMap fun G hG => (h.formed G (h.mem_groups hH hG)).visits

/-- Submissions record every scope of a graph, once, in order and with all its items. -/
structure Graph.Completed (g : Graph) (subs : List (Submission CommandList)) : Prop where
  /-- The scopes are visited in order. -/
  ordered : (subs.flatMap (·.recorded)).Pairwise fun e e' => e.1.word.toNat ≤ e'.1.word.toNat
  /-- Nothing else is visited. -/
  known : ∀ e ∈ subs.flatMap (·.recorded), e.1.word.toNat < g.scopes.length
  /-- Each scope is in one submission. -/
  once : ∀ k < g.scopes.length,
    subs.countP (fun s => (⟨UInt32.ofNat k⟩ : ScopeId) ∈ s.recorded.map (·.1)) = 1
  /-- The items of each scope are recorded once, in order. -/
  items : ∀ k < g.scopes.length, ItemRange.Tiles 0 (g.scopeAt k).items.toNat
    (((subs.flatMap (·.recorded)).filter (·.1 = ⟨UInt32.ofNat k⟩)).map (·.2))

namespace Graph.Built

variable {g : Graph}

theorem toNat_id (built : g.Built) (hsize : g.scopes.length < UInt32.size) {k : Nat}
    {s : PlacedScope} (hs : g.scopes[k]? = some s) : s.id.word.toNat = k := by
  have hk := (List.getElem?_eq_some_iff.1 hs).1
  rw [built.id_at hs]
  exact UInt32.toNat_ofNat_of_lt' (Nat.lt_trans hk hsize)

/-- The numbers of the scopes ascend. -/
theorem pairwise_id (built : g.Built) (hsize : g.scopes.length < UInt32.size) :
    g.scopes.Pairwise fun s s' => s.id.word.toNat < s'.id.word.toNat := by
  apply List.pairwise_iff_getElem.2
  intro i j hi hj hij
  rw [built.toNat_id hsize (List.getElem?_eq_getElem hi),
    built.toNat_id hsize (List.getElem?_eq_getElem hj)]
  exact hij

theorem nodup_id (built : g.Built) (hsize : g.scopes.length < UInt32.size) :
    (g.scopes.map (·.id)).Nodup := by
  rw [List.Nodup, List.pairwise_map]
  refine (built.pairwise_id hsize).imp fun hlt heq => ?_
  rw [heq] at hlt
  exact Nat.lt_irrefl _ hlt

end Graph.Built

/-- The submissions of all handlers of a plan record the graph. -/
theorem Plan.Drafted.completed {g : Graph} {drafts : List Draft} {p : Plan}
    (h : Drafted g drafts p) (formed : p.Formed) (built : g.Built) (countable : g.Countable) :
    g.Completed (p.handlers.map (·.submission)) := by
  have hsize := countable.scopes
  have hnodup := built.nodup_id hsize
  have hmembers : p.handlers.flatMap (·.members) = g.scopes := by
    obtain ⟨ledger?, follows⟩ := h.follows
    rw [← flatMap_members_drafts h.tile h.sits, ← flatMap_members follows, ← formed.flatMap_groups,
      List.flatMap_assoc]
    rfl
  have hrecorded : (p.handlers.map (·.submission)).flatMap (·.recorded) =
      p.handlers.flatMap fun H => H.submission.recorded := List.flatMap_map ..
  have heach : ∀ H ∈ p.handlers, Visits H.members H.submission.recorded :=
    fun H hH => formed.visits hH
  have hvisits : Visits g.scopes (p.handlers.flatMap fun H => H.submission.recorded) := by
    rw [← hmembers]
    exact Visits.flatMap heach
  have hid : ∀ k (hk : k < g.scopes.length), (g.scopeAt k).id = ⟨UInt32.ofNat k⟩ :=
    fun k hk => built.id_at (Graph.getElem?_eq_scopeAt hk)
  refine ⟨?_, ?_, ?_, ?_⟩
  · rw [hrecorded]
    exact hvisits.pairwise (built.pairwise_id hsize)
  · rw [hrecorded]
    intro e he
    obtain ⟨s, hs, hids⟩ := List.mem_map.1 (hvisits.mem_iff.1 (List.mem_map_of_mem he))
    obtain ⟨k, hk⟩ := List.mem_iff_getElem?.1 hs
    rw [← hids, built.toNat_id hsize hk]
    exact (List.getElem?_eq_some_iff.1 hk).1
  · intro k hk
    rw [List.countP_map]
    apply Visits.countP_eq_one heach (by rw [hmembers]; exact hnodup)
    rw [hmembers, ← hid k hk]
    exact List.mem_map_of_mem (Graph.scopeAt_mem hk)
  · intro k hk
    rw [hrecorded, ← hid k hk]
    exact hvisits.tiles_filter hnodup (Graph.scopeAt_mem hk)

namespace Scheduler

/-- **A whole frame is complete.**  Opened and recorded on a backend that refuses nothing,
every graph that is built and counted has each of its handlers submit once, in order, and
the submissions record every scope with all its items. -/
theorem start_record_complete {s : Scheduler Memory MemoryList} {c : Config} {g : Graph}
    (hbackend : s.backend = Memory.backend) (hfailing : s.device.failing = false)
    (hconfig : s.config? = some c) (hidle : s.frame? = none) (built : g.Built)
    (countable : g.Countable) (checked : c.check = .ok ()) (covers : c.Covers g) :
    ∃ p t u f subs, (start g).Yields s p t ∧ record.Yields t () u ∧ u.frame? = some f ∧
      f.plan = p ∧ f.executed = p.handlers.map (fun _ => true) ∧
        u.device.submissions = s.device.submissions ++ subs ∧
          subs.map (·.group) = p.handlers.map (·.id) ∧ g.Completed subs := by
  obtain ⟨p, t, hstart, ⟨drafts, hdrafts⟩, rfl⟩ :=
    start_ensures hconfig hidle built countable checked covers
  have formed := (start_permits g s p _ hstart).1
  have begun : Live.Begun ⟨s.device, .ofPlan g p⟩ := begun_of_start formed hfailing
  obtain ⟨_, _, hrecord, rfl⟩ := record_ensures hbackend begun rfl
  refine ⟨p, _, _, _, p.handlers.map Handler.submission, hstart, hrecord, rfl, rfl,
    Live.executed_completed, Live.submissions_completed, ?_,
    hdrafts.completed formed built countable⟩
  rw [List.map_map]
  rfl

theorem start_record_complete_short :
    ∃ p t u f subs, (start .short).Yields plain p t ∧ record.Yields t () u ∧
      u.frame? = some f ∧ f.plan = p ∧ f.executed = p.handlers.map (fun _ => true) ∧
        u.device.submissions = plain.device.submissions ++ subs ∧
          subs.map (·.group) = p.handlers.map (·.id) ∧ Graph.short.Completed subs :=
  start_record_complete rfl rfl rfl rfl Graph.short_built Graph.short_countable rfl
    Config.plain_covers

end Scheduler

end FrameSchedule
