import FrameSchedule.Proofs.Lifecycle

/-!
# How a graph numbers scopes and groups

A scope has the number of its position.  Its group is the one that it asks for, which is below
`GroupId.implicitBase`, or else the next of the groups from there on (`Graph.Numbered`).

A copy of a scope asks for the group that the scope has.  So a copy of a scope that was given
its group is refused, as is a scope whose group does not go on, or one that comes after the last
group number (`Graph.Refuses`).  A refusal leaves the graph as it was.
-/

namespace FrameSchedule

namespace Graph

/-! ## Refusals -/

/-- Why a graph refuses a scope, and with which fault. -/
inductive Refuses (g : Graph) (scope : Scope) : Fault → Prop
  /-- The group is one of those that the graph hands out. -/
  | reserved {group : GroupId} (asked : scope.group? = some group)
      (high : GroupId.implicitBase ≤ group.word.toNat) : Refuses g scope (.reservedGroup group)
  /-- The group is in the graph, and is not the last one. -/
  | scattered {group : GroupId} (asked : scope.group? = some group)
      (low : group.word.toNat < GroupId.implicitBase)
      (used : ∃ s ∈ g.scopes, s.group = group)
      (last : ∀ s, g.scopes.getLast? = some s → s.group ≠ group) :
      Refuses g scope (.scatteredGroup group scope.name)
  /-- All groups have been handed out. -/
  | exhausted (asked : scope.group? = none)
      (full : UInt32.size ≤ GroupId.implicitBase + g.implicitGroups.toNat) :
      Refuses g scope .addOverflow

variable {g : Graph} {scope : Scope} {fault : Fault}

theorem admits_eq_false_iff {group : GroupId} :
    g.admits group = false ↔ (∃ s ∈ g.scopes, s.group = group) ∧
      ∀ s, g.scopes.getLast? = some s → s.group ≠ group := by
  simp only [admits, Bool.or_eq_false_iff, decide_eq_false_iff_not, List.all_eq_false,
    decide_eq_true_eq, not_not, Option.map_eq_some_iff, not_exists, not_and, ne_eq]
  exact and_comm

/-- The next group is missing when all have been handed out. -/
theorem nextGroup_eq_error_iff :
    g.nextGroup = .error fault ↔
      UInt32.size ≤ GroupId.implicitBase + g.implicitGroups.toNat ∧ fault = .addOverflow := by
  have hadd : g.nextGroup = .error fault ↔
      Count.add (UInt32.ofNat GroupId.implicitBase) g.implicitGroups = .error fault := by
    unfold nextGroup
    cases Count.add (UInt32.ofNat GroupId.implicitBase) g.implicitGroups <;> simp [Except.map]
  have hbase : (UInt32.ofNat GroupId.implicitBase).toNat = GroupId.implicitBase := by decide
  have hsize : 0 < UInt32.size := by decide
  rw [hadd, Count.add_eq_error_iff, hbase, Count.largest]
  exact and_congr_left fun _ => by omega

theorem place_eq_error_iff : g.place scope = .error fault ↔ g.Refuses scope fault := by
  constructor
  · intro h
    unfold place at h
    split at h
    · rename_i group hasked
      unfold joinGroup at h
      split at h
      · rename_i hhigh
        cases h
        exact .reserved hasked hhigh
      · rename_i hlow
        split at h
        · cases h
        · rename_i hadmits
          cases h
          obtain ⟨hused, hlast⟩ := admits_eq_false_iff.1 (Bool.eq_false_iff.2 hadmits)
          exact .scattered hasked (Nat.lt_of_not_le hlow) hused hlast
    · rename_i hasked
      unfold openGroup at h
      cases hnext : g.nextGroup with
      | ok group =>
        rw [hnext] at h
        cases h
      | error f =>
        rw [hnext] at h
        cases h
        obtain ⟨hfull, rfl⟩ := nextGroup_eq_error_iff.1 hnext
        exact .exhausted hasked hfull
  · intro h
    unfold place
    cases h with
    | reserved hasked hhigh =>
      simp only [hasked, joinGroup]
      rw [if_pos hhigh]
    | scattered hasked hlow hused hlast =>
      simp only [hasked, joinGroup]
      rw [if_neg (Nat.not_le_of_lt hlow), if_neg]
      exact Bool.eq_false_iff.1 (admits_eq_false_iff.2 ⟨hused, hlast⟩)
    | exhausted hasked hfull =>
      simp only [hasked, openGroup]
      rw [nextGroup_eq_error_iff.2 ⟨hfull, rfl⟩]
      rfl

/-! ## Revisions -/

/-- What may be done with a graph whose scopes can be copied. -/
inductive Revision where
  | edit (e : Edit)
  | again (id : ScopeId)
  deriving DecidableEq

namespace Revision

def step : Revision → Step Graph Unit
  | .edit e => Graph.edit e
  | .again id => discard (addAgain id)

/-- The scope that is to be added to the graph. -/
def scope? (g : Graph) : Revision → Option Scope
  | .edit (.add scope) => some scope
  | .edit .clear => none
  | .again id => (g.scope? id).map (·.again)

/-- The graph refuses the scope that is to be added to it. -/
def Blocked (g : Graph) (r : Revision) (stop : Stop) : Prop :=
  ∃ scope fault, r.scope? g = some scope ∧ g.Refuses scope fault ∧ stop = .fault fault

/-- What a revision has made of the graph. -/
def Makes (g : Graph) (r : Revision) (g' : Graph) : Prop :=
  match r.scope? g with
  | some scope => g.place scope = .ok g'
  | none => g' = g ∨ g' = {}

theorem leaves_of_scope {r : Revision} (hscope : r.scope? g = some scope) :
    (add scope).Leaves g (fun _ => r.Makes g) fun stop g' => g' = g ∧ r.Blocked g stop := by
  apply (add_leaves g scope).mono
  · intro _ g' hg'
    rw [Makes, hscope]
    exact hg'.2
  · intro stop g' hg'
    obtain ⟨hsame, fault, rfl, hplace⟩ := hg'
    exact ⟨hsame, scope, fault, hscope, place_eq_error_iff.1 hplace, rfl⟩

/-- A revision places its scope, if it has one. -/
theorem step_leaves (g : Graph) (r : Revision) :
    r.step.Leaves g (fun _ => r.Makes g) fun stop g' => g' = g ∧ r.Blocked g stop := by
  cases r with
  | edit e =>
    cases e with
    | clear => exact .inr rfl
    | add scope => exact Step.leaves_discard.2 (leaves_of_scope rfl)
  | again id =>
    rw [step, Step.leaves_discard, addAgain, Step.leaves_bind, Step.leaves_read]
    cases hfound : g.scope? id with
    | none =>
      have hscope : scope? g (.again id) = none := by
        rw [scope?, hfound]
        rfl
      show Makes g (.again id) g
      rw [Makes, hscope]
      exact .inl rfl
    | some s =>
      have hscope : scope? g (.again id) = some s.again := by
        rw [scope?, hfound]
        rfl
      show (some <$> add s.again).Leaves g _ _
      rw [← bind_pure_comp, Step.leaves_bind]
      exact leaves_of_scope hscope

end Revision

/-- The graph that revisions make of an empty one, whatever they end in. -/
def revised (rs : List Revision) : Graph :=
  rs.foldl (fun g r => (r.step.run g).state) {}

theorem Built.revise (h : g.Built) (r : Revision) : (r.step.run g).state.Built := by
  apply Step.Leaves.state
  apply (r.step_leaves g).mono
  · intro _ g' hg'
    unfold Revision.Makes at hg'
    split at hg'
    · exact .place h hg'
    · rcases hg' with rfl | rfl
      · exact h
      · exact .empty
  · exact fun _ g' hg' => hg'.1 ▸ h

theorem revised_built (rs : List Revision) : (revised rs).Built :=
  List.foldlRecOn rs _ .empty fun _ h r _ => h.revise r

/-! ## Numbers -/

namespace Built

/-- A scope has the group that it asks for. -/
theorem explicit (h : g.Built) {s : PlacedScope} (hs : s ∈ g.scopes) {group : GroupId}
    (hasked : s.group? = some group) :
    s.group = group ∧ group.word.toNat < GroupId.implicitBase := by
  induction h with
  | empty => cases hs
  | @place g g' scope _ hp ih =>
    obtain ⟨joined, hscopes, hcases⟩ := place_cases hp
    rw [hscopes, List.mem_append, List.mem_singleton] at hs
    rcases hs with hs | rfl
    · exact ih hs
    · rcases hcases with ⟨hjoined, hlow, -, -⟩ | ⟨hnone, -, -⟩
      · obtain rfl : joined = group := Option.some_inj.1 (hjoined.symm.trans hasked)
        exact ⟨rfl, hlow⟩
      · cases hnone.symm.trans hasked

/-- The groups that were handed out, in order: the first ones from `implicitBase` on. -/
theorem consecutive (h : g.Built) :
    (g.scopes.filter (·.group?.isNone)).map (·.group.word.toNat) =
      (List.range g.implicitGroups.toNat).map (GroupId.implicitBase + ·) := by
  induction h with
  | empty => rfl
  | @place g g' scope _ hp ih =>
    obtain ⟨group, hscopes, hcases⟩ := place_cases hp
    rw [hscopes, List.filter_append, List.map_append, ih]
    rcases hcases with ⟨hasked, -, -, himp⟩ | ⟨hnone, hgroup, himp⟩
    · simp [himp, hasked]
    · simp [himp, hnone, hgroup, List.range_succ]

/-- A group that was handed out is one of those from `implicitBase` on. -/
theorem assigned (h : g.Built) {s : PlacedScope} (hs : s ∈ g.scopes) (hnone : s.group? = none) :
    GroupId.implicitBase ≤ s.group.word.toNat := by
  have hmem : s.group.word.toNat ∈
      (g.scopes.filter (·.group?.isNone)).map (·.group.word.toNat) :=
    List.mem_map_of_mem (List.mem_filter.2 ⟨hs, by rw [hnone]; rfl⟩)
  rw [h.consecutive] at hmem
  obtain ⟨i, -, hi⟩ := List.mem_map.1 hmem
  omega

end Built

/-- What the numbers of a graph's scopes and groups are. -/
structure Numbered (g : Graph) : Prop where
  /-- A scope's number is the word of its position. -/
  id : ∀ (i : Nat) (s : PlacedScope), g.scopes[i]? = some s → s.id = ⟨UInt32.ofNat i⟩
  contiguous : Contiguous (g.scopes.map (·.group))
  explicit : ∀ s ∈ g.scopes, ∀ group, s.group? = some group →
    s.group = group ∧ group.word.toNat < GroupId.implicitBase
  assigned : ∀ s ∈ g.scopes, s.group? = none → GroupId.implicitBase ≤ s.group.word.toNat
  distinct : ((g.scopes.filter (·.group?.isNone)).map (·.group)).Nodup
  apart : ∀ s ∈ g.scopes, ∀ t ∈ g.scopes, s.group? = none → t.group?.isSome → s.group ≠ t.group
  /-- Groups are handed out one after the other. -/
  counted : (g.scopes.filter (·.group?.isNone)).map (·.group.word.toNat) =
    (List.range g.implicitGroups.toNat).map (GroupId.implicitBase + ·)

theorem Built.numbered (h : g.Built) : g.Numbered where
  id _ _ hs := h.id_at hs
  contiguous := h.contiguous
  explicit _ hs _ hasked := h.explicit hs hasked
  assigned _ hs hnone := h.assigned hs hnone
  distinct := by
    have hnumbers : ((g.scopes.filter (·.group?.isNone)).map (·.group.word.toNat)).Nodup := by
      rw [h.consecutive]
      exact List.nodup_range.map fun i j hij => Nat.add_left_cancel hij
    apply List.Nodup.of_map (fun group : GroupId => group.word.toNat)
    rwa [List.map_map]
  apart s hs t ht hnone hasked heq := by
    obtain ⟨group, hgroup⟩ := Option.isSome_iff_exists.1 hasked
    obtain ⟨htgroup, hlow⟩ := h.explicit ht hgroup
    have hhigh := h.assigned hs hnone
    rw [heq, htgroup] at hhigh
    omega
  counted := h.consecutive

/-- **The numbers of a graph.**  Whatever is done with a graph, and however often it refuses,
its scopes and groups are numbered in order, and the scopes of one group stand side by side.
The next scope, new or a copy, is added at the end if nothing speaks against it, and is refused
otherwise: the refusal leaves the graph as it was. -/
theorem revised_numbered (rs : List Revision) :
    (revised rs).Numbered ∧ ∀ r : Revision,
      r.step.Leaves (revised rs)
        (fun _ g => (∀ stop, ¬ r.Blocked (revised rs) stop) ∧
          ∀ scope, r.scope? (revised rs) = some scope → ∃ group, g.scopes =
            (revised rs).scopes ++ [{ scope with id := (revised rs).nextId, group := group }])
        fun stop g => g = revised rs ∧ r.Blocked (revised rs) stop := by
  refine ⟨(revised_built rs).numbered, fun r => ?_⟩
  apply (r.step_leaves (revised rs)).mono
  · intro _ g hg
    constructor
    · intro stop hstop
      obtain ⟨scope, fault, hscope, hrefused, -⟩ := hstop
      rw [Revision.Makes, hscope] at hg
      cases hg.symm.trans (place_eq_error_iff.2 hrefused)
    · intro scope hscope
      rw [Revision.Makes, hscope] at hg
      obtain ⟨group, hscopes, -⟩ := place_cases hg
      exact ⟨group, hscopes⟩
  · exact fun _ _ hg => hg

end Graph

end FrameSchedule
