import FrameSchedule.Graph
import FrameSchedule.Proofs.Runs
import Mathlib.Algebra.Order.Ring.Nat
import Mathlib.Data.List.Basic

/-!
# Graphs that are built scope by scope

Every graph comes from the empty one by placing scopes (`Graph.Built`).  Such a graph
numbers its scopes by their positions, and the scopes of one group stand side by side:
`Contiguous` says so of the list of the groups, and passes to every sublist.
-/

namespace FrameSchedule

/-! ## Lists whose equal entries are adjacent -/

/-- Nothing else stands between two equal entries. -/
def Contiguous {α : Type} (l : List α) : Prop :=
  ∀ a b, [a, b, a].Sublist l → a = b

namespace Contiguous

variable {α : Type} {l m : List α} {x : α}

theorem nil : Contiguous ([] : List α) := by
  intro a b h
  cases h

theorem of_sublist (h : Contiguous l) (hm : m.Sublist l) : Contiguous m :=
  fun a b hab => h a b (hab.trans hm)

/-- Between equal entries stand equal ones. -/
theorem eq_of_getElem? (h : Contiguous l) {i j k : Nat} (hij : i < j) (hjk : j < k) {a b : α}
    (hi : l[i]? = some a) (hj : l[j]? = some b) (hk : l[k]? = some a) : a = b := by
  obtain ⟨hlt, rfl⟩ := List.getElem?_eq_some_iff.1 hi
  obtain ⟨hlt', rfl⟩ := List.getElem?_eq_some_iff.1 hj
  obtain ⟨hlt'', hk⟩ := List.getElem?_eq_some_iff.1 hk
  have hsub : [l[i], l[j], l[k]].Sublist l := by
    have hpairs : [(⟨i, hlt⟩ : Fin l.length), ⟨j, hlt'⟩, ⟨k, hlt''⟩].Pairwise (· < ·) := by
      simp [hij, hjk, Nat.lt_trans hij hjk]
    exact List.map_getElem_sublist hpairs
  rw [hk] at hsub
  exact h _ _ hsub

/-- A pattern that does not lie before the last entry ends with it. -/
theorem sublist_concat {a b : α} (h : [a, b, a].Sublist (l ++ [x])) :
    [a, b, a].Sublist l ∨ a = x ∧ [a, b].Sublist l := by
  obtain ⟨l₁, l₂, heq, h₁, h₂⟩ := List.sublist_append_iff.1 h
  rcases List.sublist_singleton.1 h₂ with rfl | rfl
  · left
    rw [heq, List.append_nil]
    exact h₁
  · right
    have hsplit : [a, b] ++ [a] = l₁ ++ [x] := heq
    obtain ⟨rfl, hx⟩ := List.append_inj' hsplit rfl
    exact ⟨List.head_eq_of_cons_eq hx, h₁⟩

theorem concat_of_not_mem (h : Contiguous l) (hx : x ∉ l) : Contiguous (l ++ [x]) := by
  intro a b hab
  rcases sublist_concat hab with hl | ⟨rfl, hl⟩
  · exact h a b hl
  · exact (hx (hl.subset List.mem_cons_self)).elim

theorem concat_of_getLast? (h : Contiguous l) (hx : l.getLast? = some x) :
    Contiguous (l ++ [x]) := by
  intro a b hab
  rcases sublist_concat hab with hl | ⟨rfl, hl⟩
  · exact h a b hl
  · obtain ⟨ys, rfl⟩ := List.getLast?_eq_some_iff.1 hx
    obtain ⟨l₁, l₂, heq, h₁, h₂⟩ := List.sublist_append_iff.1 hl
    rcases List.sublist_singleton.1 h₂ with rfl | rfl
    · rw [List.append_nil] at heq
      subst heq
      exact h a b (h₁.append (List.Sublist.refl [a]))
    · have hsplit : [a] ++ [b] = l₁ ++ [a] := heq
      obtain ⟨-, hb⟩ := List.append_inj' hsplit rfl
      exact (List.head_eq_of_cons_eq hb).symm

end Contiguous

/-! ## Placing scopes -/

namespace Graph

/-- The graphs that adding scopes leads to. -/
inductive Built : Graph → Prop
  | empty : Built {}
  | place {g g' : Graph} {scope : Scope} : Built g → g.place scope = .ok g' → Built g'

/-- All that placing a scope can do: it joins the group it asks for, which is below the implicit
ones and may go on, or it asks for none and opens the next implicit one. -/
theorem place_cases {g g' : Graph} {scope : Scope} (h : g.place scope = .ok g') :
    ∃ group, g'.scopes = g.scopes ++ [{ scope with id := g.nextId, group := group }] ∧
      (scope.group? = some group ∧ group.word.toNat < GroupId.implicitBase ∧
          g.admits group = true ∧ g'.implicitGroups = g.implicitGroups ∨
        scope.group? = none ∧ group.word.toNat = GroupId.implicitBase + g.implicitGroups.toNat ∧
          g'.implicitGroups.toNat = g.implicitGroups.toNat + 1) := by
  unfold place at h
  split at h
  · rename_i group hasked
    unfold joinGroup at h
    split at h
    · cases h
    · rename_i hlt
      split at h
      · rename_i hadmits
        cases h
        exact ⟨group, rfl, .inl ⟨hasked, by omega, hadmits, rfl⟩⟩
      · cases h
  · rename_i hasked
    unfold openGroup nextGroup at h
    cases hw : Count.add (UInt32.ofNat GroupId.implicitBase) g.implicitGroups with
    | error fault => rw [hw] at h; cases h
    | ok word =>
      rw [hw] at h
      cases h
      have hword := Count.add_eq_ok_iff.1 hw
      have hbase : (UInt32.ofNat GroupId.implicitBase).toNat = GroupId.implicitBase := by decide
      have hlt := word.toNat_lt
      rw [hbase] at hword
      refine ⟨⟨word⟩, rfl, .inr ⟨hasked, hword, ?_⟩⟩
      simp only [GroupId.implicitBase, UInt32.size] at hword
      show (g.implicitGroups + 1).toNat = _
      rw [UInt32.toNat_add, UInt32.toNat_one]
      omega

/-- A graph that scopes have been added to is built. -/
theorem Built.addAll {g : Graph} (h : g.Built) (scopes : List Scope) :
    (addAll scopes).Permits g fun _ => Built := by
  refine Step.Permits.forEach Built (fun scope g h => ?_) h
  simp only [Step.permits_discard, add, Step.permits_bind, Step.permits_read,
    Step.permits_update, Step.permits_pure]
  intro g' hg'
  exact .place h hg'

namespace Built

variable {g : Graph}

/-- Scopes are numbered by their positions. -/
theorem id_at (h : g.Built) {i : Nat} {s : PlacedScope} (hs : g.scopes[i]? = some s) :
    s.id = ⟨UInt32.ofNat i⟩ := by
  induction h generalizing i s with
  | empty => simp at hs
  | @place g g' scope _ hp ih =>
    obtain ⟨group, hscopes, -⟩ := place_cases hp
    rw [hscopes] at hs
    rcases of_getElem?_concat hs with hs | ⟨rfl, rfl⟩
    · exact ih hs
    · rfl

/-- No scope has a group that is still to be handed out. -/
theorem group_lt (h : g.Built) {s : PlacedScope} (hs : s ∈ g.scopes) :
    s.group.word.toNat < GroupId.implicitBase + g.implicitGroups.toNat := by
  induction h generalizing s with
  | empty => cases hs
  | @place g g' scope _ hp ih =>
    obtain ⟨group, hscopes, hcases⟩ := place_cases hp
    rw [hscopes, List.mem_append, List.mem_singleton] at hs
    rcases hs with hs | rfl
    · have hold := ih hs
      rcases hcases with ⟨-, -, -, himp⟩ | ⟨-, -, himp⟩
      · rw [himp]
        exact hold
      · omega
    · rcases hcases with ⟨-, hlt, -, -⟩ | ⟨-, hgroup, himp⟩
      · exact Nat.lt_of_lt_of_le hlt (Nat.le_add_right _ _)
      · change group.word.toNat < GroupId.implicitBase + g'.implicitGroups.toNat
        omega

/-- The scopes of one group stand side by side. -/
theorem contiguous (h : g.Built) : Contiguous (g.scopes.map (·.group)) := by
  induction h with
  | empty => exact Contiguous.nil
  | @place g g' scope built hp ih =>
    obtain ⟨group, hscopes, hcases⟩ := place_cases hp
    rw [hscopes, List.map_append, List.map_singleton]
    rcases hcases with ⟨-, -, hadmits, -⟩ | ⟨-, hgroup, -⟩
    · simp only [admits, Bool.or_eq_true, List.all_eq_true, decide_eq_true_eq] at hadmits
      rcases hadmits with hlast | hnew
      · exact ih.concat_of_getLast? (by rw [List.getLast?_map]; exact hlast)
      · apply ih.concat_of_not_mem
        intro hmem
        obtain ⟨s, hs, hsg⟩ := List.mem_map.1 hmem
        exact hnew s hs hsg
    · apply ih.concat_of_not_mem
      intro hmem
      obtain ⟨s, hs, hsg⟩ := List.mem_map.1 hmem
      have hlt := built.group_lt hs
      have hword := congrArg (·.word.toNat) hsg
      simp only at hword
      omega

end Built

end Graph

/-! ## Positions -/

namespace Graph

/-- The scope at a position. -/
def scopeAt (g : Graph) (i : Nat) : PlacedScope :=
  g.scopes.getD i default

/-- The scope before a position. -/
def before (g : Graph) : Nat → Option PlacedScope
  | 0 => none
  | i + 1 => g.scopes[i]?

/-- The scopes from `a` up to, and not with, `b`. -/
def slice (g : Graph) (a b : Nat) : List PlacedScope :=
  (g.scopes.drop a).take (b - a)

variable {g : Graph} {a b i : Nat}

theorem getElem?_eq_scopeAt (h : i < g.scopes.length) : g.scopes[i]? = some (g.scopeAt i) := by
  rw [scopeAt, List.getD_eq_getElem?_getD, List.getElem?_eq_getElem h, Option.getD_some]

theorem getElem_eq_scopeAt (h : i < g.scopes.length) : g.scopes[i] = g.scopeAt i :=
  Option.some_inj.1 ((List.getElem?_eq_getElem h).symm.trans (getElem?_eq_scopeAt h))

theorem scopeAt_eq {s : PlacedScope} (h : g.scopes[i]? = some s) : g.scopeAt i = s := by
  rw [scopeAt, List.getD_eq_getElem?_getD, h, Option.getD_some]

theorem scopeAt_mem (h : i < g.scopes.length) : g.scopeAt i ∈ g.scopes :=
  List.mem_of_getElem? (getElem?_eq_scopeAt h)

theorem map_scopeAt (g : Graph) : (List.range g.scopes.length).map g.scopeAt = g.scopes := by
  apply List.ext_getElem?
  intro k
  rw [List.getElem?_map]
  by_cases hk : k < g.scopes.length
  · rw [List.getElem?_range hk, Option.map_some, getElem?_eq_scopeAt hk]
  · rw [List.getElem?_eq_none (by simpa using hk), List.getElem?_eq_none (Nat.le_of_not_lt hk),
      Option.map_none]

/-- A walk that has come to a position is at the scope there. -/
theorem of_scopes_drop {s : PlacedScope} {ss : List PlacedScope}
    (h : g.scopes.drop i = s :: ss) : i < g.scopes.length ∧ g.scopeAt i = s ∧
      g.before (i + 1) = some s ∧ g.scopes.drop (i + 1) = ss := by
  obtain ⟨hget, hdrop⟩ := of_drop_eq_cons h
  exact ⟨(List.getElem?_eq_some_iff.1 hget).1, scopeAt_eq hget, hget, hdrop⟩

theorem before_eq (hi : 0 < i) (h : i ≤ g.scopes.length) :
    g.before i = some (g.scopeAt (i - 1)) := by
  obtain ⟨k, rfl⟩ := Nat.exists_eq_succ_of_ne_zero (Nat.ne_of_gt hi)
  exact getElem?_eq_scopeAt h

theorem length_slice (h : b ≤ g.scopes.length) : (g.slice a b).length = b - a := by
  rw [slice, List.length_take, List.length_drop]
  omega

theorem slice_succ (hab : a ≤ b) (h : b < g.scopes.length) :
    g.slice a (b + 1) = g.slice a b ++ [g.scopeAt b] := by
  have hlen : b - a < (g.scopes.drop a).length := by
    rw [List.length_drop]
    omega
  have hget : (g.scopes.drop a)[b - a] = g.scopeAt b := by
    simp only [List.getElem_drop, Nat.add_sub_cancel' hab]
    exact getElem_eq_scopeAt h
  rw [slice, slice, Nat.sub_add_comm hab, List.take_succ_eq_append_getElem hlen, hget]

theorem slice_single (h : a < g.scopes.length) : g.slice a (a + 1) = [g.scopeAt a] := by
  rw [slice_succ (Nat.le_refl a) h, slice, Nat.sub_self, List.take_zero, List.nil_append]

/-- A slice has the scopes at its positions. -/
theorem mem_slice {s : PlacedScope} (h : b ≤ g.scopes.length) :
    s ∈ g.slice a b ↔ ∃ i, a ≤ i ∧ i < b ∧ g.scopeAt i = s := by
  rw [List.mem_iff_getElem?]
  constructor
  · intro hmem
    rcases hmem with ⟨k, hk⟩
    rw [slice, List.getElem?_take, List.getElem?_drop] at hk
    split at hk
    · exact ⟨a + k, Nat.le_add_right a k, by omega, scopeAt_eq hk⟩
    · cases hk
  · intro hscope
    rcases hscope with ⟨i, hle, hlt, rfl⟩
    refine ⟨i - a, ?_⟩
    rw [slice, List.getElem?_take_of_lt (by omega), List.getElem?_drop, Nat.add_sub_cancel' hle,
      getElem?_eq_scopeAt (Nat.lt_of_lt_of_le hlt h)]

theorem slice_append_drop (hab : a ≤ b) : g.slice a b ++ g.scopes.drop b = g.scopes.drop a := by
  have hdrop : g.scopes.drop b = (g.scopes.drop a).drop (b - a) := by
    rw [List.drop_drop, Nat.add_sub_cancel' hab]
  rw [hdrop, slice, List.take_append_drop]

/-- The sum of a measure over the scopes before a position. -/
def sumBefore (g : Graph) (f : PlacedScope → Nat) (i : Nat) : Nat :=
  ((g.scopes.take i).map f).sum

theorem sumBefore_succ {f : PlacedScope → Nat} (h : i < g.scopes.length) :
    g.sumBefore f (i + 1) = g.sumBefore f i + f (g.scopeAt i) := by
  rw [sumBefore, sumBefore, List.take_succ_eq_append_getElem h, List.map_append, List.sum_append,
    getElem_eq_scopeAt h, List.map_singleton, List.sum_singleton]

theorem sumBefore_le {f : PlacedScope → Nat} : g.sumBefore f i ≤ (g.scopes.map f).sum := by
  have hsplit : (g.scopes.map f).sum = g.sumBefore f i + ((g.scopes.drop i).map f).sum := by
    rw [sumBefore, ← List.sum_append, ← List.map_append, List.take_append_drop]
  omega

end Graph

/-! ## Counts that are words -/

/-- What a scope may make a tracker wait for: the primitives it waits for and the
fences it signals. -/
def Sync.pledges (s : Sync) : Nat :=
  s.waitSemaphores.length + s.waitFences.length + s.signalFences.length

/-- The totals of a graph that a plan keeps in words fit into words. -/
structure Graph.Countable (g : Graph) : Prop where
  scopes : g.scopes.length < UInt32.size
  pledges : (g.scopes.map (·.sync.pledges)).sum < UInt32.size
  swapchains : (g.scopes.map (·.sync.swapchains.length)).sum < UInt32.size

end FrameSchedule
