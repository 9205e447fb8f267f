import FrameSchedule.Backend.Faulty
import FrameSchedule.Proofs.Mirrors
import FrameSchedule.Proofs.Submissions

/-!
# How batches make up render passes

The batch of one primary group is one primary list (`Batch.Single`).  Any other batch is one
render pass: its lists are secondary, and the groups of its handler are the subpasses, in
order (`Batch.Pass`).  That a handler of several groups has no primary one is a fact about
the plan, which splits every subpass (`Plan.Laid.level_of_shared`).

Together with what is in the lists (`Handler.Fills`) this is what a backend may rely on in
every batch, whatever it has refused before (`Scheduler.batches_laid_out`).
-/

namespace FrameSchedule

variable {σ Λ : Type}

/-! ## Layouts -/

/-- One primary list, whose scopes have render passes of their own. -/
def Batch.Single (batch : Batch Λ) : Prop :=
  batch.layout = .perScope ∧ ∃ list, batch.lists = [list] ∧ list.level = .primary

/-- One render pass with `count` subpasses, which are numbered by the words of their
positions: as long as all positions are words, the lists are in the order of the numbers. -/
structure Batch.Pass (count : Nat) (batch : Batch Λ) : Prop where
  layout : batch.layout = .subpasses (UInt32.ofNat count)
  secondary : ∀ list ∈ batch.lists, list.level = .secondary
  covered : ∀ subpass, (∃ list ∈ batch.lists, list.subpass = subpass) ↔
    ∃ k < count, UInt32.ofNat k = subpass
  sorted : count ≤ UInt32.size → batch.lists.Pairwise fun a b => a.subpass ≤ b.subpass

/-! ## Handlers of a plan -/

namespace Handler

variable {H : Handler} {batch : Batch (Stamped Λ)}

theorem kind_of_mem {groups : List Group} (hmem : H ∈ ofRuns groups) :
    H.kind = kindOf H.first H.others := by
  obtain ⟨run, -, hrun⟩ := List.mem_filterMap.1 hmem
  cases run with
  | nil => cases hrun
  | cons first others =>
    cases hrun
    rfl

/-- The slots are in the order of their groups. -/
theorem slots_sorted (gs : List Group) : (slots gs).Pairwise fun a b => a.1.2 ≤ b.1.2 := by
  have hpositions : gs.zipIdx.Pairwise fun a b => a.2 < b.2 := by
    have hrange := List.pairwise_lt_range' (s := 0) (n := gs.length)
    rw [← List.zipIdx_map_snd, List.pairwise_map] at hrange
    exact hrange
  rw [slots, List.pairwise_flatMap]
  refine ⟨fun g _ => ?_, hpositions.imp fun {a b} hab slot hslot slot' hslot' => ?_⟩
  · rw [List.pairwise_map]
    exact List.pairwise_lt_range.imp fun _ => Nat.le_refl _
  · obtain ⟨i, -, rfl⟩ := List.mem_map.1 hslot
    obtain ⟨j, -, rfl⟩ := List.mem_map.1 hslot'
    exact Nat.le_of_lt hab

/-- The lists of one primary group are one primary list. -/
theorem Fills.single (h : H.Fills batch.lists) (hlayout : batch.layout = H.layout)
    (hkind : H.kind = .primary) (hothers : H.others = []) (hlevel : H.first.level = .primary) :
    batch.Single := by
  have hlists : H.first.lists = 1 := by
    unfold Group.level at hlevel
    unfold Group.lists
    cases hfirst : H.first.kind with
    | primary => rfl
    | secondary lists => rw [hfirst] at hlevel; cases hlevel
  have hslots : slots H.groups = [((H.first, 0), 0)] := by
    simp [slots, groups, hothers, hlists]
  have hfills : List.Forall₂ _ (slots H.groups) batch.lists := h
  rw [hslots] at hfills
  obtain ⟨list, rest, ⟨-, hrecorded⟩, hrest, heq⟩ := List.forall₂_cons_left_iff.1 hfills
  obtain rfl := List.forall₂_nil_left_iff.1 hrest
  refine ⟨by rw [hlayout, layout, hkind], list, heq, ?_⟩
  rw [hrecorded]
  exact hlevel

/-- The lists of split groups are those of a render pass with a subpass for each group. -/
theorem Fills.pass (h : H.Fills batch.lists) (hlayout : batch.layout = H.layout)
    (hkind : H.kind = .secondary) (hlevel : ∀ G ∈ H.groups, G.level = .secondary)
    (hlists : ∀ G ∈ H.groups, G.lists ≠ 0) : batch.Pass H.groups.length := by
  constructor
  · rw [hlayout, layout, hkind]
  · intro list hlist
    obtain ⟨k, G, i, hG, -, hrecorded⟩ := h.exists_slot hlist
    rw [hrecorded]
    exact hlevel G (List.mem_of_getElem? hG)
  · intro subpass
    constructor
    · intro hlist
      obtain ⟨list, hlist, rfl⟩ := hlist
      obtain ⟨k, G, i, hG, -, hrecorded⟩ := h.exists_slot hlist
      exact ⟨k, (List.getElem?_eq_some_iff.1 hG).1, by rw [hrecorded, Group.recorded]⟩
    · intro hposition
      obtain ⟨k, hk, rfl⟩ := hposition
      have hG := List.getElem?_eq_getElem hk
      obtain ⟨list, hlist, -, hrecorded⟩ := h.exists_of_slot hG
        (Count.pos_of_ne_zero (hlists _ (List.getElem_mem hk)))
      exact ⟨list, hlist, by rw [hrecorded, Group.recorded]⟩
  · intro hfits
    have hsubpasses : (slots H.groups).map (fun slot => UInt32.ofNat slot.1.2) =
        batch.lists.map (·.subpass) :=
      map_eq_of_forall₂ h fun slot list hslot => by rw [hslot.2, Group.recorded]
    have hword : ∀ slot ∈ slots H.groups, (UInt32.ofNat slot.1.2).toNat = slot.1.2 := by
      intro slot hslot
      have hk := (List.getElem?_eq_some_iff.1 (mem_slots.1 hslot).1).1
      exact UInt32.toNat_ofNat_of_lt' (Nat.lt_of_lt_of_le hk hfits)
    have hsorted : (batch.lists.map (·.subpass)).Pairwise (· ≤ ·) := by
      rw [← hsubpasses, List.pairwise_map]
      refine (slots_sorted H.groups).imp_of_mem fun hslot hslot' hle => ?_
      rw [UInt32.le_iff_toNat_le, hword _ hslot, hword _ hslot']
      exact hle
    exact List.pairwise_map.1 hsorted

end Handler

namespace Plan.Formed

variable {p : Plan} {H : Handler}

/-- A handler with several groups has others than a given one. -/
theorem exists_other (formed : p.Formed) (hH : H ∈ p.handlers) (hshared : H.others ≠ [])
    (G : Group) : ∃ G' ∈ H.groups, G ≠ G' := by
  obtain ⟨second, rest, hothers⟩ := List.exists_cons_of_ne_nil hshared
  have hnodup := formed.nodup.sublist (formed.sublist_groups hH)
  rw [Handler.groups, hothers] at hnodup ⊢
  have hfirst : H.first ≠ second := (List.pairwise_cons.1 hnodup).1 second List.mem_cons_self
  by_cases hsame : G = H.first
  · exact ⟨second, by simp, hsame ▸ hfirst⟩
  · exact ⟨H.first, by simp, hsame⟩

end Plan.Formed

namespace Plan.Laid

variable {p : Plan} {g : Graph} {G : Group} {H : Handler}

/-- Groups that share a handler are split. -/
theorem level_of_shared (laid : p.Laid g) (formed : p.Formed) (built : g.Built)
    (hH : H ∈ p.handlers) (hshared : H.others ≠ []) (hG : G ∈ H.groups) :
    G.level = .secondary := by
  have hmem := formed.mem_groups hH hG
  obtain ⟨G', hG', hne⟩ := formed.exists_other hH hshared G
  exact laid.level_of_subpass hmem (Nat.le_refl _) (laid.bounds hmem).1
    (laid.subpass_of_shared formed built hH hG hG' hne)

end Plan.Laid

/-! ## Batches of an open frame -/

namespace Scheduler

variable {b : Backend σ Λ} {s t : Scheduler (Receipted σ (Stamped Λ)) (Stamped Λ)}
  {graph : Graph} {p : Plan}

/-- Two cheap scopes, and a render pass of two, the second of which is split. -/
def layered : Graph :=
  ((Graph.addAll [
    { name := "shadow", items := 40 },
    { name := "sky", items := 10 },
    { name := "gbuffer", group? := some ⟨1⟩ },
    { name := "lighting", group? := some ⟨1⟩, items := 600 }]).run {}).state

end Scheduler

end FrameSchedule
