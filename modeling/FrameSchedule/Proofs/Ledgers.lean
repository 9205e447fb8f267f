import FrameSchedule.Proofs.Accounts
import FrameSchedule.Proofs.Epochs

/-!
# What a ledger says of a graph

After the scopes before a position, the trackers of a ledger require, each, what the
scopes of the epochs up to its own wait for and what they have been credited with; the
fences of the ledger are those that the present epoch has used; and every epoch that has
been presented has been credited with the fences that it leaves over
(`Ledger.Follows`).  An entry that does not fault moves this on by a position
(`Ledger.Follows.enter`).
-/

namespace FrameSchedule

/-! ## Requirements -/

/-- Every tracker requires what `asked` says for its position, and the chain has counted
`total` requirements. -/
structure Chain.Asks (asked : Nat → Nat) (total : Nat) (c : Chain) : Prop where
  each : ∀ (k : Nat) (t : Tracker), c.trackers[k]? = some t → t.required.toNat = asked k
  total : c.total.toNat = total

namespace Chain.Asks

variable {asked : Nat → Nat} {total e : Nat} {c : Chain}

/-- A new tracker requires all that has been counted. -/
theorem grow (h : c.Asks asked total) (hlength : c.trackers.length = e)
    (hnew : asked e = total) : c.grow.Asks asked total := by
  refine ⟨fun k t ht => ?_, h.total⟩
  rw [Chain.grow, List.getElem?_append] at ht
  split at ht
  · exact h.each k t ht
  · rename_i hge
    rw [List.getElem?_singleton] at ht
    split at ht
    · cases ht
      obtain rfl : k = e := by omega
      exact h.total.trans hnew.symm
    · cases ht

/-- Requirements are added to the last tracker. -/
theorem require (h : c.Asks asked total) (hlength : c.trackers.length = e + 1) (n : UInt32) :
    (Chain.require n).Permits c fun _ d => d.trackers.length = e + 1 ∧
      d.Asks (fun k => asked k + if e ≤ k then n.toNat else 0) (total + n.toNat) := by
  intro _ d hd
  rcases Chain.require_permits n c () d hd with
    ⟨hnone, -⟩ | ⟨ts, t, u, hts, hus, hrequired, -, htotal⟩
  · rw [hnone] at hlength
    cases hlength
  · rw [hts, List.length_append, List.length_singleton, Nat.add_right_cancel_iff] at hlength
    have hbefore : ∀ (k : Nat) (v : Tracker), ts[k]? = some v → c.trackers[k]? = some v := by
      intro k v hv
      rw [hts, List.getElem?_append_left (List.getElem?_eq_some_iff.1 hv).1, hv]
    have hlast : c.trackers[ts.length]? = some t := by
      rw [hts]
      exact List.getElem?_concat_length
    refine ⟨by rw [hus, List.length_append, hlength]; rfl, fun k v hv => ?_, ?_⟩
    · rw [hus] at hv
      rcases of_getElem?_concat hv with hv | ⟨rfl, rfl⟩
      · have hk := (List.getElem?_eq_some_iff.1 hv).1
        rw [if_neg (by omega), Nat.add_zero]
        exact h.each k v (hbefore k v hv)
      · rw [hrequired, h.each _ t hlast, if_pos (Nat.le_of_eq hlength.symm)]
    · rw [htotal, h.total]

end Chain.Asks

namespace Ledger

/-! ## Fences -/

/-- The fences of the ledger are those that have been used: `waited` says which of them
have been waited for, and `first` which scope has signalled another one first. -/
structure Tells (first : FenceId → Option Nat) (waited : FenceId → Prop) (l : Ledger) :
    Prop where
  distinct : (l.fences.map (·.fence)).Nodup
  used : ∀ f, (∃ u ∈ l.fences, u.fence = f) ↔ waited f ∨ (first f).isSome
  waited : ∀ u ∈ l.fences, u.waited = true ↔ waited u.fence
  signaller : ∀ u ∈ l.fences, u.waited = false → u.signaller? = first u.fence
  /-- The fences that are signalled and not waited for are counted. -/
  unwaited : l.unwaited.toNat = l.fences.countP (!·.waited)

/-- Nothing but the fences has changed. -/
def OnlyFences (l l' : Ledger) : Prop :=
  l' = { l with fences := l'.fences, unwaited := l'.unwaited }

theorem OnlyFences.trans {l l' l'' : Ledger} (h : l.OnlyFences l') (h' : l'.OnlyFences l'') :
    l.OnlyFences l'' := by
  unfold OnlyFences at h h' ⊢
  rw [h', h]

namespace Tells

variable {first : FenceId → Option Nat} {waited : FenceId → Prop} {l : Ledger}

/-- Nothing is told of an epoch that has used no fence. -/
theorem of_nil (hfences : l.fences = []) (hunwaited : l.unwaited = 0)
    (hfirst : ∀ f, first f = none) (hwaited : ∀ f, ¬ waited f) : l.Tells first waited := by
  refine ⟨?_, fun f => ?_, ?_, ?_, ?_⟩
  · rw [hfences]
    exact List.nodup_nil
  · simp [hfences, hfirst f, hwaited f]
  · simp [hfences]
  · simp [hfences]
  · rw [hfences, hunwaited]
    rfl

theorem congr (h : l.Tells first waited) {first' : FenceId → Option Nat}
    {waited' : FenceId → Prop} (hfirst : ∀ f, first f = first' f)
    (hwaited : ∀ f, waited f ↔ waited' f) : l.Tells first' waited' := by
  obtain rfl : first = first' := funext hfirst
  obtain rfl : waited = waited' := funext fun f => propext (hwaited f)
  exact h

/-- A fence that is not waited for has been signalled. -/
theorem isSome (h : l.Tells first waited) {u : FenceUse} (hu : u ∈ l.fences)
    (hwaited : u.waited = false) : (first u.fence).isSome := by
  refine ((h.used u.fence).1 ⟨u, hu, rfl⟩).resolve_left fun hw => ?_
  rw [(h.waited u hu).2 hw] at hwaited
  cases hwaited

/-- A scope signals a fence. -/
theorem signalFence (h : l.Tells first waited) (scope : Nat) (fence : FenceId) :
    (Ledger.signalFence scope fence).Permits l fun _ l' => l.OnlyFences l' ∧
      l'.Tells (fun f => (first f).or (if f = fence then some scope else none)) waited := by
  unfold Ledger.signalFence
  rw [Step.permits_update]
  intro l' hl'
  split at hl'
  · rename_i hused
    cases hl'
    obtain ⟨u, hu, hfence⟩ := List.any_eq_true.1 hused
    have hknown := (h.used fence).1 ⟨u, hu, of_decide_eq_true hfence⟩
    refine ⟨rfl, { h with used := fun f => ?_, signaller := fun u hu hwaited => ?_ }⟩
    · rw [h.used f, Option.isSome_or, Bool.or_eq_true]
      by_cases hf : f = fence
      · subst hf
        exact iff_of_true hknown (hknown.imp_right .inl)
      · simp [hf]
    · rw [Option.or_of_isSome (h.isSome hu hwaited)]
      exact h.signaller u hu hwaited
  · rename_i hunused
    obtain ⟨n, hn, rfl⟩ := exists_of_map_eq_ok hl'
    have hnew : ∀ u ∈ l.fences, u.fence ≠ fence := fun u hu heq =>
      hunused (List.any_eq_true.2 ⟨u, hu, decide_eq_true heq⟩)
    have hunknown : ¬ (waited fence ∨ (first fence).isSome) := fun hknown => by
      obtain ⟨u, hu, hfence⟩ := (h.used fence).2 hknown
      exact hnew u hu hfence
    obtain ⟨hunwaited, hunsignalled⟩ := not_or.1 hunknown
    have hnone : first fence = none := Option.not_isSome_iff_eq_none.1 hunsignalled
    refine ⟨rfl, nodup_concat h.distinct hnew, fun f => ?_, ?_, ?_, ?_⟩
    · rw [Option.isSome_or, Bool.or_eq_true, ← or_assoc, ← h.used f]
      simp only [List.mem_append, List.mem_singleton, or_and_right, exists_or, exists_eq_left]
      by_cases hf : f = fence
      · simp [hf]
      · simp [hf, Ne.symm hf]
    · refine forall_mem_concat.2 ⟨h.waited, ?_⟩
      simpa using hunwaited
    · refine forall_mem_concat.2 ⟨fun u hu hwaited => ?_, fun _ => ?_⟩
      · rw [Option.or_of_isSome (h.isSome hu hwaited)]
        exact h.signaller u hu hwaited
      · simp [hnone]
    · have hsum := Count.add_eq_ok_iff.1 hn
      rw [UInt32.toNat_one] at hsum
      simp only [List.countP_append, List.countP_singleton, hsum, h.unwaited]
      rfl

/-- A signal that is left over is taken. -/
theorem markWaited (h : l.Tells first waited) {use : FenceUse} (hmem : use ∈ l.fences)
    (hunwaited : use.waited = false) {n : UInt32} (hn : Count.sub l.unwaited 1 = .ok n) :
    Tells first (fun f => waited f ∨ f = use.fence)
      { l with fences := l.fences.map (Ledger.markWaited use.fence), unwaited := n } := by
  have hmark : ∀ u : FenceUse, u.fence ≠ use.fence → Ledger.markWaited use.fence u = u :=
    fun u hne => if_neg hne
  refine ⟨?_, fun f => ?_, fun u hu => ?_, fun u hu hw => ?_, ?_⟩
  · rw [List.map_map]
    exact (List.map_congr_left fun u _ => Balanced.fence_markWaited use.fence u) ▸ h.distinct
  · rw [or_right_comm, ← h.used f]
    simp only [List.mem_map, exists_exists_and_eq_and, Balanced.fence_markWaited]
    constructor
    · exact .inl
    · intro hused
      rcases hused with hused | rfl
      · exact hused
      · exact ⟨use, hmem, rfl⟩
  · obtain ⟨v, hv, rfl⟩ := List.mem_map.1 hu
    rw [Balanced.fence_markWaited]
    by_cases hfence : v.fence = use.fence
    · simp [Ledger.markWaited, hfence]
    · rw [hmark v hfence, h.waited v hv]
      simp [hfence]
  · obtain ⟨v, hv, rfl⟩ := List.mem_map.1 hu
    rw [Balanced.fence_markWaited]
    by_cases hfence : v.fence = use.fence
    · simp [Ledger.markWaited, hfence] at hw
    · rw [hmark v hfence] at hw ⊢
      exact h.signaller v hv hw
  · have hcount := Balanced.countP_markWaited h.distinct hmem hunwaited
    have hval := (Count.sub_eq_ok_iff.1 hn).2
    have hold := h.unwaited
    rw [UInt32.toNat_one] at hval
    simp only
    omega

/-- A scope waits for a fence. -/
theorem waitFence (h : l.Tells first waited) (fence : FenceId) :
    (Ledger.waitFence fence).Permits l fun _ l' => l.OnlyFences l' ∧
      l'.Tells first fun f => waited f ∨ f = fence := by
  unfold Ledger.waitFence
  rw [Step.permits_update]
  intro l' hl'
  cases hfind : l.fences.find? (·.fence = fence) with
  | none =>
    rw [hfind] at hl'
    cases hl'
    have hnew : ∀ u ∈ l.fences, u.fence ≠ fence := fun u hu heq =>
      List.find?_eq_none.1 hfind u hu (decide_eq_true heq)
    refine ⟨rfl, nodup_concat h.distinct hnew, fun f => ?_, ?_, ?_, ?_⟩
    · rw [or_right_comm, ← h.used f]
      simp only [List.mem_append, List.mem_singleton, or_and_right, exists_or, exists_eq_left,
        eq_comm]
    · refine forall_mem_concat.2 ⟨fun u hu => ?_, by simp⟩
      rw [h.waited u hu]
      simp [hnew u hu]
    · exact forall_mem_concat.2 ⟨h.signaller, by simp⟩
    · simpa using h.unwaited
  | some use =>
    have hmem := List.mem_of_find?_eq_some hfind
    obtain rfl : use.fence = fence := by simpa using List.find?_some hfind
    simp only [hfind] at hl'
    split at hl'
    · rename_i hwaited
      cases hl'
      have hknown := (h.waited use hmem).1 hwaited
      refine ⟨rfl, h.congr (fun _ => rfl) fun f => ?_⟩
      exact ⟨.inl, fun hf => hf.elim id fun heq => heq ▸ hknown⟩
    · rename_i hunwaited
      obtain ⟨n, hn, rfl⟩ := exists_of_map_eq_ok hl'
      exact ⟨rfl, h.markWaited hmem (Bool.eq_false_iff.2 hunwaited) hn⟩

/-- Scopes signal fences one after the other. -/
theorem signalFences (h : l.Tells first waited) (scope : Nat) (fences : List FenceId) :
    (Step.forEach (Ledger.signalFence scope) fences).Permits l fun _ l' => l.OnlyFences l' ∧
      l'.Tells (fun f => (first f).or (if f ∈ fences then some scope else none)) waited := by
  induction fences generalizing first l with
  | nil => exact Step.permits_pure.2 ⟨rfl, h.congr (by simp) fun _ => Iff.rfl⟩
  | cons fence fences ih =>
    rw [Step.forEach, Step.permits_bind]
    refine (h.signalFence scope fence).mono fun _ l₁ h₁ => ?_
    refine (ih h₁.2).mono fun _ l₂ h₂ => ⟨h₁.1.trans h₂.1, h₂.2.congr ?_ fun _ => Iff.rfl⟩
    intro f
    rw [Option.or_assoc]
    congr 1
    by_cases hf : f = fence
    · simp [hf]
    · simp [hf]

theorem waitFences (h : l.Tells first waited) (fences : List FenceId) :
    (Step.forEach Ledger.waitFence fences).Permits l fun _ l' => l.OnlyFences l' ∧
      l'.Tells first fun f => waited f ∨ f ∈ fences := by
  induction fences generalizing waited l with
  | nil => exact Step.permits_pure.2 ⟨rfl, h.congr (fun _ => rfl) (by simp)⟩
  | cons fence fences ih =>
    rw [Step.forEach, Step.permits_bind]
    refine (h.waitFence fence).mono fun _ l₁ h₁ => ?_
    refine (ih h₁.2).mono fun _ l₂ h₂ => ⟨h₁.1.trans h₂.1, h₂.2.congr (fun _ => rfl) ?_⟩
    intro f
    rw [or_assoc, List.mem_cons]

/-- As many fences are left over by a scope as it has been the first to signal. -/
theorem count_credits (h : l.Tells first waited) {scope : Nat} {left : Finset FenceId}
    (hleft : ∀ f, f ∈ left ↔ ¬ waited f ∧ first f = some scope) :
    (l.fences.filterMap (·.credit?)).count scope = left.card := by
  have hnodup : ((l.fences.filter (·.credit? == some scope)).map (·.fence)).Nodup :=
    h.distinct.sublist (List.filter_sublist.map _)
  have hset : ((l.fences.filter (·.credit? == some scope)).map (·.fence)).toFinset = left := by
    ext f
    rw [hleft, List.mem_toFinset, List.mem_map]
    constructor
    · intro hmem
      obtain ⟨u, hu, rfl⟩ := hmem
      obtain ⟨hu, hcredit⟩ := List.mem_filter.1 hu
      have hcredit : u.credit? = some scope := eq_of_beq hcredit
      unfold FenceUse.credit? at hcredit
      split at hcredit
      · cases hcredit
      · rename_i hunwaited
        refine ⟨fun hw => hunwaited ((h.waited u hu).2 hw), ?_⟩
        rw [← h.signaller u hu (Bool.eq_false_iff.2 hunwaited), hcredit]
    · intro hf
      rcases hf with ⟨hunwaited, hfirst⟩
      obtain ⟨u, hu, rfl⟩ := (h.used f).2 (.inr (by rw [hfirst]; rfl))
      have hw : u.waited = false := Bool.eq_false_iff.2 fun hw => hunwaited ((h.waited u hu).1 hw)
      refine ⟨u, List.mem_filter.2 ⟨hu, ?_⟩, rfl⟩
      simp [FenceUse.credit?, hw, h.signaller u hu hw, hfirst]
  rw [List.count_filterMap, List.countP_eq_length_filter, ← hset,
    List.toFinset_card_of_nodup hnodup, List.length_map]

/-- As many credits are given as there are fences left over. -/
theorem length_credits (h : l.Tells first waited) :
    (l.fences.filterMap (·.credit?)).length = l.unwaited.toNat := by
  rw [h.unwaited]
  refine Ledger.length_credits fun u hu hw => ?_
  rw [h.signaller u hu hw]
  exact h.isSome hu hw

/-- Who is credited has been the first to signal a fence. -/
theorem exists_of_mem_credits (h : l.Tells first waited) {scope : Nat}
    (hscope : scope ∈ l.fences.filterMap (·.credit?)) : ∃ f, first f = some scope := by
  obtain ⟨u, hu, hcredit⟩ := List.mem_filterMap.1 hscope
  unfold FenceUse.credit? at hcredit
  split at hcredit
  · cases hcredit
  · rename_i hw
    exact ⟨u.fence, (h.signaller u hu (Bool.eq_false_iff.2 hw)).symm.trans hcredit⟩

end Tells

/-! ## Requirements of the scopes -/

/-- In epoch `e`, every tracker requires what the scopes up to its own epoch wait for, and
what they have been credited with. -/
structure Demands (g : Graph) (e : Nat) (waits : Nat → Nat) (l : Ledger) : Prop where
  length : l.chain.trackers.length = e + 1
  reach : l.handle.reach = e + 1
  asks : l.chain.Asks (fun k => waits k + l.credits.countP (g.epoch · ≤ k))
    (waits e + l.credits.length)
  credited : ∀ c ∈ l.credits, g.epoch c ≤ e

namespace Demands

variable {g : Graph} {e : Nat} {waits : Nat → Nat} {l : Ledger}

theorem newEpoch (h : l.Demands g e waits) (hsame : waits (e + 1) = waits e) :
    Ledger.newEpoch.Permits l fun _ l' => l'.Demands g (e + 1) waits ∧
      l' = { l with chain := l'.chain, handle := l'.handle } := by
  simp only [Ledger.newEpoch, onChain, Chain.createHandle, Step.permits_bind, Step.permits_zoom,
    Step.permits_modify, Step.permits_read, Step.permits_pure, and_true]
  have hall : l.credits.countP (g.epoch · ≤ e + 1) = l.credits.length :=
    List.countP_eq_length.2 fun c hc => decide_eq_true (Nat.le_succ_of_le (h.credited c hc))
  have hgrow := h.asks.grow h.length (by rw [hall, hsame])
  rw [← hsame] at hgrow
  have hlength : l.chain.grow.trackers.length = e + 1 + 1 := by
    rw [Chain.grow, List.length_append, h.length, List.length_singleton]
  exact ⟨hlength, hlength, hgrow, fun c hc => Nat.le_succ_of_le (h.credited c hc)⟩

/-- A scope of the epoch requires what it waits for. -/
theorem require (h : l.Demands g e waits) (n : UInt32) :
    (onChain (Chain.require n)).Permits l fun _ l' =>
      l'.Demands g e (fun k => waits k + if e ≤ k then n.toNat else 0) ∧
        l' = { l with chain := l'.chain } := by
  unfold onChain
  rw [Step.permits_zoom]
  refine (h.asks.require h.length n).mono fun _ c hc => ?_
  rcases hc with ⟨hlength, hasks⟩
  refine ⟨⟨hlength, h.reach, ⟨fun k t ht => ?_, ?_⟩, h.credited⟩, rfl⟩
  · rw [hasks.each k t ht]
    exact Nat.add_right_comm _ _ _
  · rw [hasks.total, if_pos (Nat.le_refl e)]
    exact Nat.add_right_comm _ _ _

/-- A presentation requires one signal for each fence that is left over, and credits it. -/
theorem present (h : l.Demands g e waits)
    (hcount : (l.fences.filterMap (·.credit?)).length = l.unwaited.toNat)
    (hnew : ∀ c ∈ l.fences.filterMap (·.credit?), g.epoch c = e) (scope : String)
    (swapchain : SwapchainId) :
    (Ledger.present scope swapchain).Permits l fun _ l' => l'.Demands g e waits ∧
      l'.fences = [] ∧ l'.unwaited = 0 ∧
        l'.credits = l.credits ++ l.fences.filterMap (·.credit?) ∧
          l'.presentations = l.presentations ++ [(swapchain, e)] := by
  unfold Ledger.present
  rw [Step.permits_bind, Step.permits_read, Step.permits_bind]
  refine (h.require l.unwaited).mono fun _ l₁ h₁ => ?_
  rcases h₁ with ⟨hdemands, hrest⟩
  generalize l₁.chain = chain at hrest
  subst hrest
  simp only [Step.permits_bind, Step.permits_modify, Step.permits_read]
  have hlength : chain.trackers.length = e + 1 := hdemands.length
  obtain ⟨t, ht⟩ : ∃ t, chain.current? = some t := by
    rw [Chain.current?, List.getLast?_eq_getElem?, hlength]
    exact ⟨_, List.getElem?_eq_getElem (by omega)⟩
  simp only [credit, ht, Step.permits_bind, Step.permits_note, Step.permits_write, attach,
    hlength, Nat.add_sub_cancel, and_true]
  -- the new credits are the ones required
  have hcredits : ∀ k, (l.credits ++ l.fences.filterMap (·.credit?)).countP (g.epoch · ≤ k) =
      l.credits.countP (g.epoch · ≤ k) + if e ≤ k then l.unwaited.toNat else 0 := by
    intro k
    rw [List.countP_append, ← hcount]
    congr 1
    split
    · rename_i hle
      exact List.countP_eq_length.2 fun c hc => decide_eq_true (by rw [hnew c hc]; exact hle)
    · rename_i hlt
      exact List.countP_eq_zero.2 fun c hc hle => hlt (hnew c hc ▸ of_decide_eq_true hle)
  refine ⟨hlength, hdemands.reach, ⟨fun k t ht => ?_, ?_⟩, fun c hc => ?_⟩
  · rw [hcredits, hdemands.asks.each k t ht]
    simp only
    omega
  · rw [hdemands.asks.total, List.length_append, hcount, if_pos (Nat.le_refl e)]
    simp only
    omega
  · rcases List.mem_append.1 hc with hc | hc
    · exact h.credited c hc
    · exact Nat.le_of_eq (hnew c hc)

/-- A scope presents its swapchains; the first of them takes all that is left over. -/
theorem presentAll (h : l.Demands g e waits)
    (hcount : (l.fences.filterMap (·.credit?)).length = l.unwaited.toNat)
    (hnew : ∀ c ∈ l.fences.filterMap (·.credit?), g.epoch c = e) (scope : String)
    (swapchains : List SwapchainId) :
    (Step.forEach (Ledger.present scope) swapchains).Permits l fun _ l' =>
      l'.Demands g e waits ∧ l'.presentations = l.presentations ++ swapchains.map (·, e) ∧
        if swapchains = [] then l' = l
        else l'.fences = [] ∧ l'.unwaited = 0 ∧
          l'.credits = l.credits ++ l.fences.filterMap (·.credit?) := by
  induction swapchains generalizing l with
  | nil => exact Step.permits_pure.2 ⟨h, by simp, rfl⟩
  | cons swapchain swapchains ih =>
    rw [Step.forEach, Step.permits_bind]
    refine (h.present hcount hnew scope swapchain).mono fun _ l₁ h₁ => ?_
    rcases h₁ with ⟨hdemands, hfences, hunwaited, hcredits, hpresentations⟩
    refine (ih hdemands (by rw [hfences, hunwaited]; rfl) (by simp [hfences])).mono
      fun _ l₂ h₂ => ?_
    rcases h₂ with ⟨hdemands₂, hpresentations₂, hrest⟩
    refine ⟨hdemands₂, ?_, ?_⟩
    · rw [hpresentations₂, hpresentations, List.append_assoc]
      rfl
    · rw [if_neg (List.cons_ne_nil _ _)]
      split at hrest
      · rw [hrest]
        exact ⟨hfences, hunwaited, hcredits⟩
      · rw [hfences, List.filterMap_nil, List.append_nil] at hrest
        rw [← hcredits]
        exact hrest

end Demands

/-! ## The scopes before a position -/

/-- The ledger after the scopes before a position. -/
structure Follows (g : Graph) (i : Nat) (l : Ledger) : Prop where
  demands : l.Demands g (g.epoch (i - 1)) (g.sumThrough g.waitsOf i)
  tells : l.Tells (g.firstSignal (g.epoch i) i) (g.WaitsBefore (g.epoch i) i)
  /-- The epochs that have been presented are credited. -/
  credits : ∀ j, l.credits.count j = if j < i ∧ g.epoch j < g.epoch i then (g.leftBy j).card else 0
  presentations : l.presentations =
    (List.range i).flatMap fun j => (g.scopeAt j).sync.swapchains.map (·, g.epoch j)

theorem opening_follows (g : Graph) : opening.Follows g 0 where
  demands := {
    length := by simp [opening, Chain.grow]
    reach := by simp [opening, Chain.grow, Chain.handle]
    asks := by
      refine ⟨fun k t ht => ?_, rfl⟩
      have hmem := List.mem_of_getElem? ht
      simp only [opening, Chain.grow, List.nil_append, List.mem_singleton] at hmem
      rw [hmem]
      rfl
    credited := by simp [opening] }
  tells := .of_nil rfl rfl (fun _ => rfl) fun _ => Graph.not_waitsBefore (by simp)
  credits := by simp [opening]
  presentations := rfl

namespace Follows

variable {g : Graph} {i : Nat} {l : Ledger}

/-- The scope after a presentation opens an epoch. -/
theorem openEpoch (h : l.Follows g i) (hi : i < g.scopes.length) :
    (Step.onlyIf ((g.before i).any (·.sync.presents)) newEpoch).Permits l fun _ l' =>
      l'.Demands g (g.epoch i) (g.sumThrough g.waitsOf i) ∧
        l' = { l with chain := l'.chain, handle := l'.handle } := by
  cases i with
  | zero => exact Step.permits_onlyIf.2 ⟨by simp [Graph.before], fun _ => ⟨h.demands, rfl⟩⟩
  | succ m =>
    have hm : m < g.scopes.length := Nat.lt_of_succ_lt hi
    have hdemands := h.demands
    rw [Nat.add_sub_cancel] at hdemands
    rw [Graph.before, Graph.getElem?_eq_scopeAt hm, Option.any_some, Graph.epoch_succ hm]
    refine Step.permits_onlyIf.2 ⟨fun hpresents => ?_, fun hnot => ?_⟩
    · rw [if_pos hpresents]
      refine hdemands.newEpoch (Graph.sumThrough_congr fun j hj => ?_)
      have hmono : g.epoch j ≤ g.epoch m := Graph.epoch_mono (by omega)
      omega
    · rw [hnot]
      exact ⟨hdemands, rfl⟩

/-- A scope that presents nothing leaves the epoch open. -/
theorem quiet (h : l.Follows g i) (hi : i < g.scopes.length)
    (hquiet : (g.scopeAt i).sync.presents = false) {l' : Ledger}
    (hdemands : l'.Demands g (g.epoch i) (g.sumThrough g.waitsOf (i + 1)))
    (htells : l'.Tells (g.firstSignal (g.epoch i) (i + 1)) (g.WaitsBefore (g.epoch i) (i + 1)))
    (hcredits : l'.credits = l.credits)
    (hpresentations : l'.presentations =
      (List.range (i + 1)).flatMap fun j => (g.scopeAt j).sync.swapchains.map (·, g.epoch j)) :
    l'.Follows g (i + 1) := by
  have hsame : g.epoch (i + 1) = g.epoch i := by
    rw [Graph.epoch_succ hi, hquiet]
    rfl
  refine ⟨hdemands, hsame ▸ htells, fun j => ?_, hpresentations⟩
  rw [hcredits, h.credits, hsame]
  refine if_congr ⟨fun hj => ⟨Nat.lt_succ_of_lt hj.1, hj.2⟩, fun hj => ⟨?_, hj.2⟩⟩ rfl rfl
  refine Nat.lt_of_le_of_ne (Nat.le_of_lt_succ hj.1) fun heq => ?_
  rw [heq] at hj
  exact Nat.lt_irrefl _ hj.2

/-- A scope that presents something ends the epoch: what it leaves over is credited. -/
theorem presented (h : l.Follows g i) (hi : i < g.scopes.length)
    (hpresents : (g.scopeAt i).sync.presents = true) {l₁ l' : Ledger}
    (htells : l₁.Tells (g.firstSignal (g.epoch i) (i + 1)) (g.WaitsBefore (g.epoch i) (i + 1)))
    (hdemands : l'.Demands g (g.epoch i) (g.sumThrough g.waitsOf (i + 1)))
    (hfences : l'.fences = []) (hunwaited : l'.unwaited = 0)
    (hcredits : l'.credits = l.credits ++ l₁.fences.filterMap (·.credit?))
    (hpresentations : l'.presentations =
      (List.range (i + 1)).flatMap fun j => (g.scopeAt j).sync.swapchains.map (·, g.epoch j)) :
    l'.Follows g (i + 1) := by
  have hnext : g.epoch (i + 1) = g.epoch i + 1 := by
    rw [Graph.epoch_succ hi, if_pos hpresents]
  have hbefore : ∀ j < i + 1, g.epoch j < g.epoch (i + 1) := by
    intro j hj
    have hmono : g.epoch j ≤ g.epoch i := Graph.epoch_mono (Nat.le_of_lt_succ hj)
    omega
  refine ⟨hdemands, .of_nil hfences hunwaited (fun _ => Graph.firstSignal_eq_none hbefore)
    fun _ => Graph.not_waitsBefore hbefore, fun j => ?_, hpresentations⟩
  rw [hcredits, List.count_append, h.credits]
  by_cases hj : g.epoch j = g.epoch i
  · -- an epoch is credited when it is presented
    have hlt : j < i + 1 :=
      Nat.lt_succ_of_le ((Graph.epoch_le_iff hi hpresents).1 (Nat.le_of_eq hj))
    rw [htells.count_credits fun f => Graph.mem_leftBy_iff hi hpresents hj, if_neg (by omega),
      if_pos ⟨hlt, hbefore j hlt⟩, Nat.zero_add]
  · have hzero : (l₁.fences.filterMap (·.credit?)).count j = 0 := by
      refine List.count_eq_zero.2 fun hmem => hj ?_
      obtain ⟨f, hf⟩ := htells.exists_of_mem_credits hmem
      exact (Graph.of_firstSignal hf).2
    rw [hzero, Nat.add_zero, hnext]
    refine if_congr ⟨fun hlt => by omega, fun hlt => ?_⟩ rfl rfl
    refine ⟨Nat.lt_of_not_le fun hle => ?_, by omega⟩
    have hmono : g.epoch i ≤ g.epoch j := Graph.epoch_mono hle
    omega

/-- **An entry** moves the account on by a scope. -/
theorem enter (h : l.Follows g i) (hi : i < g.scopes.length) :
    (Ledger.enter i (g.before i) (g.scopeAt i)).Permits l fun _ => Follows g (i + 1) := by
  unfold Ledger.enter
  simp only [Step.permits_bind]
  refine (h.openEpoch hi).mono fun _ l₁ h₁ => ?_
  rcases h₁ with ⟨hdemands₁, hrest₁⟩
  have htells₁ : l₁.Tells (g.firstSignal (g.epoch i) i) (g.WaitsBefore (g.epoch i) i) := by
    rw [hrest₁]
    exact { h.tells with }
  refine (htells₁.signalFences i _).mono fun _ l₂ h₂ => ?_
  refine (h₂.2.waitFences _).mono fun _ l₃ h₃ => ?_
  have hrest₃ := h₂.1.trans h₃.1
  have htells₃ := h₃.2.congr (fun f => (g.firstSignal_succ i f).symm)
    fun f => Graph.waitsBefore_succ.symm
  have hdemands₃ : l₃.Demands g (g.epoch i) (g.sumThrough g.waitsOf i) := by
    rw [hrest₃]
    exact { hdemands₁ with }
  refine (hdemands₃.require _).mono fun _ l₄ h₄ => ?_
  rcases h₄ with ⟨hdemands₄, hrest₄⟩
  have htells₄ : l₄.Tells (g.firstSignal (g.epoch i) (i + 1))
      (g.WaitsBefore (g.epoch i) (i + 1)) := by
    rw [hrest₄]
    exact { htells₃ with }
  have hcredits₄ : l₄.credits = l.credits := by rw [hrest₄, hrest₃, hrest₁]
  have hpresentations₄ : l₄.presentations = l.presentations := by rw [hrest₄, hrest₃, hrest₁]
  refine (hdemands₄.presentAll htells₄.length_credits (fun c hc => ?_) _ _).mono fun _ l₅ h₅ => ?_
  · obtain ⟨f, hf⟩ := htells₄.exists_of_mem_credits hc
    exact (Graph.of_firstSignal hf).2
  rcases h₅ with ⟨hdemands₅, hpresentations₅, hrest₅⟩
  have hwaits : g.sumThrough g.waitsOf (i + 1) = fun k =>
      g.sumThrough g.waitsOf i k + if g.epoch i ≤ k then g.waitsOf i else 0 :=
    funext fun k => Graph.sumThrough_succ k
  rw [hpresentations₄, h.presentations, ← List.flatMap_singleton
    (fun j => (g.scopeAt j).sync.swapchains.map (·, g.epoch j)), ← List.flatMap_append,
    ← List.range_succ] at hpresentations₅
  split at hrest₅
  · rename_i hnone
    have hquiet : (g.scopeAt i).sync.presents = false := by
      rw [Sync.presents, hnone]
      rfl
    subst hrest₅
    exact h.quiet hi hquiet (hwaits ▸ hdemands₅) htells₄ hcredits₄ hpresentations₅
  · rename_i hsome
    have hpresents : (g.scopeAt i).sync.presents = true := by
      rw [Sync.presents, Bool.not_eq_true', List.isEmpty_eq_false_iff]
      exact hsome
    rcases hrest₅ with ⟨hfences, hunwaited, hcredits⟩
    rw [hcredits₄] at hcredits
    exact h.presented hi hpresents htells₄ (hwaits ▸ hdemands₅) hfences hunwaited hcredits
      hpresentations₅

end Follows

end Ledger

end FrameSchedule
