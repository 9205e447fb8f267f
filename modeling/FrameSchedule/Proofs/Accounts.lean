import FrameSchedule.Plan.Tracking
import FrameSchedule.Proofs.Graphs
import FrameSchedule.Proofs.Runs
import Mathlib.Algebra.Order.BigOperators.Group.List
import Mathlib.Algebra.Order.Ring.Nat
import Mathlib.Data.List.Nodup

/-!
# Accounts that balance

What a ledger requires of the last tracker is what the scopes wait for and, once for
each credit, what presentations wait for (`Ledger.Balanced`).  Every entry keeps the
balance and faults only when a total is no word (`Ledger.Balanced.enter`).

Apart from the sums, no entry signals a tracker, and the handle of a ledger reaches
every tracker there is (`Ledger.Unsignalled`).
-/

namespace FrameSchedule

/-! ## Sums that are words -/

theorem Count.exists_ofNat {n : Nat} (h : n < UInt32.size) :
    ∃ w, Count.ofNat n = .ok w ∧ w.toNat = n := by
  have hval := UInt32.toNat_ofNat_of_lt' h
  exact ⟨UInt32.ofNat n, Count.ofNat_eq_ok_iff.2 hval, hval⟩

theorem Count.exists_add {a b : UInt32} (h : a.toNat + b.toNat < UInt32.size) :
    ∃ w, Count.add a b = .ok w ∧ w.toNat = a.toNat + b.toNat :=
  Count.exists_ofNat h

theorem Count.exists_sum {ns : List UInt32} (h : Count.total ns < UInt32.size) :
    ∃ w, Count.sum ns = .ok w ∧ w.toNat = Count.total ns := by
  have hval := UInt32.toNat_ofNat_of_lt' h
  exact ⟨UInt32.ofNat (Count.total ns), Count.sum_eq_ok_iff.2 hval, hval⟩

theorem Count.total_eq_sum (ns : List UInt32) : total ns = (ns.map (·.toNat)).sum := by
  induction ns with
  | nil => rfl
  | cons n ns ih => rw [total, List.map_cons, List.sum_cons, ih]

theorem Count.total_le_of_sublist {ms ns : List UInt32} (h : ms.Sublist ns) :
    total ms ≤ total ns := by
  rw [total_eq_sum, total_eq_sum]
  exact (h.map _).sum_le_sum fun n _ => Nat.zero_le n

/-- The number of primitives waited for. -/
def Sync.waits (s : Sync) : Nat :=
  s.waitSemaphores.length + s.waitFences.length

theorem Sync.pledges_eq (s : Sync) : s.pledges = s.waits + s.signalFences.length := rfl

theorem Sync.toNat_waitCount {s : Sync} (h : s.waits < UInt32.size) :
    s.waitCount.toNat = s.waits :=
  UInt32.toNat_ofNat_of_lt' h

/-- Pledges before a position are waits and signals. -/
theorem Graph.sumBefore_pledges (g : Graph) (i : Nat) :
    g.sumBefore (·.sync.pledges) i =
      g.sumBefore (·.sync.waits) i + g.sumBefore (·.sync.signalFences.length) i := by
  rw [sumBefore, sumBefore, sumBefore, ← List.sum_map_add]
  rfl

/-! ## Requirements -/

/-- A requirement is added to the last tracker and to the total, if there is a tracker. -/
theorem Chain.require_permits (n : UInt32) (c : Chain) :
    (Chain.require n).Permits c fun _ d => (c.trackers = [] ∧ d = c) ∨
      ∃ ts t u, c.trackers = ts ++ [t] ∧ d.trackers = ts ++ [u] ∧
        u.required.toNat = t.required.toNat + n.toNat ∧ u.signalled = t.signalled ∧
          d.total.toNat = c.total.toNat + n.toNat := by
  rw [Chain.require, Step.permits_bind, Step.permits_read]
  cases hlast : c.current? with
  | none => exact Step.permits_note.2 (.inl ⟨List.getLast?_eq_none_iff.1 hlast, rfl⟩)
  | some t =>
    obtain ⟨ts, hts⟩ := List.getLast?_eq_some_iff.1 hlast
    simp only [Tracker.require, Step.permits_bind, Step.permits_zoom, Step.permits_update,
      putLast, addTotal?]
    intro u hu d hd
    obtain ⟨hrequired, hsignalled⟩ := Tracker.require?_eq_ok_iff.1 hu
    obtain ⟨w, hw, rfl⟩ := exists_of_map_eq_ok hd
    refine .inr ⟨ts, t, u, hts, ?_, hrequired, hsignalled, Count.add_eq_ok_iff.1 hw⟩
    rw [hts, List.dropLast_concat]

/-- The last tracker requires all that has been required. -/
def Chain.Even (c : Chain) : Prop :=
  ∃ t, c.current? = some t ∧ t.required = c.total

theorem Chain.grow_even (c : Chain) : c.grow.Even :=
  ⟨{ required := c.total }, by simp [current?, grow], rfl⟩

theorem Chain.Even.require {c : Chain} (h : c.Even) {n : UInt32}
    (fits : c.total.toNat + n.toNat < UInt32.size) :
    (Chain.require n).Ensures c fun _ d =>
      d.Even ∧ d.total.toNat = c.total.toNat + n.toNat := by
  rcases h with ⟨t, ht, heq⟩
  obtain ⟨w, hw, hval⟩ := Count.exists_add fits
  simp only [Chain.require, Step.ensures_bind, Step.ensures_read, ht, Tracker.require,
    Step.ensures_zoom, Step.ensures_update, Tracker.require?, heq, hw, putLast, addTotal?,
    Except.map, Except.ok.injEq, exists_eq_left']
  exact ⟨⟨{ t with required := w }, by simp [current?], rfl⟩, hval⟩

/-! ## Ledgers -/

namespace Ledger

/-- The account after scopes that wait for `waits` primitives and signal `signals`
fences. -/
structure Balanced (waits signals : Nat) (l : Ledger) : Prop where
  even : l.chain.Even
  distinct : (l.fences.map (·.fence)).Nodup
  signalled : ∀ u ∈ l.fences, u.waited = false → u.signaller?.isSome
  /-- The fences that are signalled and not waited for are counted. -/
  unwaited : l.unwaited.toNat = l.fences.countP (!·.waited)
  total : l.chain.total.toNat = waits + l.credits.length
  bound : l.credits.length + l.unwaited.toNat ≤ signals

theorem opening_balanced : opening.Balanced 0 0 where
  even := Chain.grow_even _
  distinct := List.nodup_nil
  signalled := by simp [opening]
  unwaited := rfl
  total := rfl
  bound := Nat.le_refl 0

/-- As many scopes are credited as fences are left over. -/
theorem length_credits {fences : List FenceUse}
    (signalled : ∀ u ∈ fences, u.waited = false → u.signaller?.isSome) :
    (fences.filterMap (·.credit?)).length = fences.countP (!·.waited) := by
  induction fences with
  | nil => rfl
  | cons u us ih =>
    have hrest := ih fun v hv => signalled v (List.mem_cons_of_mem u hv)
    have hu := signalled u List.mem_cons_self
    cases hw : u.waited with
    | true =>
      rw [List.filterMap_cons_none (by simp [FenceUse.credit?, hw]), hrest]
      simp [hw]
    | false =>
      obtain ⟨scope, hscope⟩ := Option.isSome_iff_exists.1 (hu hw)
      have hcredit : u.credit? = some scope := by simp [FenceUse.credit?, hw, hscope]
      rw [List.filterMap_cons_some hcredit, List.length_cons, hrest]
      simp [hw]

/-- Different fences and a new one are different. -/
theorem nodup_concat {fences : List FenceUse} {u : FenceUse}
    (distinct : (fences.map (·.fence)).Nodup) (hnew : ∀ v ∈ fences, v.fence ≠ u.fence) :
    ((fences ++ [u]).map (·.fence)).Nodup := by
  rw [List.map_append, List.map_singleton]
  refine List.nodup_append.2 ⟨distinct, List.nodup_singleton _, ?_⟩
  intro a ha b hb
  obtain ⟨v, hv, rfl⟩ := List.mem_map.1 ha
  rw [List.mem_singleton.1 hb]
  exact hnew v hv

namespace Balanced

variable {l : Ledger} {waits signals : Nat}

theorem newEpoch (h : l.Balanced waits signals) :
    Ledger.newEpoch.Ensures l fun _ => Balanced waits signals := by
  simp only [Ledger.newEpoch, onChain, Chain.createHandle, Step.ensures_bind, Step.ensures_zoom,
    Step.ensures_modify, Step.ensures_read, Step.ensures_pure]
  exact { h with even := Chain.grow_even _ }

/-- A fence that the epoch has not used is one more left over. -/
theorem signalFence (h : l.Balanced waits signals) (scope : Nat) (fence : FenceId)
    (fits : signals + 1 < UInt32.size) :
    (Ledger.signalFence scope fence).Ensures l fun _ => Balanced waits (signals + 1) := by
  have hbound := h.bound
  unfold Ledger.signalFence
  rw [Step.ensures_update]
  by_cases hused : l.fences.any (·.fence = fence)
  · exact ⟨l, by rw [if_pos hused], { h with bound := by omega }⟩
  · have hone : l.unwaited.toNat + (1 : UInt32).toNat < UInt32.size := by
      simp only [UInt32.toNat_one]
      omega
    obtain ⟨w, hw, hval⟩ := Count.exists_add hone
    simp only [UInt32.toNat_one] at hval
    refine ⟨{ l with fences := l.fences ++ [⟨fence, false, some scope⟩], unwaited := w },
      by rw [if_neg hused, hw]; rfl, { h with
        distinct := ?_, signalled := ?_, unwaited := ?_, bound := by simp only; omega }⟩
    · exact nodup_concat h.distinct fun u hu heq =>
        hused (List.any_eq_true.2 ⟨u, hu, decide_eq_true heq⟩)
    · exact forall_mem_concat.2 ⟨h.signalled, fun _ => rfl⟩
    · have hold := h.unwaited
      simp only [List.countP_append, List.countP_singleton]
      simp
      omega

theorem fence_markWaited (fence : FenceId) (u : FenceUse) :
    (markWaited fence u).fence = u.fence := by
  unfold markWaited
  split <;> rfl

/-- Marking one fence of several different ones takes one from those left over. -/
theorem countP_markWaited {fences : List FenceUse} {u : FenceUse}
    (distinct : (fences.map (·.fence)).Nodup) (hu : u ∈ fences) (hwaited : u.waited = false) :
    (fences.map (markWaited u.fence)).countP (!·.waited) + 1 = fences.countP (!·.waited) := by
  induction fences with
  | nil => cases hu
  | cons v vs ih =>
    obtain ⟨hv, hvs⟩ := List.nodup_cons.1 distinct
    rcases List.mem_cons.1 hu with rfl | hu
    · have hrest : vs.map (markWaited u.fence) = vs := by
        refine (List.map_congr_left fun v hmem => ?_).trans (List.map_id vs)
        have hne : v.fence ≠ u.fence := fun heq => hv (List.mem_map.2 ⟨v, hmem, heq⟩)
        exact if_neg hne
      rw [List.map_cons, hrest]
      simp [markWaited, hwaited]
    · have hne : v.fence ≠ u.fence := fun heq => hv (List.mem_map.2 ⟨u, hu, heq.symm⟩)
      have hrest := ih hvs hu
      rw [List.map_cons, List.countP_cons, List.countP_cons, markWaited, if_neg hne]
      omega

/-- A fence that is signalled and not waited for is counted. -/
theorem one_le_unwaited (h : l.Balanced waits signals) {use : FenceUse} (hmem : use ∈ l.fences)
    (hwaited : use.waited = false) : (1 : UInt32) ≤ l.unwaited := by
  have hcount := countP_markWaited h.distinct hmem hwaited
  rw [UInt32.le_iff_toNat_le, UInt32.toNat_one, h.unwaited]
  omega

/-- A signal that is left over is taken. -/
theorem takeSignal (h : l.Balanced waits signals) {use : FenceUse} (hmem : use ∈ l.fences)
    (hwaited : use.waited = false) :
    Balanced waits signals { l with
      fences := l.fences.map (markWaited use.fence), unwaited := l.unwaited - 1 } := by
  have hold := h.unwaited
  have hbound := h.bound
  have hcount := countP_markWaited h.distinct hmem hwaited
  have hval := UInt32.toNat_sub_of_le l.unwaited 1 (h.one_le_unwaited hmem hwaited)
  rw [UInt32.toNat_one] at hval
  refine { h with distinct := ?_, signalled := ?_, unwaited := ?_, bound := ?_ }
  · rw [List.map_map]
    exact (List.map_congr_left fun u _ => fence_markWaited use.fence u) ▸ h.distinct
  · intro u hu hw
    obtain ⟨v, hv, rfl⟩ := List.mem_map.1 hu
    unfold markWaited at hw ⊢
    split at hw
    · cases hw
    · rename_i hne
      rw [if_neg hne]
      exact h.signalled v hv hw
  · simp only
    omega
  · simp only
    omega

/-- Waiting for a fence takes its signal, or marks the fence as used. -/
theorem waitFence (h : l.Balanced waits signals) (fence : FenceId) :
    (Ledger.waitFence fence).Ensures l fun _ => Balanced waits signals := by
  unfold Ledger.waitFence
  rw [Step.ensures_update]
  cases hfind : l.fences.find? (·.fence = fence) with
  | none =>
    refine ⟨_, rfl, { h with distinct := ?_, signalled := ?_, unwaited := ?_ }⟩
    · exact nodup_concat h.distinct fun u hu heq =>
        List.find?_eq_none.1 hfind u hu (decide_eq_true heq)
    · refine forall_mem_concat.2 ⟨h.signalled, fun hwaited => ?_⟩
      cases hwaited
    · simpa using h.unwaited
  | some use =>
    have hmem := List.mem_of_find?_eq_some hfind
    obtain rfl : use.fence = fence := by simpa using List.find?_some hfind
    cases hwaited : use.waited with
    | true => exact ⟨l, by simp [hwaited], h⟩
    | false =>
      have hsub : Count.sub l.unwaited 1 = .ok (l.unwaited - 1) :=
        if_pos (h.one_le_unwaited hmem hwaited)
      refine ⟨_, ?_, h.takeSignal hmem hwaited⟩
      simp only [hwaited, hsub]
      rfl

/-- Requirements of the scope itself. -/
theorem require (h : l.Balanced waits signals) {n : UInt32}
    (fits : waits + n.toNat + signals < UInt32.size) :
    (onChain (Chain.require n)).Ensures l fun _ => Balanced (waits + n.toNat) signals := by
  have htotal := h.total
  have hbound := h.bound
  unfold onChain
  rw [Step.ensures_zoom]
  apply (h.even.require (by omega)).mono
  intro _ c hc
  rcases hc with ⟨heven, hsum⟩
  exact { h with even := heven, total := by simp only; omega }

/-- What a presentation requires it credits. -/
theorem present (h : l.Balanced waits signals) (scope : String) (swapchain : SwapchainId)
    (fits : waits + signals < UInt32.size) :
    (Ledger.present scope swapchain).Ensures l fun _ => Balanced waits signals := by
  have htotal := h.total
  have hbound := h.bound
  have hunwaited := h.unwaited
  have hcredits := length_credits h.signalled
  simp only [Ledger.present, onChain, Step.ensures_bind, Step.ensures_read, Step.ensures_zoom,
    Step.ensures_modify]
  apply (h.even.require (by omega)).mono
  intro _ c hc
  rcases hc with ⟨⟨t, ht, heq⟩, hsum⟩
  simp only [credit, ht, Step.ensures_bind, Step.ensures_note, Step.ensures_write, attach]
  exact {
    even := ⟨t, ht, heq⟩
    distinct := List.nodup_nil
    signalled := by simp
    unwaited := rfl
    total := by
      simp only [List.length_append]
      omega
    bound := by
      simp only [List.length_append, UInt32.toNat_zero]
      omega }

/-- **An entry keeps the balance**, and faults only when the totals are no words. -/
theorem enter (h : l.Balanced waits signals) (position : Nat) (previous? : Option PlacedScope)
    (scope : PlacedScope) (fits : waits + signals + scope.sync.pledges < UInt32.size) :
    (Ledger.enter position previous? scope).Ensures l fun _ =>
      Balanced (waits + scope.sync.waits) (signals + scope.sync.signalFences.length) := by
  rw [Sync.pledges_eq] at fits
  have hcount : scope.sync.waitCount.toNat = scope.sync.waits :=
    Sync.toNat_waitCount (by omega)
  have hepoch : (Step.onlyIf (previous?.any (·.sync.presents)) Ledger.newEpoch).Ensures l
      fun _ => Balanced waits signals := by
    cases previous?.any (·.sync.presents) with
    | false => exact Step.ensures_onlyIf_false.2 h
    | true => exact Step.ensures_onlyIf_true.2 h.newEpoch
  -- the fences still to be signalled make up the count
  have hsignals : ∀ l' : Ledger, l'.Balanced waits signals →
      (Step.forEach (Ledger.signalFence position) scope.sync.signalFences).Ensures l' fun _ =>
        Balanced waits (signals + scope.sync.signalFences.length) := by
    intro l' hl'
    refine (Step.Ensures.forEach (fun rest m => ∃ done, m.Balanced waits done ∧
      done + rest.length = signals + scope.sync.signalFences.length) ?_ ⟨_, hl', rfl⟩).mono ?_
    · intro fence rest m hm
      rcases hm with ⟨done, hm, hdone⟩
      rw [List.length_cons] at hdone
      apply (hm.signalFence position fence (by omega)).mono
      intro _ m' hm'
      exact ⟨done + 1, hm', by omega⟩
    · intro _ m hm
      rcases hm with ⟨done, hm, hdone⟩
      rw [List.length_nil] at hdone
      obtain rfl : done = signals + scope.sync.signalFences.length := by omega
      exact hm
  unfold Ledger.enter
  simp only [Step.ensures_bind]
  refine hepoch.mono fun _ l₁ h₁ => (hsignals l₁ h₁).mono fun _ l₂ h₂ => ?_
  have hwaits := Step.Ensures.forEach (l := scope.sync.waitFences)
    (fun _ m => Balanced waits (signals + scope.sync.signalFences.length) m)
    (fun fence _ _ hm => hm.waitFence fence) h₂
  refine hwaits.mono fun _ l₃ h₃ => (h₃.require (n := scope.sync.waitCount) (by omega)).mono
    fun _ l₄ h₄ => ?_
  rw [hcount] at h₄
  exact Step.Ensures.forEach (l := scope.sync.swapchains)
    (fun _ m => Balanced (waits + scope.sync.waits)
      (signals + scope.sync.signalFences.length) m)
    (fun swapchain _ _ hm => hm.present scope.name swapchain (by omega)) h₄

end Balanced

/-! ## What the scopes account for -/

/-- The signals that a scope at a position accounts for. -/
def due (l : Ledger) (m : PlacedScope × Nat) : Nat :=
  m.1.sync.waits + l.credits.count m.2

theorem exists_account {l : Ledger} {position : Nat} {scope : PlacedScope}
    (fits : l.due (scope, position) < UInt32.size) :
    ∃ w, l.account position scope = .ok w ∧ w.toNat = l.due (scope, position) := by
  unfold due at fits ⊢
  simp only at fits ⊢
  have hcount : scope.sync.waitCount.toNat = scope.sync.waits :=
    Sync.toNat_waitCount (by omega)
  obtain ⟨n, hn, hval⟩ := Count.exists_ofNat (n := l.credits.count position) (by omega)
  have hsum : scope.sync.waitCount.toNat + n.toNat < UInt32.size := by omega
  obtain ⟨w, hw, hwval⟩ := Count.exists_add hsum
  refine ⟨w, ?_, by omega⟩
  simp only [account, hn, bind, Except.bind]
  exact hw

theorem exists_accounts {l : Ledger} {start : Nat} {members : List PlacedScope}
    (fits : ((members.zipIdx start).map l.due).sum < UInt32.size) :
    ∃ w, l.accounts start members = .ok w ∧
      w.toNat = ((members.zipIdx start).map l.due).sum := by
  unfold accounts
  generalize members.zipIdx start = ms at fits ⊢
  have heach : ∀ m ∈ ms, ∃ w, l.account m.2 m.1 = .ok w ∧ w.toNat = l.due m := by
    intro m hm
    have hle := List.single_le_sum (fun n _ => Nat.zero_le n) _
      (List.mem_map_of_mem (f := l.due) hm)
    exact exists_account (Nat.lt_of_le_of_lt hle fits)
  obtain ⟨ws, hws⟩ := exists_forall₂ heach
  have htotal : Count.total ws = (ms.map l.due).sum := by
    rw [Count.total_eq_sum, map_eq_of_forall₂ hws fun _ _ hw => hw.2.symm]
  have hfits : Count.total ws < UInt32.size := by
    rw [htotal]
    exact fits
  obtain ⟨w, hw, hval⟩ := Count.exists_sum hfits
  refine ⟨w, ?_, by omega⟩
  rw [mapM_eq_ok_iff.2 (hws.imp fun _ _ h => h.1)]
  exact hw

/-- Positions that differ count different entries of a list. -/
theorem sum_count_le_length {ks : List Nat} (distinct : ks.Nodup) (cs : List Nat) :
    (ks.map fun k => cs.count k).sum ≤ cs.length := by
  induction cs with
  | nil => simp
  | cons c cs ih =>
    have hsplit : (ks.map fun k => (c :: cs).count k).sum =
        (ks.map fun k => cs.count k).sum + ks.count c := by
      clear ih distinct
      induction ks with
      | nil => rfl
      | cons k ks ih =>
        rw [List.map_cons, List.sum_cons, ih, List.map_cons, List.sum_cons, List.count_cons,
          List.count_cons]
        by_cases hkc : c = k
        · simp [hkc]
          omega
        · simp [hkc, Ne.symm hkc]
          omega
    have hone := List.nodup_iff_count_le_one.1 distinct c
    rw [hsplit, List.length_cons]
    omega

/-- The signals that all scopes of a frame account for are pledged by its scopes. -/
theorem sum_due_le {l : Ledger} (scopes : List PlacedScope) {waits signals : Nat}
    (h : l.Balanced waits signals) (start : Nat) :
    ((scopes.zipIdx start).map l.due).sum ≤ (scopes.map (·.sync.waits)).sum + signals := by
  have hsplit : ((scopes.zipIdx start).map l.due).sum =
      (scopes.map (·.sync.waits)).sum +
        (((scopes.zipIdx start).map (·.2)).map fun k => l.credits.count k).sum := by
    induction scopes generalizing start with
    | nil => rfl
    | cons s ss ih =>
      simp only [List.zipIdx_cons, List.map_cons, List.sum_cons, ih, due]
      omega
  have hdistinct : ((scopes.zipIdx start).map (·.2)).Nodup := by
    rw [List.zipIdx_map_snd]
    exact List.nodup_range'
  have hcount := sum_count_le_length hdistinct l.credits
  have hbound := h.bound
  omega

/-! ## Trackers before any signal -/

/-- The handle reaches every tracker, and none has been signalled. -/
structure Unsignalled (l : Ledger) : Prop where
  some : l.chain.trackers ≠ []
  reach : l.handle.reach = l.chain.trackers.length
  blank : ∀ t ∈ l.chain.trackers, t.signalled = 0

theorem opening_unsignalled : opening.Unsignalled where
  some := by simp [opening, Chain.grow]
  reach := rfl
  blank := by simp [opening, Chain.grow]

namespace Unsignalled

variable {l : Ledger}

/-- Requirements leave the handles and the signals as they are. -/
theorem require (h : l.Unsignalled) (n : UInt32) :
    (onChain (Chain.require n)).Permits l fun _ => Unsignalled := by
  unfold onChain
  rw [Step.permits_zoom]
  intro _ c hc
  rcases Chain.require_permits n l.chain () c hc with
    ⟨-, rfl⟩ | ⟨ts, t, u, hts, hus, -, hsignalled, -⟩
  · exact h
  · have hblank := h.blank
    have hreach := h.reach
    rw [hts] at hblank hreach
    refine { some := ?_, reach := ?_, blank := ?_ }
    · rw [hus]
      exact List.concat_ne_nil u ts
    · rw [hus, hreach, List.length_append, List.length_append]
      rfl
    · rw [hus]
      obtain ⟨hbefore, hlast⟩ := forall_mem_concat.1 hblank
      exact forall_mem_concat.2 ⟨hbefore, hsignalled.trans hlast⟩

/-- A new epoch has a new tracker, and a handle that reaches it. -/
theorem newEpoch (h : l.Unsignalled) : Ledger.newEpoch.Permits l fun _ => Unsignalled := by
  simp only [Ledger.newEpoch, onChain, Chain.createHandle, Step.permits_bind, Step.permits_zoom,
    Step.permits_modify, Step.permits_read, Step.permits_pure]
  exact {
    some := by simp [Chain.grow]
    reach := rfl
    blank := forall_mem_concat.2 ⟨h.blank, rfl⟩ }

theorem signalFence (h : l.Unsignalled) (position : Nat) (fence : FenceId) :
    (Ledger.signalFence position fence).Permits l fun _ => Unsignalled := by
  unfold Ledger.signalFence
  rw [Step.permits_update]
  intro l' hl'
  split at hl'
  · cases hl'
    exact h
  · obtain ⟨w, -, rfl⟩ := exists_of_map_eq_ok hl'
    exact { h with }

theorem waitFence (h : l.Unsignalled) (fence : FenceId) :
    (Ledger.waitFence fence).Permits l fun _ => Unsignalled := by
  unfold Ledger.waitFence
  rw [Step.permits_update]
  intro l' hl'
  split at hl'
  · cases hl'
    exact { h with }
  · split at hl'
    · cases hl'
      exact h
    · obtain ⟨w, -, rfl⟩ := exists_of_map_eq_ok hl'
      exact { h with }

theorem present (h : l.Unsignalled) (scope : String) (swapchain : SwapchainId) :
    (Ledger.present scope swapchain).Permits l fun _ => Unsignalled := by
  unfold Ledger.present
  rw [Step.permits_bind, Step.permits_read, Step.permits_bind]
  refine (h.require l.unwaited).mono fun _ m hm => ?_
  simp only [Step.permits_bind, Step.permits_modify, Step.permits_read]
  cases hlast : m.credit.chain.current? with
  | none => exact Step.permits_pure.2 { hm with }
  | some t =>
    simp only [Step.permits_bind, Step.permits_note, Step.permits_write]
    exact { hm with }

/-- No entry signals a tracker. -/
theorem enter (h : l.Unsignalled) (position : Nat) (previous? : Option PlacedScope)
    (scope : PlacedScope) :
    (Ledger.enter position previous? scope).Permits l fun _ => Unsignalled := by
  have hepoch : (Step.onlyIf (previous?.any (·.sync.presents)) Ledger.newEpoch).Permits l
      fun _ => Unsignalled :=
    Step.permits_onlyIf.2 ⟨fun _ => h.newEpoch, fun _ => h⟩
  unfold Ledger.enter
  simp only [Step.permits_bind]
  refine hepoch.mono fun _ l₁ h₁ => ?_
  have hsignals := Step.Permits.forEach (l := scope.sync.signalFences) Unsignalled
    (fun fence _ hl => hl.signalFence position fence) h₁
  refine hsignals.mono fun _ l₂ h₂ => ?_
  have hwaits := Step.Permits.forEach (l := scope.sync.waitFences) Unsignalled
    (fun fence _ hl => hl.waitFence fence) h₂
  refine hwaits.mono fun _ l₃ h₃ => (h₃.require scope.sync.waitCount).mono fun _ l₄ h₄ => ?_
  exact Step.Permits.forEach Unsignalled
    (fun swapchain _ hl => hl.present scope.name swapchain) h₄

end Unsignalled

end Ledger

end FrameSchedule
