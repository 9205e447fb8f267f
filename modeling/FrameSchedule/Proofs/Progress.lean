import FrameSchedule.Backend.Memory
import FrameSchedule.Live
import FrameSchedule.Proofs.Gains
import FrameSchedule.Proofs.Plans

/-!
# What recording leads to

The progress of a group is a function of the set of the tasks that have been done
(`Group.progressAt`), and the trackers are a function of the handlers that have retired
(`Handler.settle`).  Neither depends on the order of the tasks.
-/

namespace FrameSchedule

/-- A list of a group. -/
abbrev Task := Group × Nat

/-! ## Slots -/

namespace Group

variable {G : Group} {done : List Task} {i : Nat}

/-- What the backend in memory records into list `i` of a group. -/
def listOf (G : Group) (i : Nat) : CommandList where
  label := G.label
  level := G.level
  recorded := G.members.map fun s => (s.id, G.items i s)

/-- The lists of a group that are still to come. -/
def missing (G : Group) (done : List Task) : Finset Nat :=
  (Finset.range G.lists.toNat).filter fun i => (G, i) ∉ done

/-- The progress of a group after the tasks that are done. -/
def progressAt (G : Group) (done : List Task) : Progress MemoryList where
  slots := (List.range G.lists.toNat).map fun i =>
    if (G, i) ∈ done then some (.own (G.listOf i)) else none
  remaining := UInt32.ofNat (G.missing done).card
  complete := (G.missing done).card = 0

theorem mem_missing : i ∈ G.missing done ↔ i < G.lists.toNat ∧ (G, i) ∉ done := by
  rw [missing, Finset.mem_filter, Finset.mem_range]

theorem card_missing_le : (G.missing done).card ≤ G.lists.toNat := by
  unfold missing
  exact Nat.le_trans (Finset.card_filter_le _ _) (Nat.le_of_eq (Finset.card_range _))

theorem card_missing_eq_zero_iff :
    (G.missing done).card = 0 ↔ ∀ i < G.lists.toNat, (G, i) ∈ done := by
  rw [Finset.card_eq_zero, Finset.eq_empty_iff_forall_notMem]
  simp only [mem_missing, not_and, not_not]

theorem toNat_remaining :
    (G.progressAt done).remaining.toNat = (G.missing done).card :=
  Count.toNat_ofNat_of_le (Nat.le_trans card_missing_le (Count.toNat_le_largest _))

/-- A task done is one list less to come. -/
theorem card_missing_cons (hi : i < G.lists.toNat) (hnew : (G, i) ∉ done) :
    (G.missing ((G, i) :: done)).card + 1 = (G.missing done).card := by
  have herase : G.missing ((G, i) :: done) = (G.missing done).erase i := by
    ext j
    simp only [mem_missing, Finset.mem_erase, List.mem_cons, Prod.mk.injEq, true_and, not_or]
    tauto
  rw [herase]
  exact Finset.card_erase_add_one (mem_missing.2 ⟨hi, hnew⟩)

/-- A task leaves the progress of other groups as it is. -/
theorem progressAt_cons_of_ne {G' : Group} (hne : G' ≠ G) :
    G'.progressAt ((G, i) :: done) = G'.progressAt done := by
  have hmem : ∀ j, (G', j) ∈ (G, i) :: done ↔ (G', j) ∈ done := by
    intro j
    simp [hne]
  have hmissing : G'.missing ((G, i) :: done) = G'.missing done := by
    ext j
    rw [mem_missing, mem_missing, hmem]
  rw [progressAt, progressAt, hmissing]
  simp only [hmem]

theorem progressAt_nil (h : G.lists ≠ 0) : G.progressAt [] = .blank G.lists := by
  have hmissing : (G.missing []).card = G.lists.toNat := by
    rw [missing, Finset.filter_true_of_mem (by simp), Finset.card_range]
  have hne : G.lists.toNat ≠ 0 := fun hzero => h (UInt32.toNat_inj.1 hzero)
  rw [progressAt, Progress.blank, hmissing, UInt32.ofNat_toNat]
  simp [hne, List.map_const']

theorem filled_progressAt (hnew : (G, i) ∉ done) : (G.progressAt done).filled i = false := by
  rw [Progress.filled, progressAt, List.getElem?_map]
  rcases Nat.lt_or_ge i G.lists.toNat with hi | hi
  · rw [List.getElem?_range hi]
    simp [hnew]
  · rw [List.getElem?_eq_none (by simpa using hi)]
    rfl

/-- Filling a slot adds a task. -/
theorem fill_progressAt (hi : i < G.lists.toNat) (hnew : (G, i) ∉ done) :
    (G.progressAt done).fill i (.own (G.listOf i)) = G.progressAt ((G, i) :: done) := by
  have hcard := card_missing_cons hi hnew
  have hle : (G.missing done).card ≤ Count.largest :=
    Nat.le_trans card_missing_le (Count.toNat_le_largest _)
  have hremaining : (G.progressAt done).remaining - 1 =
      UInt32.ofNat (G.missing ((G, i) :: done)).card := by
    apply UInt32.toNat_inj.1
    have hone : (1 : UInt32) ≤ (G.progressAt done).remaining := by
      rw [UInt32.le_iff_toNat_le, toNat_remaining, UInt32.toNat_one]
      omega
    rw [UInt32.toNat_sub_of_le _ _ hone, toNat_remaining, UInt32.toNat_one,
      Count.toNat_ofNat_of_le (by omega)]
    omega
  have hslots : (G.progressAt done).slots.set i (some (.own (G.listOf i))) =
      (G.progressAt ((G, i) :: done)).slots := by
    apply List.ext_getElem (by simp [progressAt])
    intro j hj hj'
    simp only [progressAt, List.getElem_set, List.getElem_map, List.getElem_range, List.mem_cons,
      Prod.mk.injEq, true_and]
    by_cases hij : i = j
    · simp [hij]
    · simp [hij, Ne.symm hij]
  have hcomplete : ((G.progressAt done).complete || decide ((G.progressAt done).remaining = 1)) =
      (G.progressAt ((G, i) :: done)).complete := by
    have hold : (G.progressAt done).complete = false := decide_eq_false (by omega)
    have hlast : (G.progressAt done).remaining = 1 ↔ (G.missing ((G, i) :: done)).card = 0 := by
      rw [← UInt32.toNat_inj, toNat_remaining, UInt32.toNat_one]
      omega
    rw [hold, Bool.false_or, progressAt]
    exact decide_eq_decide.2 hlast
  rw [Progress.fill, hslots, hremaining, hcomplete]
  rfl

/-- The lists of a group whose tasks are all done. -/
theorem lists_progressAt (hall : ∀ i < G.lists.toNat, (G, i) ∈ done) :
    (G.progressAt done).lists = (List.range G.lists.toNat).map fun i => .own (G.listOf i) := by
  have hslots : (G.progressAt done).slots =
      ((List.range G.lists.toNat).map fun i => .own (G.listOf i)).map some := by
    rw [progressAt, List.map_map]
    apply List.map_congr_left
    intro i hi
    rw [if_pos (hall i (List.mem_range.1 hi))]
    rfl
  rw [Progress.lists, hslots, List.filterMap_map]
  exact List.filterMap_some

end Group

/-! ## Signals -/

/-- No tracker has had more than so many signals. -/
def Chain.Within (n : Nat) (c : Chain) : Prop :=
  ∀ t ∈ c.trackers, t.signalled.toNat ≤ n

theorem Chain.Within.mono {m n : Nat} {c : Chain} (h : c.Within m) (hmn : m ≤ n) : c.Within n :=
  fun t ht => Nat.le_trans (h t ht) hmn

/-- Signals that can be counted do not fault. -/
theorem Chain.signalFirst_ensures {n : Nat} {count : UInt32}
    (fits : n + count.toNat < UInt32.size) (reach : Nat) {ts : List Tracker}
    (h : ∀ t ∈ ts, t.signalled.toNat ≤ n) :
    Step.Ensures (signalFirst count reach) ts fun (_ : Unit) us =>
      ∀ u ∈ us, u.signalled.toNat ≤ n + count.toNat := by
  apply (signalFirst_leaves count reach ts).elim
  · intro _ hresult hgain
    refine ⟨(), _, ⟨hresult, rfl⟩, fun u hu => ?_⟩
    obtain ⟨k, hk⟩ := List.mem_iff_getElem?.1 hu
    obtain ⟨t, ht⟩ := hgain.exists_before hk
    have hold := h t (List.mem_of_getElem? ht)
    rw [hgain.signalled k t u ht hk]
    split <;> omega
  · intro stop _ hstop
    obtain ⟨-, m, t, -, ht, hlargest, -⟩ := hstop
    have hold := h t (List.mem_of_getElem? ht)
    rw [Count.largest] at hlargest
    omega

namespace Handler

/-- The signals that a handler sends. -/
def signals (h : Handler) : Nat :=
  Count.total (h.groups.map (·.signals))

/-- The chain after the signals of a handler. -/
def settle (h : Handler) (c : Chain) : Chain :=
  if h.signals = 0 then c
  else h.first.handle?.elim c fun handle =>
    ((handle.signal (UInt32.ofNat h.signals)).run c).state

/-- The chain after handlers have submitted in order. -/
def settleAll (hs : List Handler) (c : Chain) : Chain :=
  hs.foldl (fun c h => h.settle c) c

@[simp] theorem map_settleAll_nil (chain? : Option Chain) :
    chain?.map (settleAll []) = chain? := by
  cases chain? <;> rfl

/-- The handler at a position settles what those before it have left. -/
theorem map_settleAll_take {hs : List Handler} {c : Nat} {h : Handler} (hc : hs[c]? = some h)
    (chain? : Option Chain) :
    (chain?.map (settleAll (hs.take c))).map h.settle =
      chain?.map (settleAll (hs.take (c + 1))) := by
  obtain ⟨hlt, rfl⟩ := List.getElem?_eq_some_iff.1 hc
  rw [Option.map_map, List.take_succ_eq_append_getElem hlt]
  refine congrArg (fun settle => chain?.map settle) (funext fun chain => ?_)
  rw [Function.comp_apply, settleAll, settleAll, List.foldl_append]
  rfl

/-- Without signals, or without a handle, nothing is signalled. -/
theorem settle_of_none {h : Handler} (hnone : h.signals = 0 ∨ h.first.handle? = none)
    (c : Chain) : h.settle c = c := by
  unfold settle
  split
  · rfl
  · rename_i hne
    rw [hnone.resolve_left hne, Option.elim_none]

/-- Signals of a handler that can be counted. -/
theorem signal_yields {h : Handler} {c : Chain} {n : Nat} (within : c.Within n)
    (fits : n + h.signals < UInt32.size) {handle : Handle} (hhandle : h.first.handle? = some handle)
    (hne : h.signals ≠ 0) :
    (handle.signal (UInt32.ofNat h.signals)).Yields c () (h.settle c) := by
  have hval : (UInt32.ofNat h.signals).toNat = h.signals :=
    UInt32.toNat_ofNat_of_lt' (by omega)
  obtain ⟨_, _, ⟨hresult, rfl⟩, -⟩ :=
    Chain.signalFirst_ensures (by rw [hval]; exact fits) handle.reach within
  refine ⟨hresult, ?_⟩
  rw [settle, if_neg hne, hhandle, Option.elim_some]

theorem settle_within {h : Handler} {c : Chain} {n : Nat} (within : c.Within n)
    (fits : n + h.signals < UInt32.size) : (h.settle c).Within (n + h.signals) := by
  unfold settle
  split
  · exact within.mono (Nat.le_add_right n _)
  · have hval : (UInt32.ofNat h.signals).toNat = h.signals :=
      UInt32.toNat_ofNat_of_lt' (by omega)
    cases h.first.handle? with
    | none => exact within.mono (Nat.le_add_right n _)
    | some handle =>
      obtain ⟨_, us, ⟨-, hstate⟩, hus⟩ :=
        Chain.signalFirst_ensures (by rw [hval]; exact fits) handle.reach within
      rw [hval] at hus
      rw [Option.elim_some]
      intro t ht
      apply hus t
      rw [← hstate]
      exact ht

theorem settleAll_within {hs : List Handler} {c : Chain} {n : Nat} (within : c.Within n)
    (fits : n + (hs.map (·.signals)).sum < UInt32.size) :
    (settleAll hs c).Within (n + (hs.map (·.signals)).sum) := by
  induction hs generalizing c n with
  | nil => exact within
  | cons h hs ih =>
    rw [List.map_cons, List.sum_cons] at fits ⊢
    have hstep := settle_within (h := h) within (by omega)
    have hrest := ih hstep (by omega)
    rw [← Nat.add_assoc]
    exact hrest

/-- The handlers of a plan send the signals of its groups. -/
theorem sum_signals {p : Plan} (formed : p.Formed) :
    (p.handlers.map (·.signals)).sum = Count.total (p.groups.map (·.signals)) := by
  rw [formed.runs]
  conv => right; rw [← flatMap_ofRuns p.groups]
  generalize ofRuns p.groups = hs
  induction hs with
  | nil => rfl
  | cons h hs ih =>
    rw [List.map_cons, List.sum_cons, ih, List.flatMap_cons, List.map_append, signals,
      Count.total_eq_sum, Count.total_eq_sum, Count.total_eq_sum, List.map_append, List.sum_append]

end Handler

end FrameSchedule
