import FrameSchedule.Proofs.Retirement

/-!
# The slots of a group

A group counts the lists that are still to come, and is complete when the last has come.
Until its handler submits, the count is the number of empty slots and the group is complete
just when no slot is empty (`Progress.Counted`); then its lists are taken out of their slots
and handed to the backend in one batch (`Live.Hands`).
-/

namespace FrameSchedule

variable {σ Λ : Type}

/-! ## The ledger of a group -/

namespace Progress

/-- The number of empty slots. -/
def vacant (q : Progress Λ) : Nat :=
  q.slots.countP (·.isNone)

/-- The ledger of slots agrees with the slots. -/
structure Counted (q : Progress Λ) : Prop where
  remaining : q.remaining.toNat = q.vacant
  complete : q.complete = true ↔ q.vacant = 0

variable {q : Progress Λ} {i : Nat}

theorem blank_counted {lists : UInt32} (hne : lists ≠ 0) :
    (blank lists : Progress Λ).Counted := by
  have hvacant : (blank lists : Progress Λ).vacant = lists.toNat := by
    simp [vacant, blank, List.countP_replicate]
  refine ⟨hvacant.symm, iff_of_false Bool.false_ne_true fun hzero => ?_⟩
  exact Nat.ne_of_gt (Count.pos_of_ne_zero hne) (hvacant.symm.trans hzero)

/-- A slot that holds no list is empty, or there is no such slot. -/
theorem getElem?_of_not_filled (hi : i < q.slots.length) (hnew : q.filled i = false) :
    q.slots[i]? = some none := by
  have hget := List.getElem?_eq_getElem hi
  rw [filled, hget, Option.join_some, Option.isSome_eq_false_iff, Option.isNone_iff_eq_none] at hnew
  rw [hget, hnew]

/-- A list that is stored fills one slot. -/
theorem vacant_fill (hi : i < q.slots.length) (hnew : q.filled i = false) (list : Λ) :
    (q.fill i list).vacant + 1 = q.vacant := by
  have hget := getElem?_of_not_filled hi hnew
  rw [List.getElem?_eq_getElem hi, Option.some_inj] at hget
  have hpos : 0 < q.vacant := List.countP_pos_iff.2 ⟨none, hget ▸ List.getElem_mem hi, rfl⟩
  have hset : (q.fill i list).vacant = q.vacant - 1 := by
    simp [vacant, fill, List.countP_set hi, hget]
  omega

theorem Counted.fill (h : q.Counted) (hi : i < q.slots.length) (hnew : q.filled i = false)
    (list : Λ) : (q.fill i list).Counted := by
  have hvacant := vacant_fill hi hnew list
  have hremaining := h.remaining
  have hone : q.remaining = 1 ↔ (q.fill i list).vacant = 0 := by
    rw [← UInt32.toNat_inj, UInt32.toNat_one]
    omega
  have hopen : q.complete = false := by
    rw [Bool.eq_false_iff, ne_eq, h.complete]
    omega
  have hless : (1 : UInt32) ≤ q.remaining := by
    rw [UInt32.le_iff_toNat_le, UInt32.toNat_one]
    omega
  refine ⟨?_, ?_⟩
  · show (q.remaining - 1).toNat = _
    rw [UInt32.toNat_sub_of_le _ _ hless, UInt32.toNat_one]
    omega
  · show (q.complete || decide (q.remaining = 1)) = true ↔ _
    rw [hopen, Bool.false_or, decide_eq_true_iff, hone]

theorem vacant_eq_zero_iff : q.vacant = 0 ↔ ∀ i < q.slots.length, q.filled i = true := by
  have hslot : ∀ i (hi : i < q.slots.length), q.filled i = q.slots[i].isSome := by
    intro i hi
    rw [filled, List.getElem?_eq_getElem hi, Option.join_some]
  rw [vacant, List.countP_eq_zero]
  constructor
  · intro hall i hi
    rw [hslot i hi, ← Option.not_isNone, Bool.not_eq_true']
    exact Bool.eq_false_iff.2 (hall _ (List.getElem_mem hi))
  · intro hall slot hmem
    obtain ⟨i, hi, rfl⟩ := List.mem_iff_getElem.1 hmem
    have hfilled := hall i hi
    rw [hslot i hi, ← Option.not_isNone, Bool.not_eq_true'] at hfilled
    exact Bool.eq_false_iff.1 hfilled

theorem filled_fill (hi : i < q.slots.length) (list : Λ) (j : Nat) :
    (q.fill i list).filled j = (decide (i = j) || q.filled j) := by
  rw [filled, fill, List.getElem?_set]
  by_cases hij : i = j
  · subst hij
    simp [hi]
  · simp [hij, filled]

/-- Without an empty slot, there is a list in each. -/
theorem lists_of_vacant (h : q.vacant = 0) : q.slots = q.lists.map some := by
  unfold vacant at h
  unfold lists
  generalize q.slots = slots at h
  induction slots with
  | nil => rfl
  | cons slot slots ih =>
    rw [List.countP_cons] at h
    cases slot with
    | none => simp at h
    | some list =>
      have hrest := ih (by omega)
      simpa using hrest

end Progress

/-! ## Submissions -/

namespace Live

variable {l l' : Live (Receipted σ Λ) Λ} {H : Handler} {k : Nat}

/-- The lists of the handler at a position have been taken out of their slots and handed to
the backend, which has accepted them or not. -/
def Hands (k : Nat) (H : Handler) (l l' : Live (Receipted σ Λ) Λ) : Prop :=
  ∃ taken f chain? accepted,
    (Frame.takeAll 0 0 H.groups).Yields (l.frame.markExecuted k) taken f ∧
      l'.frame = { f with chain? := chain? } ∧
        l'.backend.receipts = l.backend.receipts ++ [⟨H.batch taken.1, accepted⟩]

/-- A submission hands the lists of its handler over, however it ends. -/
theorem submit_hands (b : Backend σ Λ) (hnew : l.frame.handlerExecuted k = false)
    (hsignals : H.signals < UInt32.size) :
    (submit (Receipted.backend b) k H).Leaves l (fun _ => l.Hands k H)
      fun _ => l.Hands k H := by
  obtain ⟨taken, f, htake, hleaves⟩ := submit_outcomes False b hnew hsignals False.elim
  have hhands : ∀ {accepted : Bool} {l' : Live (Receipted σ Λ) Λ},
      Handed H taken.1 accepted f l l' → l.Hands k H l' :=
    fun h => ⟨taken, f, _, _, htake, h.rest, h.receipt⟩
  apply hleaves.mono
  · exact fun _ l' h => hhands h.1
  · intro stop l' h
    rcases h with ⟨handed, -⟩ | ⟨handed, -⟩
    · exact hhands handed
    · exact hhands handed

end Live

end FrameSchedule
