import FrameSchedule.Proofs.Faults
import FrameSchedule.Proofs.Slots
import FrameSchedule.Proofs.Stability

/-!
# What is in the lists of a batch

What a list was begun with and what has been recorded into it is said over another wrapped
backend: its lists are those of the wrapped backend, each stamped with the calls that it was
made by (`Stamped`).

Whatever an open frame is asked for and whatever the backend refuses, a slot holds a list
that was made for it (`Group.Made`), and the batch of a handler holds one list for each slot
of its groups, in order (`Handler.Fills`).
-/

namespace FrameSchedule

variable {σ Λ : Type}

/-! ## The wrapper -/

/-- A command list with the calls that it was made by. -/
structure Stamped (Λ : Type) where
  native : Λ
  spec : ListSpec
  jobs : List RecordJob := []
  deriving DecidableEq

namespace Stamped

/-- The batch without the stamps. -/
def bare (batch : Batch (Stamped Λ)) : Batch Λ :=
  { batch with lists := batch.lists.map fun list => { list with native := list.native.native } }

/-- The backend that stamps its lists. -/
def backend (b : Backend σ Λ) : Backend σ (Stamped Λ) where
  name := b.name
  beginList spec := (⟨·, spec, []⟩) <$> b.beginList spec
  recordScope list job :=
    (⟨·, list.spec, list.jobs ++ [job]⟩) <$> b.recordScope list.native job
  submit batch := b.submit (bare batch)

end Stamped

/-! ## Lists that were made for their slots -/

/-- The list was begun as list `i` of the group, and all scopes have been recorded into it. -/
structure Group.Made (G : Group) (i : Nat) (list : Stamped Λ) : Prop where
  spec : list.spec = G.spec i
  jobs : list.jobs = G.members.map (G.recordJob i)

/-- The group has its slots, and a slot holds a list that was made for it. -/
structure Progress.Holds (G : Group) (q : Progress (Stamped Λ)) : Prop where
  length : q.slots.length = G.lists.toNat
  made : ∀ (i : Nat) (list : Stamped Λ), q.slots[i]? = some (some list) → G.Made i list

/-- The lists are those of groups, which are subpasses from `subpass` on: one for each slot
of each group, in order. -/
def Handler.FillsFrom (subpass : Nat) (gs : List Group)
    (lists : List (RecordedList (Stamped Λ))) : Prop :=
  List.Forall₂ (fun (slot : (Group × Nat) × Nat) list =>
      slot.1.1.Made slot.2 list.native ∧ list = slot.1.1.recorded slot.1.2 list.native)
    ((gs.zipIdx subpass).flatMap fun g => (List.range g.1.lists.toNat).map (g, ·)) lists

/-- The lists are those of the handler's groups, one for each slot. -/
def Handler.Fills (h : Handler) (lists : List (RecordedList (Stamped Λ))) : Prop :=
  FillsFrom 0 h.groups lists

namespace Progress.Holds

variable {G : Group} {q : Progress (Stamped Λ)} {i : Nat} {list : Stamped Λ}

theorem blank (G : Group) : Holds G (Progress.blank G.lists : Progress (Stamped Λ)) where
  length := List.length_replicate
  made i list hlist := by
    rw [Progress.blank, List.getElem?_replicate] at hlist
    split at hlist <;> cases hlist

theorem fill (h : q.Holds G) (hlist : G.Made i list) : (q.fill i list).Holds G where
  length := by rw [Progress.fill, List.length_set, h.length]
  made j list' hlist' := by
    rw [Progress.fill, List.getElem?_set] at hlist'
    split at hlist'
    · rename_i hij
      split at hlist'
      · cases hlist'
        exact hij ▸ hlist
      · cases hlist'
    · exact h.made j list' hlist'

theorem emptied (h : q.Holds G) : q.emptied.Holds G where
  length := by rw [Progress.emptied, List.length_map, h.length]
  made i list hlist := by
    rw [Progress.emptied, List.getElem?_map] at hlist
    cases hslot : q.slots[i]? with
    | none => rw [hslot] at hlist; cases hlist
    | some slot => rw [hslot] at hlist; cases hlist

/-- A group without an empty slot has a list for each. -/
theorem fills (h : q.Holds G) (hfull : q.vacant = 0) (subpass : Nat) :
    Handler.FillsFrom subpass [G] (q.lists.map (G.recorded subpass)) := by
  have hslots := Progress.lists_of_vacant hfull
  have hlength := h.length
  rw [hslots, List.length_map] at hlength
  have hslot : ∀ (i : Nat) (list : Stamped Λ), q.lists[i]? = some list → G.Made i list := by
    intro i list hlist
    refine h.made i list ?_
    rw [hslots, List.getElem?_map, hlist, Option.map_some]
  unfold Handler.FillsFrom
  rw [List.zipIdx_singleton, List.flatMap_singleton]
  refine List.forall₂_iff_get.2 ⟨?_, fun i hi hi' => ?_⟩
  · rw [List.length_map, List.length_range, List.length_map, hlength]
  · rw [List.length_map] at hi'
    simp only [List.get_eq_getElem, List.getElem_map, List.getElem_range]
    exact ⟨hslot i _ (List.getElem?_eq_getElem hi'), rfl⟩

end Progress.Holds

theorem Handler.FillsFrom.cons {subpass : Nat} {G : Group} {gs : List Group}
    {lists lists' : List (RecordedList (Stamped Λ))} (h : FillsFrom subpass [G] lists)
    (hrest : FillsFrom (subpass + 1) gs lists') :
    FillsFrom subpass (G :: gs) (lists ++ lists') := by
  unfold FillsFrom at h ⊢
  rw [List.zipIdx_singleton, List.flatMap_singleton] at h
  rw [List.zipIdx_cons, List.flatMap_cons]
  exact List.rel_append h hrest

/-! ## Steps of a frame -/

namespace Frame

variable {f f' : Frame Λ} {G : Group} {q : Progress Λ} {i : Nat} {list : Λ} {last : Bool}

/-- Progress is set for one group of a plan. -/
theorem getElem?_setProgress {p : Plan} (formed : p.Formed) (hG : G ∈ p.groups) {G' : Group}
    (hG' : G' ∈ p.groups) (hq : f.progress[G.index]? = some q) (q' : Progress Λ) :
    (setProgress G q' f).progress[G'.index]? =
      if G' = G then some q' else f.progress[G'.index]? := by
  rw [setProgress, List.getElem?_set]
  by_cases hsame : G' = G
  · rw [if_pos hsame, if_pos (congrArg (·.index) hsame).symm,
      if_pos (List.getElem?_eq_some_iff.1 hq).1]
  · rw [if_neg hsame, if_neg fun hindex => hsame (formed.eq_of_index_eq hG' hG hindex.symm)]

/-- A list is stored where there was none. -/
theorem of_store (hq : f.progress[G.index]? = some q) (h : (store G i list).Yields f last f') :
    q.filled i = false ∧ last = decide (q.remaining = 1) ∧
      f' = setProgress G (q.fill i list) f := by
  unfold store at h
  rw [Step.yields_read_bind, hq] at h
  obtain ⟨_, _, hslot, h⟩ := Step.yields_bind.1 h
  obtain ⟨_, _, hset, hlast, rfl⟩ := Step.yields_bind.1 h
  obtain ⟨-, rfl⟩ := hset
  cases hfilled : q.filled i with
  | true =>
    rw [hfilled] at hslot
    exact (Step.not_yields_of_run (Step.run_abort _) hslot).elim
  | false =>
    rw [hfilled] at hslot
    obtain ⟨-, rfl⟩ := hslot
    exact ⟨rfl, (Except.ok.inj hlast).symm, rfl⟩

theorem takeLists_of_progress (hq : f.progress[G.index]? = some q) :
    (takeLists G).Yields f q.lists (setProgress G q.emptied f) := by
  rw [takeLists, Step.yields_read_bind, hq]
  exact ⟨rfl, rfl⟩

/-- The lists of the first group are taken, then those of the rest. -/
theorem of_takeAll_cons {f' : Frame Λ} {gs : List Group} {subpass : Nat} {signals : UInt32}
    {taken : List (RecordedList Λ) × UInt32} (hq : f.progress[G.index]? = some q)
    (h : (takeAll subpass signals (G :: gs)).Yields f taken f') :
    ∃ signals' rest,
      (takeAll (subpass + 1) signals' gs).Yields (setProgress G q.emptied f) rest f' ∧
        taken.1 = q.lists.map (G.recorded subpass) ++ rest.1 := by
  unfold takeAll at h
  obtain ⟨lists, f₁, htake, h⟩ := Step.yields_bind.1 h
  obtain ⟨rfl, rfl⟩ := htake.unique (takeLists_of_progress hq)
  obtain ⟨signals', f₂, hsum, h⟩ := Step.yields_bind.1 h
  obtain rfl : setProgress G q.emptied f = f₂ :=
    (Step.permits_ofFault.2 (fun _ _ => rfl) signals' f₂ hsum : setProgress G q.emptied f = f₂)
  obtain ⟨rest, f₃, hrest, hresult, rfl⟩ := Step.yields_bind.1 h
  cases hresult
  exact ⟨signals', rest, hrest, rfl⟩

/-- The lists of groups are handed over group by group, and nothing else changes. -/
theorem takeAll_lists {f' : Frame Λ} {p : Plan} (formed : p.Formed) {gs : List Group}
    (hgs : ∀ G ∈ gs, G ∈ p.groups) (hnodup : gs.Nodup) {slots : Group → Progress Λ}
    (hslots : ∀ G ∈ gs, f.progress[G.index]? = some (slots G)) {subpass : Nat} {signals : UInt32}
    {taken : List (RecordedList Λ) × UInt32}
    (h : (takeAll subpass signals gs).Yields f taken f') :
    (taken.1 = (gs.zipIdx subpass).flatMap fun g => (slots g.1).lists.map (g.1.recorded g.2)) ∧
      (∀ G ∈ gs, f'.progress[G.index]? = some (slots G).emptied) ∧
        ∀ G ∈ p.groups, G ∉ gs → f'.progress[G.index]? = f.progress[G.index]? := by
  induction gs generalizing f subpass signals taken with
  | nil =>
    obtain ⟨hresult, rfl⟩ := h
    cases hresult
    exact ⟨rfl, by simp, fun _ _ _ => rfl⟩
  | cons G gs ih =>
    obtain ⟨hout, hnodup⟩ := List.nodup_cons.1 hnodup
    have hG := hgs G List.mem_cons_self
    have hmem : ∀ G' ∈ gs, G' ∈ p.groups := fun G' hG' => hgs G' (List.mem_cons_of_mem G hG')
    have hq := hslots G List.mem_cons_self
    have hother : ∀ G' ∈ p.groups, G' ≠ G →
        (setProgress G (slots G).emptied f).progress[G'.index]? = f.progress[G'.index]? :=
      fun G' hG' hne => (getElem?_setProgress formed hG hG' hq _).trans (if_neg hne)
    obtain ⟨signals', rest, hrest, htaken⟩ := of_takeAll_cons hq h
    have hne : ∀ G' ∈ gs, G' ≠ G := fun G' hG' heq => hout (heq ▸ hG')
    obtain ⟨hlists, hemptied, hsame⟩ := ih hmem hnodup (fun G' hG' => by
      rw [hother G' (hmem G' hG') (hne G' hG')]
      exact hslots G' (List.mem_cons_of_mem G hG')) hrest
    refine ⟨?_, fun G' hG' => ?_, fun G' hG' hnot => ?_⟩
    · rw [htaken, hlists, List.zipIdx_cons, List.flatMap_cons]
    · rcases List.mem_cons.1 hG' with rfl | hG'
      · rw [hsame G' hG hout, getElem?_setProgress formed hG hG hq, if_pos rfl]
      · exact hemptied G' hG'
    · obtain ⟨hne', hnot⟩ : G' ≠ G ∧ G' ∉ gs := not_or.1 fun h => hnot (List.mem_cons.2 h)
      rw [hsame G' hG' hnot, hother G' hG' hne']

/-- Groups without empty slots hand over a list for each slot. -/
theorem takeAll_fills {f f' : Frame (Stamped Λ)} {p : Plan} (formed : p.Formed) {gs : List Group}
    (hgs : ∀ G ∈ gs, G ∈ p.groups) (hnodup : gs.Nodup)
    (hfull : ∀ G ∈ gs, ∃ q, f.progress[G.index]? = some q ∧ q.Holds G ∧ q.vacant = 0)
    {subpass : Nat} {signals : UInt32} {taken : List (RecordedList (Stamped Λ)) × UInt32}
    (h : (takeAll subpass signals gs).Yields f taken f') :
    Handler.FillsFrom subpass gs taken.1 ∧
      (∀ G ∈ gs, ∃ q, f'.progress[G.index]? = some q ∧ q.Holds G) ∧
        ∀ G ∈ p.groups, G ∉ gs → f'.progress[G.index]? = f.progress[G.index]? := by
  have : Nonempty (Progress (Stamped Λ)) := ⟨.blank 0⟩
  choose! slots hslots hholds hvacant using hfull
  obtain ⟨hlists, hemptied, hsame⟩ := takeAll_lists formed hgs hnodup hslots h
  refine ⟨?_, fun G hG => ⟨_, hemptied G hG, (hholds G hG).emptied⟩, hsame⟩
  rw [hlists]
  clear h hlists hgs hnodup hslots hemptied hsame
  induction gs generalizing subpass with
  | nil => exact .nil
  | cons G gs ih =>
    rw [List.zipIdx_cons, List.flatMap_cons]
    refine ((hholds G List.mem_cons_self).fills (hvacant G List.mem_cons_self) subpass).cons ?_
    exact ih (fun G' hG' => hholds G' (List.mem_cons_of_mem G hG'))
      fun G' hG' => hvacant G' (List.mem_cons_of_mem G hG')

end Frame

/-! ## Recording -/

namespace Live

variable {b : Backend σ Λ} {p : Plan} {G : Group} {H : Handler} {i : Nat}
  {l : Live (Receipted σ (Stamped Λ)) (Stamped Λ)}

/-- Scopes are stamped on a list in order. -/
theorem recordScopes_leaves (G : Group) (i : Nat) (list : Stamped Λ) (ss : List PlacedScope) :
    (recordScopes (Receipted.backend (Stamped.backend b)) G i list ss).Leaves l
      (fun list' l' => (list'.spec = list.spec ∧ list'.jobs = list.jobs ++ ss.map (G.recordJob i)) ∧
        l'.frame = l.frame ∧ l'.backend.receipts = l.backend.receipts)
      fun _ l' => l'.frame = l.frame ∧ l'.backend.receipts = l.backend.receipts := by
  induction ss generalizing l list with
  | nil =>
    rw [List.map_nil, List.append_nil]
    exact Step.leaves_pure.2 ⟨⟨rfl, rfl⟩, rfl, rfl⟩
  | cons s ss ih =>
    unfold recordScopes
    rw [Step.leaves_bind]
    have hscope : ((Stamped.backend b).recordScope list (G.recordJob i s)).Permits l.backend.inner
        fun list' _ => list'.spec = list.spec ∧ list'.jobs = list.jobs ++ [G.recordJob i s] :=
      Step.permits_map.2 fun _ _ _ => ⟨rfl, rfl⟩
    refine (pass_leaves hscope).mono (fun list₁ l₁ h₁ => ?_) fun _ _ h₁ => h₁.1
    obtain ⟨⟨hspec, hjobs⟩, hframe, hreceipts⟩ := h₁
    refine (ih list₁).mono (fun list₂ l₂ h₂ => ?_) fun _ l₂ h₂ => ?_
    · rw [hspec, hjobs, hframe, hreceipts, List.append_assoc] at h₂
      exact h₂
    · rw [hframe, hreceipts] at h₂
      exact h₂

/-- **A list is recorded** as one that was made for its slot, and is stored there. -/
theorem recordList_leaves (G : Group) (i : Nat) :
    (recordList (Receipted.backend (Stamped.backend b)) G i).Leaves l
      (fun last l' => l'.backend.receipts = l.backend.receipts ∧ i < G.lists.toNat ∧
        ∃ list, G.Made i list ∧ (Frame.store G i list).Yields l.frame last l'.frame)
      fun _ l' => l'.frame = l.frame ∧ l'.backend.receipts = l.backend.receipts := by
  unfold recordList
  simp only [Step.leaves_bind, Step.leaves_abortIf, decide_eq_true_iff, decide_eq_false_iff_not,
    Nat.not_le]
  refine ⟨fun _ => ⟨trivial, trivial⟩, fun hi => ?_⟩
  have hbegin : ((Stamped.backend b).beginList (G.spec i)).Permits l.backend.inner
      fun list _ => list.spec = G.spec i ∧ list.jobs = [] :=
    Step.permits_map.2 fun _ _ _ => ⟨rfl, rfl⟩
  refine (pass_leaves hbegin).mono (fun list₁ l₁ h₁ => ?_) fun _ _ h₁ => h₁.1
  obtain ⟨⟨hspec, hjobs⟩, hframe, hreceipts⟩ := h₁
  refine (recordScopes_leaves G i list₁ G.members).mono (fun list₂ l₂ h₂ => ?_) fun _ l₂ h₂ => ?_
  · rw [hspec, hjobs, hframe, hreceipts, List.nil_append] at h₂
    obtain ⟨⟨hspec₂, hjobs₂⟩, hframe₂, hreceipts₂⟩ := h₂
    rw [onFrame, Step.leaves_zoom, hframe₂]
    have hstore := Frame.store_leaves G i list₂ (f := l.frame)
    unfold Step.Leaves at hstore ⊢
    split
    · rename_i last hlast
      exact ⟨hreceipts₂, hi, list₂, ⟨hspec₂, hjobs₂⟩, hlast, rfl⟩
    · rename_i stop hstop
      rw [hstop] at hstore
      exact ⟨hstore.1, hreceipts₂⟩
  · rw [hframe, hreceipts] at h₂
    exact h₂

/-! ## Frames with sound slots -/

/-- A frame that submits in order: every slot holds a list that was made for it, the ledgers
of the groups of handlers behind the cursor agree with their slots, and each batch has a list
for each slot of its handler. -/
structure Stocked (p : Plan) (l : Live (Receipted σ (Stamped Λ)) (Stamped Λ)) : Prop extends
    l.InOrder p where
  holds : ∀ G ∈ p.groups, ∃ q, l.frame.progress[G.index]? = some q ∧ q.Holds G
  counted : ∀ (k : Nat) (H : Handler), p.handlers[k]? = some H → l.frame.cursor ≤ k →
    ∀ G ∈ H.groups, ∀ q, l.frame.progress[G.index]? = some q → q.Counted
  filled : List.Forall₂ (fun H (r : Receipt (Stamped Λ)) => H.Fills r.batch.lists)
    (p.handlers.take l.frame.cursor) l.backend.receipts

namespace Stocked

/-- A frame that has been opened has empty slots. -/
theorem ofPlan (formed : p.Formed) (graph : Graph) {device : Receipted σ (Stamped Λ)}
    (hfresh : device.receipts = []) : Stocked p ⟨device, .ofPlan graph p⟩ := by
  have hblank : ∀ G ∈ p.groups,
      (Frame.ofPlan graph p : Frame (Stamped Λ)).progress[G.index]? = some (.blank G.lists) := by
    intro G hG
    rw [Frame.ofPlan, List.getElem?_map, formed.getElem?_index hG, Option.map_some]
  refine { (carries_ofPlan False formed graph hfresh).toInOrder with
    holds := ?_, counted := ?_, filled := ?_ }
  · exact fun G hG => ⟨_, hblank G hG, .blank G⟩
  · intro k H hH _ G hG q hq
    have hmem := formed.mem_groups (List.mem_of_getElem? hH) hG
    rw [hblank G hmem, Option.some_inj] at hq
    subst hq
    exact Progress.blank_counted (formed.formed G hmem).lists
  · rw [hfresh]
    exact .nil

/-- Slots and batches are all that is looked at. -/
theorem congr (h : l.Stocked p) {l' : Live (Receipted σ (Stamped Λ)) (Stamped Λ)}
    (hframe : l'.frame = l.frame) (hreceipts : l'.backend.receipts = l.backend.receipts) :
    l'.Stocked p := by
  obtain ⟨⟨inner, receipts⟩, frame⟩ := l
  obtain ⟨⟨inner', receipts'⟩, frame'⟩ := l'
  obtain rfl : frame' = frame := hframe
  obtain rfl : receipts' = receipts := hreceipts
  exact { h with }

/-- A list that was made for its slot has been stored there. -/
theorem stored (h : l.Stocked p) (formed : p.Formed) (hG : G ∈ p.groups) (hi : i < G.lists.toNat)
    {list : Stamped Λ} (hmade : G.Made i list) {last : Bool} {f : Frame (Stamped Λ)}
    (hstore : (Frame.store G i list).Yields l.frame last f) :
    Stocked p { l with frame := f } := by
  obtain ⟨q, hq, hholds⟩ := h.holds G hG
  have hadvances := ((Frame.store_leaves G i list).of_yields hstore).1
  obtain ⟨hnew, -, hset⟩ := Frame.of_store hq hstore
  have hkept : InOrder p { l with frame := f } :=
    (Kept.advances { h with chain := False.elim } hadvances).toInOrder
  have hcursor : f.cursor = l.frame.cursor := by rw [hadvances.rest]
  -- the group has its new list, the others are as before
  have hprogress : ∀ G' ∈ p.groups, f.progress[G'.index]? =
      if G' = G then some (q.fill i list) else l.frame.progress[G'.index]? := by
    intro G' hG'
    rw [hset, Frame.getElem?_setProgress formed hG hG' hq]
  refine { hkept with holds := ?_, counted := ?_, filled := ?_ }
  · intro G' hG'
    rw [hprogress G' hG']
    split
    · rename_i hsame
      exact ⟨_, rfl, hsame ▸ hholds.fill hmade⟩
    · exact h.holds G' hG'
  · intro k H hH hk G' hG' q' hq'
    rw [hcursor] at hk
    rw [hprogress G' (formed.mem_groups (List.mem_of_getElem? hH) hG')] at hq'
    split at hq'
    · rename_i hsame
      subst hsame
      cases hq'
      exact (h.counted k H hH hk G' hG' q hq).fill (hholds.length ▸ hi) hnew list
    · exact h.counted k H hH hk G' hG' q' hq'
  · rw [hcursor]
    exact h.filled

/-- **A recording**, whatever it ends in, leaves sound slots. -/
theorem list (h : l.Stocked p) (formed : p.Formed) (hG : G ∈ p.groups) (b : Backend σ Λ)
    (i : Nat) : (recordList (Receipted.backend (Stamped.backend b)) G i).Leaves l
      (fun _ => Stocked p) fun _ => Stocked p := by
  apply (recordList_leaves G i).mono
  · intro last l' h'
    obtain ⟨hreceipts, hi, list, hmade, hstore⟩ := h'
    exact (h.stored formed hG hi hmade hstore).congr rfl hreceipts
  · intro _ l' h'
    exact h.congr h'.1 h'.2

/-- A complete handler that has not submitted has no empty slot. -/
theorem full (h : l.Stocked p) (formed : p.Formed) {k : Nat} (hH : p.handlers[k]? = some H)
    (hk : l.frame.cursor ≤ k) (hcomplete : l.frame.handlerComplete H = true) (hG : G ∈ H.groups) :
    ∃ q, l.frame.progress[G.index]? = some q ∧ q.Holds G ∧ q.vacant = 0 := by
  obtain ⟨q, hq, hholds⟩ := h.holds G (formed.mem_groups (List.mem_of_getElem? hH) hG)
  have hdone := List.all_eq_true.1 hcomplete G hG
  rw [Frame.groupComplete_of_progress hq] at hdone
  exact ⟨q, hq, hholds, (h.counted k H hH hk G hG q hq).complete.1 hdone⟩

/-- The handler at the cursor has handed its lists over. -/
theorem of_hands (h : l.Stocked p) (formed : p.Formed) (hH : p.handlers[l.frame.cursor]? = some H)
    (hcomplete : l.frame.handlerComplete H = true)
    {l' : Live (Receipted σ (Stamped Λ)) (Stamped Λ)} (horder : l'.InOrder p)
    (hands : Hands l.frame.cursor H { l with frame := l.frame.retired l.frame.cursor } l') :
    l'.Stocked p ∧ l'.frame.cursor = l.frame.cursor + 1 := by
  obtain ⟨taken, f, chain?, accepted, htake, hframe, hreceipts⟩ := hands
  obtain ⟨hlt, hget⟩ := List.getElem?_eq_some_iff.1 hH
  have hmem : ∀ G ∈ H.groups, G ∈ p.groups :=
    fun G hG => formed.mem_groups (List.mem_of_getElem? hH) hG
  have hadvances := Frame.Advances.of_takeAll (formed.signals_lt hH) htake
  have hcursor : l'.frame.cursor = l.frame.cursor + 1 := by
    rw [hframe, hadvances.rest]
    rfl
  have hfull : ∀ G ∈ H.groups, ∃ q, l.frame.progress[G.index]? = some q ∧ q.Holds G ∧
      q.vacant = 0 := fun G hG => h.full formed hH (Nat.le_refl _) hcomplete hG
  obtain ⟨hfills, hheld, hsame⟩ := Frame.takeAll_fills
    (f := (l.frame.retired l.frame.cursor).markExecuted l.frame.cursor) formed hmem
    (formed.nodup.sublist (formed.sublist_groups (List.mem_of_getElem? hH))) hfull htake
  have hprogress : l'.frame.progress = f.progress := by rw [hframe]
  refine ⟨{ horder with holds := ?_, counted := ?_, filled := ?_ }, hcursor⟩
  · intro G hG
    rw [hprogress]
    by_cases hown : G ∈ H.groups
    · exact hheld G hown
    · rw [hsame G hG hown]
      exact h.holds G hG
  · intro k H' hH' hk G hG q hq
    rw [hcursor] at hk
    have hother : G ∉ H.groups := fun hown =>
      Nat.ne_of_lt hk (formed.eq_of_mem hH hH' hown hG)
    rw [hprogress, hsame G (formed.mem_groups (List.mem_of_getElem? hH') hG) hother] at hq
    exact h.counted k H' hH' (Nat.le_of_succ_le hk) G hG q hq
  · rw [hcursor, hreceipts, List.take_succ_eq_append_getElem hlt, hget]
    exact List.rel_append h.filled (.cons hfills .nil)

/-- **Every step of an open frame** leaves sound slots. -/
theorem stable (formed : p.Formed) (b : Backend σ Λ) :
    Stable (Receipted.backend (Stamped.backend b)) p (Stocked p) fun _ => True where
  formed := formed
  plan h := h.plan
  refuse _ := trivial
  mark h := { h with }
  disturb _ h := { h with }
  recordList i h hG := (h.list formed hG b i).mono (fun _ _ h' => h') fun _ _ h' => ⟨h', trivial⟩
  retireOne {l H} h hH hcomplete := by
    have hkept : l.Kept p False := { h with chain := False.elim }
    have hhands := submit_hands (H := H) (k := l.frame.cursor)
      (l := { l with frame := l.frame.retired l.frame.cursor }) (Stamped.backend b)
      (h.not_executed hH) (formed.signals_lt hH)
    have hboth := (hkept.retireOne formed (Stamped.backend b) List.prefix_rfl hH hcomplete).and
      (show (do onFrame (Step.modify (Frame.retired l.frame.cursor))
                submit (Receipted.backend (Stamped.backend b)) l.frame.cursor H).Leaves l
          _ _ by
        rw [Step.leaves_bind, onFrame, Step.leaves_zoom, Step.leaves_modify]
        exact hhands)
    refine hboth.mono (fun _ l' h' => ?_) fun _ l' h' => ?_
    · exact h.of_hands formed hH hcomplete h'.1.1.toInOrder h'.2
    · exact ⟨(h.of_hands formed hH hcomplete h'.1.toInOrder h'.2).1, trivial⟩

end Stocked

end Live

namespace Scheduler

/-- **Whatever happens to an open frame** leaves its slots sound. -/
theorem through_stocked {b : Backend σ Λ}
    {s t : Scheduler (Receipted σ (Stamped Λ)) (Stamped Λ)} {graph : Graph} {p : Plan}
    (hbackend : s.backend = Receipted.backend (Stamped.backend b))
    (hfresh : s.device.receipts = []) (hstart : (start graph).Yields s p t)
    (events : List Event) : ∃ l, t.through events = t.put l ∧ l.Stocked p := by
  obtain ⟨formed, rfl⟩ := start_permits graph s p t hstart
  exact (Live.Stocked.stable formed b).through hbackend (.ofPlan formed graph hfresh) events

end Scheduler

end FrameSchedule
