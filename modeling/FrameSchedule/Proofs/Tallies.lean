import FrameSchedule.Backend.Faulty
import FrameSchedule.Proofs.Stamps

/-!
# Tallies

Over any backend, a recording stores one list in an empty slot of its group, or else leaves
the frame as it is, whatever it ends in (`Live.recordList_leaves_of`).  A submission takes the
lists of its groups out of their slots, and each handler submits at most once.

So a statement about the slots of a group, which may depend on whether its handler has
submitted, holds throughout a frame if it is kept wherever an empty slot is filled and where a
submission empties the slots (`Progress.Lasting`, `Live.Tallied.stable`).  One of these is the
ledger: until its handler submits, a group counts its empty slots (`Scheduler.ledgers_kept`).
-/

namespace FrameSchedule

variable {σ Λ : Type}

/-! ## One recording -/

theorem Frame.run_store {f : Frame Λ} {G : Group} {q : Progress Λ}
    (hq : f.progress[G.index]? = some q) (i : Nat) (list : Λ) :
    (store G i list).run f =
      if q.filled i then ⟨f, [], .error (.fault (.listRecordedTwice i G.label))⟩
      else ⟨setProgress G (q.fill i list) f, [], .ok (decide (q.remaining = 1))⟩ := by
  unfold store
  rw [Step.run_bind, Step.run_read]
  simp only [Outcome.andThen, hq, List.nil_append]
  cases q.filled i <;> rfl

namespace Live

variable {b : Backend σ Λ} {l : Live σ Λ} {G : Group} {q : Progress Λ} {i : Nat}

/-- The calls to the backend that make list `i` of a group. -/
def produce (b : Backend σ Λ) (G : Group) (i : Nat) : Step (Live σ Λ) Λ := do
  let list ← onBackend (b.beginList (G.spec i))
  recordScopes b G i list G.members

/-- A list is made, and then stored. -/
theorem recordList_eq (b : Backend σ Λ) (G : Group) (i : Nat) :
    recordList b G i = (do
      Step.abortIf (G.lists.toNat ≤ i) (.listOutOfRange i G.label)
      let list ← produce b G i
      onFrame (Frame.store G i list)) := by
  unfold recordList produce
  simp only [bind_assoc]

theorem produce_leaves (b : Backend σ Λ) (G : Group) (i : Nat) (l : Live σ Λ) :
    (produce b G i).Leaves l (fun _ l' => l'.frame = l.frame) fun _ l' => l'.frame = l.frame := by
  have hcall : ∀ {α : Type} (x : Step σ α) (l' : Live σ Λ), l'.frame = l.frame →
      (onBackend x).Leaves l' (fun _ m => m.frame = l.frame) fun _ m => m.frame = l.frame := by
    intro α x l' hl'
    rw [onBackend, Step.leaves_zoom]
    unfold Step.Leaves
    split <;> exact hl'
  unfold produce
  rw [Step.leaves_bind]
  refine (hcall _ l rfl).mono (fun list l' hl' => ?_) fun _ _ hl' => hl'
  exact recordScopes_keeps (fun l' list job hl' => hcall (b.recordScope list job) l' hl') hl' G i
    list G.members

/-- **A recording** stores a list in an empty slot, or leaves the frame as it is. -/
theorem recordList_leaves_of (hq : l.frame.progress[G.index]? = some q) (b : Backend σ Λ)
    (i : Nat) : (recordList b G i).Leaves l
      (fun last l' => i < G.lists.toNat ∧ q.filled i = false ∧ last = decide (q.remaining = 1) ∧
        ∃ list, l'.frame = l.frame.setProgress G (q.fill i list))
      fun _ l' => l'.frame = l.frame := by
  rw [recordList_eq, Step.leaves_bind, Step.leaves_abortIf]
  refine ⟨fun _ => rfl, fun hrange => ?_⟩
  rw [Step.leaves_bind]
  refine (produce_leaves b G i l).mono (fun list l' hl' => ?_) fun _ _ hl' => hl'
  have hstore := Frame.run_store (hl' ▸ hq : l'.frame.progress[G.index]? = some q) i list
  rw [onFrame, Step.leaves_zoom]
  unfold Step.Leaves
  rw [hstore]
  cases hfilled : q.filled i with
  | true => exact hl'
  | false =>
    refine ⟨Nat.lt_of_not_le (of_decide_eq_false hrange), rfl, rfl, list, ?_⟩
    rw [← hl']
    rfl

/-! ## One submission -/

variable {p : Plan} {H : Handler} {k : Nat}

/-- The lists of the handler at a position have been taken out of their slots, and nothing else
but marks and trackers has changed. -/
def Takes (k : Nat) (H : Handler) (l l' : Live σ Λ) : Prop :=
  ∃ taken f chain?, (Frame.takeAll 0 0 H.groups).Yields (l.frame.markExecuted k) taken f ∧
    l'.frame = { f with chain? := chain? }

/-- **A submission** takes the lists of its handler, however it ends. -/
theorem submit_takes (b : Backend σ Λ) (hnew : l.frame.handlerExecuted k = false)
    (hsignals : H.signals < UInt32.size) :
    (submit b k H).Leaves l (fun _ => l.Takes k H) fun _ => l.Takes k H := by
  obtain ⟨taken, f, htake, hleaves⟩ := submit_leaves_of False b hnew hsignals False.elim
  have hany : (b.submit (H.batch taken.1)).Leaves l.backend (fun _ _ => True) fun _ _ => True := by
    unfold Step.Leaves
    split <;> trivial
  apply (hleaves hany).mono
  · exact fun _ l' h => ⟨taken, f, _, htake, h.2.1⟩
  · intro stop l' h
    rcases h with ⟨-, hframe, -⟩ | ⟨-, hframe, -⟩
    · exact ⟨taken, f, f.chain?, htake, hframe⟩
    · exact ⟨taken, f, _, htake, hframe⟩

end Live

/-! ## Statements about slots -/

/-- A statement about the slots of a group, which may depend on whether its handler has
submitted, is kept wherever an empty slot is filled and where a submission empties the slots. -/
structure Progress.Lasting (P : Bool → Group → Progress Λ → Prop) : Prop where
  fill : ∀ {executed : Bool} {G : Group} {q : Progress Λ} {i : Nat} (list : Λ), P executed G q →
    i < q.slots.length → q.filled i = false → P executed G (q.fill i list)
  emptied : ∀ {G : Group} {q : Progress Λ}, P false G q → P true G q.emptied

namespace Live

variable {P : Bool → Group → Progress Λ → Prop} {p : Plan} {l l' : Live σ Λ} {G : Group}
  {H : Handler} {b : Backend σ Λ}

/-- Every group has its slots, and `P` is true of them. -/
structure Tallied (p : Plan) (P : Bool → Group → Progress Λ → Prop) (l : Live σ Λ) : Prop where
  plan : l.frame.plan = p
  marks : l.frame.executed.length = p.handlers.length
  slots : ∀ {k : Nat} {H : Handler}, p.handlers[k]? = some H → ∀ G ∈ H.groups,
    ∃ q, l.frame.progress[G.index]? = some q ∧ q.slots.length = G.lists.toNat ∧
      P (l.frame.handlerExecuted k) G q

namespace Tallied

theorem ofPlan (formed : p.Formed) (graph : Graph) (device : σ)
    (hblank : ∀ G ∈ p.groups, P false G (.blank G.lists)) :
    Tallied p P ⟨device, .ofPlan graph p⟩ where
  plan := rfl
  marks := by rw [Frame.ofPlan, List.length_map]
  slots {k H} hH G hG := by
    have hmem := formed.mem_groups (List.mem_of_getElem? hH) hG
    have hnew : (Frame.ofPlan graph p : Frame Λ).handlerExecuted k = false := by
      rw [Frame.handlerExecuted, Frame.ofPlan, List.getElem?_map, hH]
      rfl
    refine ⟨.blank G.lists, ?_, List.length_replicate, ?_⟩
    · rw [Frame.ofPlan, List.getElem?_map, formed.getElem?_index hmem, Option.map_some]
    · rw [hnew]
      exact hblank G hmem

/-- What is true of the slots of each group is all that is looked at. -/
theorem congr (h : l.Tallied p P) (hframe : l'.frame = l.frame) : l'.Tallied p P := by
  obtain ⟨inner, frame⟩ := l
  obtain ⟨inner', frame'⟩ := l'
  obtain rfl : frame' = frame := hframe
  exact { h with }

/-- A list has been stored in a slot of one group, and of the slots of the others still is true
what was. -/
theorem stored {Q : Bool → Group → Progress Λ → Prop} (h : l.Tallied p P) (formed : p.Formed)
    {k : Nat} (hH : p.handlers[k]? = some H) (hG : G ∈ H.groups) {q : Progress Λ}
    (hq : l.frame.progress[G.index]? = some q) {i : Nat} {list : Λ}
    (hown : q.slots.length = G.lists.toNat → P (l.frame.handlerExecuted k) G q →
      Q (l.frame.handlerExecuted k) G (q.fill i list))
    (hother : ∀ {executed : Bool} {G' : Group} {q' : Progress Λ}, G' ≠ G → P executed G' q' →
      Q executed G' q')
    (hframe : l'.frame = l.frame.setProgress G (q.fill i list)) : l'.Tallied p Q := by
  refine ⟨hframe ▸ h.plan, hframe ▸ h.marks, fun {k' H'} hH' G' hG' => ?_⟩
  obtain ⟨q', hq', hlength, hP⟩ := h.slots hH' G' hG'
  rw [hframe, Frame.getElem?_setProgress formed (formed.mem_groups (List.mem_of_getElem? hH) hG)
    (formed.mem_groups (List.mem_of_getElem? hH') hG') hq]
  by_cases hsame : G' = G
  · subst hsame
    obtain rfl := formed.eq_of_mem hH hH' hG hG'
    obtain rfl : q = q' := Option.some_inj.1 (hq.symm.trans hq')
    rw [if_pos rfl]
    refine ⟨_, rfl, ?_, hown hlength hP⟩
    rw [Progress.fill, List.length_set, hlength]
  · rw [if_neg hsame]
    exact ⟨q', hq', hlength, hother hsame hP⟩

/-- A recording, whatever it ends in. -/
theorem list (h : l.Tallied p P) (lasting : Progress.Lasting P) (formed : p.Formed)
    (hG : G ∈ p.groups) (b : Backend σ Λ) (i : Nat) :
    (recordList b G i).Leaves l (fun _ => Tallied p P) fun _ => Tallied p P := by
  obtain ⟨k, H, hH, hmem⟩ := formed.exists_handler hG
  obtain ⟨q, hq, -, -⟩ := h.slots hH G hmem
  apply (recordList_leaves_of hq b i).mono
  · intro last l' h'
    obtain ⟨hi, hnew, -, list, hframe⟩ := h'
    exact h.stored formed hH hmem hq
      (fun hlength hP => lasting.fill list hP (hlength ▸ hi) hnew) (fun _ hP => hP) hframe
  · exact fun _ l' hframe => h.congr hframe

/-- The lists of the handler at a position have been taken out of their slots. -/
theorem taken (h : l.Tallied p P) (lasting : Progress.Lasting P) (formed : p.Formed) {k : Nat}
    (hH : p.handlers[k]? = some H) (hnew : l.frame.handlerExecuted k = false)
    (htakes : l.Takes k H l') : l'.Tallied p P ∧ l'.frame.cursor = l.frame.cursor := by
  obtain ⟨taken, f, chain?, htake, hframe⟩ := htakes
  have hmem : ∀ G ∈ H.groups, G ∈ p.groups :=
    fun G hG => formed.mem_groups (List.mem_of_getElem? hH) hG
  have hrest := (Frame.Advances.of_takeAll (formed.signals_lt hH) htake).rest
  have : Nonempty (Progress Λ) := ⟨.blank 0⟩
  choose! slots hslots using fun G hG => h.slots hH G hG
  obtain ⟨-, hemptied, hsame⟩ := Frame.takeAll_lists (f := l.frame.markExecuted k) formed hmem
    (formed.nodup.sublist (formed.sublist_groups (List.mem_of_getElem? hH)))
    (fun G hG => (hslots G hG).1) htake
  have hexecuted : l'.frame.executed = l.frame.executed.set k true := by
    rw [hframe, hrest]
    rfl
  have hprogress : l'.frame.progress = f.progress := by rw [hframe]
  have hcursor : l'.frame.cursor = l.frame.cursor := by
    rw [hframe, hrest]
    rfl
  have hplan : l'.frame.plan = l.frame.plan := by
    rw [hframe, hrest]
    rfl
  have hk : k < l.frame.executed.length := h.marks ▸ (List.getElem?_eq_some_iff.1 hH).1
  refine ⟨⟨hplan.trans h.plan, ?_, fun {k' H'} hH' G hG => ?_⟩, hcursor⟩
  · rw [hexecuted, List.length_set, h.marks]
  rw [hprogress, Frame.handlerExecuted, hexecuted, List.getElem?_set]
  by_cases hown : k = k'
  · subst hown
    obtain rfl : H = H' := Option.some_inj.1 (hH.symm.trans hH')
    obtain ⟨-, hlength, hP⟩ := hslots G hG
    rw [if_pos rfl, if_pos hk]
    refine ⟨_, hemptied G hG, ?_, lasting.emptied (hnew ▸ hP)⟩
    rw [Progress.emptied, List.length_map, hlength]
  · obtain ⟨q, hq, hlength, hP⟩ := h.slots hH' G hG
    rw [if_neg hown, hsame G (formed.mem_groups (List.mem_of_getElem? hH') hG) fun hG' =>
      hown (formed.eq_of_mem hH hH' hG' hG)]
    exact ⟨q, hq, hlength, hP⟩

/-- **Every step of an open frame** keeps what lasts. -/
theorem stable (lasting : Progress.Lasting P) (formed : p.Formed) (b : Backend σ Λ) :
    Stable b p (Tallied p P) fun _ => True where
  formed := formed
  plan h := h.plan
  refuse _ := trivial
  mark h := { h with }
  disturb _ h := { h with }
  recordList i h hG :=
    (h.list lasting formed hG b i).mono (fun _ _ h' => h') fun _ _ h' => ⟨h', trivial⟩
  retireOne {l H} h hH hcomplete := by
    have hretired : Tallied p P { l with frame := l.frame.retired l.frame.cursor } := { h with }
    rw [Step.leaves_bind, onFrame, Step.leaves_zoom, Step.leaves_modify]
    cases hmark : (l.frame.retired l.frame.cursor).handlerExecuted l.frame.cursor with
    | true =>
      unfold submit
      rw [Step.leaves_bind, Step.leaves_read, if_pos hmark]
      exact ⟨hretired, rfl⟩
    | false =>
      have htakes := submit_takes (H := H) (k := l.frame.cursor)
        (l := { l with frame := l.frame.retired l.frame.cursor }) b hmark
        (formed.signals_lt hH)
      refine htakes.mono (fun _ l' htakes => ?_) fun _ l' htakes => ?_
      · exact hretired.taken lasting formed hH hmark htakes
      · exact ⟨(hretired.taken lasting formed hH hmark htakes).1, trivial⟩

end Tallied

end Live

/-! ## The ledger -/

/-- The ledger agrees with the slots as long as the handler has not submitted. -/
theorem Progress.lasting_counted : Progress.Lasting (Λ := Λ) fun executed _ q =>
    executed = false → q.Counted where
  fill list h hi hnew hexecuted := (h hexecuted).fill hi hnew list
  emptied _ hexecuted := by cases hexecuted

/-- The ledger of a group agrees with its slots.  A recording of one of its lists fills an empty
slot and counts it, or else, whatever it ends in, leaves slots and ledger as they are. -/
structure Live.Balanced (b : Backend σ Λ) (l : Live σ Λ) (G : Group) (q : Progress Λ) : Prop where
  progress : l.frame.progress[G.index]? = some q
  length : q.slots.length = G.lists.toNat
  remaining : q.remaining.toNat = q.vacant
  complete : q.complete = true ↔ q.vacant = 0
  recording : ∀ i, (recordList b G i).Leaves l
    (fun last l' => i < G.lists.toNat ∧ q.filled i = false ∧ last = decide (q.vacant = 1) ∧
      ∃ list, l'.frame = l.frame.setProgress G (q.fill i list))
    fun _ l' => l'.frame = l.frame

theorem Live.balanced {l : Live σ Λ} {G : Group} {q : Progress Λ} (b : Backend σ Λ)
    (hq : l.frame.progress[G.index]? = some q) (hlength : q.slots.length = G.lists.toNat)
    (hcounted : q.Counted) : l.Balanced b G q where
  progress := hq
  length := hlength
  remaining := hcounted.remaining
  complete := hcounted.complete
  recording i := by
    refine (recordList_leaves_of hq b i).mono (fun last l' h => ?_) fun _ _ h => h
    obtain ⟨hi, hnew, hlast, hset⟩ := h
    refine ⟨hi, hnew, ?_, hset⟩
    rw [hlast, decide_eq_decide, ← hcounted.remaining, ← UInt32.toNat_inj, UInt32.toNat_one]

namespace Scheduler

variable {s t : Scheduler σ Λ} {graph : Graph} {p : Plan}

/-- What lasts, and is true of empty slots, is true of an open frame whatever happens to it. -/
theorem through_tallied {P : Bool → Group → Progress Λ → Prop} (lasting : Progress.Lasting P)
    (hblank : ∀ G : Group, G.lists ≠ 0 → P false G (.blank G.lists))
    (hstart : (start graph).Yields s p t) (events : List Event) :
    ∃ l, t.through events = t.put l ∧ l.Tallied p P := by
  obtain ⟨formed, rfl⟩ := start_permits graph s p t hstart
  have hopened : Live.Tallied p P (⟨s.device, .ofPlan graph p⟩ : Live σ Λ) :=
    .ofPlan formed graph s.device fun G hG => hblank G (formed.formed G hG).lists
  exact (Live.Tallied.stable lasting formed s.backend).through rfl hopened events

/-- **The ledger of a group.**  Whatever happens to an open frame, and whatever its backend
refuses or breaks off, a group whose handler has not submitted counts its empty slots, is
complete just when it has none, and is left as it is by a recording that fails. -/
theorem ledgers_kept (hstart : (start graph).Yields s p t) (events : List Event) :
    ∃ l, t.through events = t.put l ∧ ∀ G ∈ p.groups, ∃ (k : Nat) (H : Handler),
      p.handlers[k]? = some H ∧ G ∈ H.groups ∧
        (l.frame.handlerExecuted k = false → ∃ q, l.Balanced s.backend G q) := by
  obtain ⟨formed, -⟩ := start_permits graph s p t hstart
  obtain ⟨l, hrun, h⟩ := through_tallied Progress.lasting_counted
    (fun G hlists _ => Progress.blank_counted hlists) hstart events
  refine ⟨l, hrun, fun G hG => ?_⟩
  obtain ⟨k, H, hH, hmem⟩ := formed.exists_handler hG
  obtain ⟨q, hq, hlength, hcounted⟩ := h.slots hH G hmem
  exact ⟨k, H, hH, hmem, fun hnew => ⟨q, Live.balanced s.backend hq hlength (hcounted hnew)⟩⟩

/-- A scheduler on a backend that refuses the first list and the second recording, answers with
a list that is not its own, and then breaks off. -/
def stumbling : Scheduler (Faulty Memory) MemoryList where
  backend := Faulty.backend { beginning := [1], recording := [2], foreign := [4], abrupt := [4] }
    .foreign Memory.backend
  policy := .parallel
  device := { inner := {} }
  config? := some .plain

/-- One scope that is split. -/
def bulky : Graph :=
  ((Graph.addAll [{ name := "forest", items := 600 }]).run {}).state

/-- Of five requests the second stores the first list.  All of them stop: the backend refuses
two, rejects a list and breaks off, and at last the first list is there already. -/
theorem ledgers_kept_bulky :
    ∃ p t l, (start bulky).Yields stumbling p t ∧
      t.through (List.replicate 5 (.request (.recordGroup 0))) = t.put l ∧
        l.frame.executed = [false] ∧
          l.frame.progress.map (fun q => (q.vacant, q.remaining, q.complete)) = [(2, 2, false)] ∧
            ∀ G ∈ p.groups, ∃ (k : Nat) (H : Handler), p.handlers[k]? = some H ∧ G ∈ H.groups ∧
              (l.frame.handlerExecuted k = false → ∃ q, l.Balanced stumbling.backend G q) := by
  have built : bulky.Built := Graph.Built.empty.addAll _ () _ ⟨rfl, rfl⟩
  obtain ⟨p, t, hstart, -⟩ := start_ensures (s := stumbling) rfl rfl built
    ⟨by decide, by decide, by decide⟩ rfl (by unfold Config.Covers; decide)
  obtain ⟨l, hrun, hbalanced⟩ :=
    ledgers_kept hstart (List.replicate 5 (.request (.recordGroup 0)))
  obtain ⟨-, rfl⟩ := id hstart
  have hexecuted := congrArg (·.frame?.map (·.executed)) hrun
  have hprogress := congrArg (·.frame?.map fun f => f.progress.map fun q =>
    (q.vacant, q.remaining, q.complete)) hrun
  refine ⟨p, _, l, hstart, hrun, ?_, ?_, hbalanced⟩
  · exact Option.some_inj.1 (hexecuted.symm.trans (by decide +kernel))
  · exact Option.some_inj.1 (hprogress.symm.trans (by decide +kernel))

end Scheduler

end FrameSchedule
