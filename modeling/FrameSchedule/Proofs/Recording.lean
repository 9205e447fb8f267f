import FrameSchedule.Proofs.Progress

/-!
# Recording a frame in any order

While the lists of a frame are recorded on the backend in memory, the whole state is a
function of the set of tasks done and of the number of handlers retired (`Live.after`).
After each task the handlers that have retired are just those before the first one
with a list to come (`Plan.Settled`).

A call to execute a group between two tasks finds nothing to retire.
-/

namespace FrameSchedule

/-! ## Groups of a plan -/

/-- The tasks of groups are their lists. -/
theorem Group.mem_flatMap_tasks {gs : List Group} {t : Task} :
    t ∈ gs.flatMap Group.tasks ↔ t.1 ∈ gs ∧ t.2 < t.1.lists.toNat := by
  simp only [Group.tasks, List.mem_flatMap, List.mem_map, List.mem_range]
  constructor
  · intro htask
    rcases htask with ⟨G, hG, i, hi, rfl⟩
    exact ⟨hG, hi⟩
  · intro htask
    rcases htask with ⟨hG, hi⟩
    exact ⟨t.1, hG, t.2, hi, rfl⟩

namespace Plan

variable {p : Plan} {G G' : Group}

theorem Formed.getElem?_index (h : p.Formed) (hG : G ∈ p.groups) :
    p.groups[G.index]? = some G := by
  obtain ⟨k, hk⟩ := List.mem_iff_getElem?.1 hG
  rw [h.index k G hk]
  exact hk

theorem Formed.eq_of_index_eq (h : p.Formed) (hG : G ∈ p.groups) (hG' : G' ∈ p.groups)
    (hindex : G.index = G'.index) : G = G' := by
  have hget := h.getElem?_index hG
  rw [hindex, h.getElem?_index hG', Option.some_inj] at hget
  exact hget.symm

/-- Groups at different positions are different. -/
theorem Formed.nodup (h : p.Formed) : p.groups.Nodup := by
  refine List.nodup_iff_getElem?_ne_getElem?.2 fun i j hij hj heq => ?_
  have hsome := List.getElem?_eq_getElem hj
  have hi := h.index i _ (heq.trans hsome)
  rw [h.index j _ hsome] at hi
  omega

theorem Formed.flatMap_groups (h : p.Formed) : p.handlers.flatMap (·.groups) = p.groups := by
  rw [h.runs, Handler.flatMap_ofRuns]

theorem Formed.numbered (h : p.Formed) {H : Handler} (hH : H ∈ p.handlers) : H.Numbered := by
  rw [h.runs] at hH
  exact Handler.numbered_of_mem hH

theorem Formed.mem_groups (h : p.Formed) {H : Handler} (hH : H ∈ p.handlers)
    (hG : G ∈ H.groups) : G ∈ p.groups := by
  rw [← h.flatMap_groups]
  exact List.mem_flatMap.2 ⟨H, hH, hG⟩

/-- The groups of a handler stand in a row. -/
theorem Formed.sublist_groups (h : p.Formed) {H : Handler} (hH : H ∈ p.handlers) :
    H.groups.Sublist p.groups := by
  rw [← h.flatMap_groups]
  exact List.sublist_flatten_of_mem (List.mem_map_of_mem hH)

/-- Handlers with one number stand at one position. -/
theorem Formed.eq_of_id_eq (h : p.Formed) {i j : Nat} {H H' : Handler}
    (hi : p.handlers[i]? = some H) (hj : p.handlers[j]? = some H') (hid : H.id = H'.id) :
    i = j := by
  have hlt : i < (p.handlers.map (·.id)).length := by
    rw [List.length_map]
    exact (List.getElem?_eq_some_iff.1 hi).1
  apply (List.getElem?_inj hlt h.distinct).1
  rw [List.getElem?_map, List.getElem?_map, hi, hj, Option.map_some, Option.map_some, hid]

/-- A group has one handler. -/
theorem Formed.eq_of_mem (h : p.Formed) {i j : Nat} {H H' : Handler}
    (hi : p.handlers[i]? = some H) (hj : p.handlers[j]? = some H') (hG : G ∈ H.groups)
    (hG' : G ∈ H'.groups) : i = j := by
  refine h.eq_of_id_eq hi hj ?_
  rw [← h.numbered (List.mem_of_getElem? hi) G hG, h.numbered (List.mem_of_getElem? hj) G hG']

/-- The number of a group is that of the handler it is found by. -/
theorem Formed.exists_handlerIndex (h : p.Formed) (hG : G ∈ p.groups) :
    ∃ position H, p.handlerIndex? G.id = some position ∧ p.handlers[position]? = some H ∧
      H.id = G.id := by
  rw [← h.flatMap_groups] at hG
  obtain ⟨H, hH, hGH⟩ := List.mem_flatMap.1 hG
  obtain ⟨position, hposition⟩ : ∃ position, p.handlerIndex? G.id = some position := by
    apply Option.isSome_iff_exists.1
    rw [handlerIndex?, List.findIdx?_isSome, List.any_eq_true]
    exact ⟨H, hH, decide_eq_true (h.numbered hH G hGH).symm⟩
  obtain ⟨hlt, hat, -⟩ := List.findIdx?_eq_some_iff_getElem.1 hposition
  exact ⟨position, _, hposition, List.getElem?_eq_getElem hlt, of_decide_eq_true hat⟩

theorem mem_tasks {t : Task} : t ∈ p.tasks ↔ t.1 ∈ p.groups ∧ t.2 < t.1.lists.toNat :=
  Group.mem_flatMap_tasks

end Plan

/-! ## Lists of a handler -/

/-- The lists of groups, which are subpasses from `subpass` on, as they are handed to
the backend. -/
def Handler.recordedFrom (subpass : Nat) (gs : List Group) : List (RecordedList MemoryList) :=
  (gs.zipIdx subpass).flatMap fun g =>
    (List.range g.1.lists.toNat).map fun i => g.1.recorded g.2 (.own (g.1.listOf i))

/-- The lists of groups, which are subpasses from `subpass` on, as the backend keeps
them. -/
def Handler.keptFrom (subpass : Nat) (gs : List Group) : List CommandList :=
  (gs.zipIdx subpass).flatMap fun g =>
    (List.range g.1.lists.toNat).map fun i =>
      { g.1.listOf i with subpass := UInt32.ofNat g.2 }

/-- The submission that the backend keeps of a handler. -/
def Handler.submission (h : Handler) : Submission CommandList :=
  { h.batch ([] : List (RecordedList MemoryList)) with lists := keptFrom 0 h.groups }

theorem Handler.mapM_kept? (subpass : Nat) (gs : List Group) :
    (recordedFrom subpass gs).mapM Memory.kept? = some (keptFrom subpass gs) := by
  have hone : ∀ (G : Group) (k : Nat) (is : List Nat),
      (is.map fun i => G.recorded k (.own (G.listOf i))).mapM Memory.kept? =
        some (is.map fun i => { G.listOf i with subpass := UInt32.ofNat k }) := by
    intro G k is
    induction is with
    | nil => rfl
    | cons i is ih =>
      rw [List.map_cons, List.mapM_cons, ih]
      rfl
  rw [recordedFrom, keptFrom]
  induction gs generalizing subpass with
  | nil => rfl
  | cons G gs ih =>
    rw [List.zipIdx_cons, List.flatMap_cons, List.mapM_append, hone, ih]
    rfl

/-! ## Slots of a frame -/

namespace Frame

/-- The frame with the progress of the tasks done, and the lists of some groups taken
out. -/
def filledBy (f : Frame MemoryList) (done : List Task) (out : List Group) : Frame MemoryList :=
  { f with progress := f.plan.groups.map fun G =>
      if G ∈ out then (G.progressAt done).emptied else G.progressAt done }

variable {f : Frame MemoryList} {done : List Task} {out : List Group} {G : Group} {i : Nat}

theorem progress_filledBy (formed : f.plan.Formed) (hG : G ∈ f.plan.groups) (hout : G ∉ out) :
    (f.filledBy done out).progress[G.index]? = some (G.progressAt done) := by
  rw [filledBy, List.getElem?_map, formed.getElem?_index hG, Option.map_some, if_neg hout]

/-- Whether a group is complete does not depend on who has taken its lists. -/
theorem groupComplete_filledBy (formed : f.plan.Formed) (hG : G ∈ f.plan.groups) :
    (f.filledBy done out).groupComplete G = decide ((G.missing done).card = 0) := by
  rw [groupComplete, filledBy, List.getElem?_map, formed.getElem?_index hG, Option.map_some,
    Option.any_some]
  split <;> rfl

/-- Progress is set for one group at a time. -/
theorem setProgress_filledBy (done' : List Task) (out' : List Group) (formed : f.plan.Formed)
    (hG : G ∈ f.plan.groups) {p : Progress MemoryList}
    (hsame : p = if G ∈ out' then (G.progressAt done').emptied else G.progressAt done')
    (hothers : ∀ G' ∈ f.plan.groups, G' ≠ G →
      (G' ∈ out' ↔ G' ∈ out) ∧ G'.progressAt done' = G'.progressAt done) :
    setProgress G p (f.filledBy done out) = f.filledBy done' out' := by
  have hprogress : (f.filledBy done out).progress.set G.index p =
      (f.filledBy done' out').progress := by
    apply List.ext_getElem?
    intro k
    rw [List.getElem?_set]
    simp only [filledBy, List.getElem?_map, List.length_map]
    split
    · rename_i hk
      subst hk
      have hget := formed.getElem?_index hG
      have hlt := (List.getElem?_eq_some_iff.1 hget).1
      rw [if_pos hlt, hget, Option.map_some, hsame]
    · rename_i hk
      cases hget : f.plan.groups[k]? with
      | none => rfl
      | some G' =>
        have hne : G' ≠ G := by
          intro heq
          subst heq
          exact hk (formed.index k G' hget)
        obtain ⟨hmem, hat⟩ := hothers G' (List.mem_of_getElem? hget) hne
        simp only [Option.map_some, hmem, hat]
  rw [setProgress, hprogress]
  rfl

/-- A list is stored in its slot; the answer is whether it was the last. -/
theorem store_yields (formed : f.plan.Formed) (hG : G ∈ f.plan.groups) (hout : G ∉ out)
    (hi : i < G.lists.toNat) (hnew : (G, i) ∉ done) :
    (store G i (.own (G.listOf i))).Yields (f.filledBy done out)
      (decide ((G.missing ((G, i) :: done)).card = 0)) (f.filledBy ((G, i) :: done) out) := by
  have hcard := Group.card_missing_cons hi hnew
  have hlast : ((G.progressAt done).remaining = 1) =
      ((G.missing ((G, i) :: done)).card = 0) := by
    rw [← UInt32.toNat_inj, Group.toNat_remaining, UInt32.toNat_one]
    exact propext (by omega)
  have hset : setProgress G ((G.progressAt done).fill i (.own (G.listOf i)))
      (f.filledBy done out) = f.filledBy ((G, i) :: done) out := by
    refine setProgress_filledBy _ _ formed hG ?_ fun G' _ hne => ?_
    · rw [if_neg hout, Group.fill_progressAt hi hnew]
    · exact ⟨Iff.rfl, Group.progressAt_cons_of_ne hne⟩
  rw [Step.yields_iff_ensures, store, Step.ensures_bind, Step.ensures_read,
    progress_filledBy formed hG hout]
  simp only [Step.abortIf, Group.filled_progressAt hnew, Step.ensures_bind,
    Step.ensures_onlyIf_false, Step.ensures_modify, Step.ensures_pure, hset, hlast]
  exact ⟨trivial, trivial⟩

/-- The lists of a group are taken out. -/
theorem takeLists_yields (formed : f.plan.Formed) (hG : G ∈ f.plan.groups) (hout : G ∉ out)
    (hall : ∀ i < G.lists.toNat, (G, i) ∈ done) :
    (takeLists G).Yields (f.filledBy done out)
      ((List.range G.lists.toNat).map fun i => .own (G.listOf i))
      (f.filledBy done (out ++ [G])) := by
  have hset : setProgress G (G.progressAt done).emptied (f.filledBy done out) =
      f.filledBy done (out ++ [G]) := by
    refine setProgress_filledBy _ _ formed hG ?_ fun G' _ hne => ?_
    · rw [if_pos (by simp)]
    · exact ⟨by simp [hne], rfl⟩
  rw [Step.yields_iff_ensures, takeLists, Step.ensures_bind, Step.ensures_read,
    progress_filledBy formed hG hout]
  simp only [Step.ensures_bind, Step.ensures_modify, Step.ensures_pure, hset,
    Group.lists_progressAt hall]
  exact ⟨trivial, trivial⟩

/-- The lists of a handler are taken out, and its signals added up. -/
theorem takeAll_yields (formed : f.plan.Formed) {gs : List Group} (subpass : Nat)
    (signals : UInt32) (hgs : ∀ G ∈ gs, G ∈ f.plan.groups) (hnodup : (out ++ gs).Nodup)
    (hall : ∀ G ∈ gs, ∀ i < G.lists.toNat, (G, i) ∈ done)
    (fits : signals.toNat + Count.total (gs.map (·.signals)) < UInt32.size) :
    (takeAll subpass signals gs).Yields (f.filledBy done out)
      (Handler.recordedFrom subpass gs,
        UInt32.ofNat (signals.toNat + Count.total (gs.map (·.signals))))
      (f.filledBy done (out ++ gs)) := by
  induction gs generalizing subpass signals out with
  | nil =>
    rw [List.append_nil, List.map_nil, Count.total, Nat.add_zero, UInt32.ofNat_toNat]
    exact ⟨rfl, rfl⟩
  | cons G gs ih =>
    have hG := hgs G List.mem_cons_self
    have hsplit : out ++ G :: gs = (out ++ [G]) ++ gs := by simp
    have hout : G ∉ out := fun hmem =>
      (List.nodup_append.1 hnodup).2.2 G hmem G List.mem_cons_self rfl
    rw [List.map_cons, Count.total] at fits ⊢
    obtain ⟨w, hw, hval⟩ := Count.exists_add (a := signals) (b := G.signals) (by omega)
    rw [hsplit] at hnodup ⊢
    have hrest := ih (subpass + 1) w (fun G' hG' => hgs G' (List.mem_cons_of_mem G hG')) hnodup
      (fun G' hG' => hall G' (List.mem_cons_of_mem G hG')) (by omega)
    unfold takeAll
    rw [Step.yields_bind]
    refine ⟨_, _, takeLists_yields formed hG hout (hall G List.mem_cons_self), ?_⟩
    rw [Step.yields_bind]
    refine ⟨w, f.filledBy done (out ++ [G]), by rw [hw]; exact ⟨rfl, rfl⟩, ?_⟩
    rw [Step.yields_bind]
    refine ⟨_, _, hrest, ?_, rfl⟩
    rw [hval, Nat.add_assoc]
    simp [Handler.recordedFrom, Function.comp_def]

/-- The frame when the handlers before a position have retired. -/
def retiredTo (f : Frame MemoryList) (c : Nat) : Frame MemoryList :=
  { f with
    executed := (List.range f.plan.handlers.length).map fun k => decide (k < c)
    cursor := c
    chain? := f.plan.chain?.map (Handler.settleAll (f.plan.handlers.take c)) }

theorem getElem?_executed_retiredTo {k : Nat} (c : Nat) (hk : k < f.plan.handlers.length) :
    (f.retiredTo c).executed[k]? = some (decide (k < c)) := by
  rw [retiredTo, List.getElem?_map, List.getElem?_range hk, Option.map_some]

/-- The handler at the cursor retires. -/
theorem set_executed_retiredTo (f : Frame MemoryList) (c : Nat) :
    (f.retiredTo c).executed.set c true = (f.retiredTo (c + 1)).executed := by
  apply List.ext_getElem (by simp [retiredTo])
  intro k hk _
  simp only [retiredTo, List.getElem_set, List.getElem_map, List.getElem_range]
  split
  · rename_i hkc
    simp [hkc]
  · rename_i hkc
    exact decide_eq_decide.2 (by omega)

/-- The handler at the cursor signals. -/
theorem settle_retiredTo {c : Nat} {H : Handler} (hH : f.plan.handlers[c]? = some H) :
    (f.retiredTo c).chain?.map H.settle = (f.retiredTo (c + 1)).chain? :=
  Handler.map_settleAll_take hH f.plan.chain?

end Frame

/-! ## Submission -/

/-- All tasks of a handler are done. -/
def Handler.Done (done : List Task) (h : Handler) : Prop :=
  ∀ G ∈ h.groups, ∀ i < G.lists.toNat, (G, i) ∈ done

/-- As many handlers have retired as may: those before a position are complete, and the
one there is not. -/
structure Plan.Settled (p : Plan) (done : List Task) (c : Nat) : Prop where
  retired : ∀ H ∈ p.handlers.take c, H.Done done
  waiting : ∀ H, p.handlers[c]? = some H → ¬ H.Done done
  le : c ≤ p.handlers.length

namespace Plan

variable {p : Plan} {c : Nat} {H : Handler}

/-- The signals of the handlers before a position and of the one there are a word. -/
theorem Formed.sum_take_lt (h : p.Formed) (hH : p.handlers[c]? = some H) :
    ((p.handlers.take c).map (·.signals)).sum + H.signals < UInt32.size := by
  obtain ⟨hc, rfl⟩ := List.getElem?_eq_some_iff.1 hH
  have htotal := h.total
  rw [← Handler.sum_signals h, ← List.take_append_drop c p.handlers, List.map_append,
    List.sum_append, List.drop_eq_getElem_cons hc, List.map_cons, List.sum_cons] at htotal
  omega

/-- The signals of a handler are a word. -/
theorem Formed.signals_lt (h : p.Formed) (hH : p.handlers[c]? = some H) :
    H.signals < UInt32.size :=
  Nat.lt_of_le_of_lt (Nat.le_add_left _ _) (h.sum_take_lt hH)

/-- After some handlers before a position, every tracker can still count the signals of
the one there. -/
theorem Formed.exists_within (h : p.Formed) {hs : List Handler}
    (hsub : hs.Sublist (p.handlers.take c)) (hH : p.handlers[c]? = some H) (chain : Chain)
    (hchain : p.chain?.map (Handler.settleAll hs) = some chain) :
    ∃ n, chain.Within n ∧ n + H.signals < UInt32.size := by
  have hsum := h.sum_take_lt hH
  have hle := (hsub.map (·.signals)).sum_le_sum fun n _ => Nat.zero_le n
  obtain ⟨chain₀, hchain₀, rfl⟩ := Option.map_eq_some_iff.1 hchain
  have hblank : chain₀.Within 0 := by
    intro t ht
    rw [h.blank chain₀ hchain₀ t ht]
    exact Nat.le_refl 0
  exact ⟨_, Handler.settleAll_within hblank (by omega), by omega⟩

end Plan

namespace Live

variable {l : Live Memory MemoryList} {H : Handler} {done : List Task} {out : List Group} {c : Nat}

/-- A step of the frame leaves the backend alone. -/
theorem onFrame_yields {α : Type} {x : Step (Frame MemoryList) α} {a : α} {f : Frame MemoryList}
    (h : x.Yields l.frame a f) : (onFrame x).Yields l a { l with frame := f } :=
  ⟨h.1, congrArg (fun frame => { l with frame := frame }) h.2⟩

/-- The backend in memory keeps the lists of a handler. -/
theorem submit_memory (failing : l.backend.failing = false) (H : Handler) :
    (onBackend (Memory.backend.submit (H.batch (Handler.recordedFrom 0 H.groups)))).Yields l ()
      { l with backend := { l.backend with
          submissions := l.backend.submissions ++ [H.submission] } } := by
  rw [Step.yields_iff_ensures, onBackend, Step.ensures_zoom]
  have hlists : (H.batch (Handler.recordedFrom 0 H.groups)).lists.mapM Memory.kept? =
      some (Handler.keptFrom 0 H.groups) := Handler.mapM_kept? 0 H.groups
  simp only [Memory.backend, Memory.submit, Step.ensures_bind, Step.ensures_read, failing,
    Bool.false_eq_true, if_false, hlists, Memory.keep, Step.ensures_note, Step.ensures_modify]
  exact ⟨trivial, rfl⟩

/-- The signals of a handler reach the trackers of the frame. -/
theorem signal_yields (hchain : ∀ chain, l.frame.chain? = some chain →
      ∃ n, chain.Within n ∧ n + H.signals < UInt32.size)
    {handle : Handle} (hhandle : H.first.handle? = some handle) (hne : H.signals ≠ 0) :
    (onFrame (Frame.signal handle (UInt32.ofNat H.signals))).Yields l ()
      { l with frame := { l.frame with chain? := l.frame.chain?.map H.settle } } := by
  rw [Step.yields_iff_ensures, onFrame, Step.ensures_zoom, Frame.signal, Step.ensures_bind,
    Step.ensures_read]
  cases hc : l.frame.chain? with
  | none =>
    refine Step.ensures_pure.2 ⟨rfl, ?_⟩
    rw [Option.map_none, ← hc]
  | some chain =>
    obtain ⟨n, within, fits⟩ := hchain chain hc
    rw [Step.ensures_zoom]
    exact ⟨(), _, Handler.signal_yields within fits hhandle hne, rfl, rfl⟩

/-- Signals are sent if there are some, and a handle to send them through. -/
theorem signals_yields (hsignals : H.signals < UInt32.size)
    (hchain : ∀ chain, l.frame.chain? = some chain →
      ∃ n, chain.Within n ∧ n + H.signals < UInt32.size) :
    (if UInt32.ofNat H.signals = 0 then pure ()
      else match H.first.handle? with
        | none => pure ()
        | some handle => onFrame (Frame.signal handle (UInt32.ofNat H.signals)) :
      Step (Live Memory MemoryList) Unit).Yields l ()
      { l with frame := { l.frame with chain? := l.frame.chain?.map H.settle } } := by
  by_cases hzero : H.signals = 0
  · have hsettle : H.settle = id := funext (Handler.settle_of_none (.inl hzero))
    rw [if_pos ((Count.ofNat_eq_zero_iff hsignals).2 hzero), hsettle, Option.map_id_fun, id]
    exact ⟨rfl, rfl⟩
  · rw [if_neg (mt (Count.ofNat_eq_zero_iff hsignals).1 hzero)]
    cases hhandle : H.first.handle? with
    | none =>
      have hsettle : H.settle = id := funext (Handler.settle_of_none (.inr hhandle))
      rw [hsettle, Option.map_id_fun, id]
      exact ⟨rfl, rfl⟩
    | some handle => exact signal_yields hchain hhandle hzero

/-- A complete handler submits its lists and signals the trackers. -/
theorem submit_yields {m : Memory} {f : Frame MemoryList} (failing : m.failing = false)
    (formed : f.plan.Formed) (hnew : f.executed[c]? = some false)
    (hgs : ∀ G ∈ H.groups, G ∈ f.plan.groups) (hnodup : (out ++ H.groups).Nodup)
    (hdone : H.Done done) (hsignals : H.signals < UInt32.size)
    (hchain : ∀ chain, f.chain? = some chain →
      ∃ n, chain.Within n ∧ n + H.signals < UInt32.size) :
    (submit Memory.backend c H).Yields ⟨m, f.filledBy done out⟩ ()
      { backend := { m with submissions := m.submissions ++ [H.submission] }
        frame := Frame.filledBy { f with
          executed := f.executed.set c true
          chain? := f.chain?.map H.settle } done (out ++ H.groups) } := by
  have hexecuted : ¬ (f.filledBy done out).handlerExecuted c = true := by
    show ¬ f.executed[c]?.getD false = true
    rw [hnew, Option.getD_some]
    exact Bool.false_ne_true
  -- the frame on which the lists are taken out
  let f' : Frame MemoryList := { f with executed := f.executed.set c true }
  have htake : (Frame.takeAll 0 0 H.groups).Yields (f'.filledBy done out)
      (Handler.recordedFrom 0 H.groups, UInt32.ofNat H.signals)
      (f'.filledBy done (out ++ H.groups)) := by
    have hall := Frame.takeAll_yields (f := f') formed 0 0 hgs hnodup hdone
      (by rw [UInt32.toNat_zero, Nat.zero_add]; exact hsignals)
    rw [UInt32.toNat_zero, Nat.zero_add] at hall
    exact hall
  unfold submit
  rw [Step.yields_read_bind, if_neg hexecuted]
  rw [Step.yields_bind]
  refine ⟨(), ⟨m, f'.filledBy done out⟩, ⟨rfl, rfl⟩, ?_⟩
  rw [Step.yields_bind]
  refine ⟨_, ⟨m, f'.filledBy done (out ++ H.groups)⟩, onFrame_yields htake, ?_⟩
  rw [Step.yields_bind]
  refine ⟨(), _, ⟨rfl, rfl⟩, ?_⟩
  rw [Step.yields_bind]
  refine ⟨(), _, submit_memory failing H, ?_⟩
  exact signals_yields hsignals hchain

/-! ## Retirement -/

/-- The frame and its submissions after some tasks, when the handlers before a position
have retired. -/
def after (l : Live Memory MemoryList) (done : List Task) (c : Nat) :
    Live Memory MemoryList where
  backend := { l.backend with
    submissions := l.backend.submissions ++ (l.frame.plan.handlers.take c).map (·.submission) }
  frame := (l.frame.retiredTo c).filledBy done
    ((l.frame.plan.handlers.take c).flatMap (·.groups))

/-- After some tasks, as many handlers have retired as may. -/
def Reached (l : Live Memory MemoryList) (done : List Task) (l' : Live Memory MemoryList) : Prop :=
  ∃ c, l.frame.plan.Settled done c ∧ l' = l.after done c

/-- A frame of a plan on a backend that refuses nothing. -/
structure Ready (l : Live Memory MemoryList) : Prop where
  formed : l.frame.plan.Formed
  failing : l.backend.failing = false

/-- A handler is complete when its tasks are done. -/
theorem Ready.handlerComplete_after (h : l.Ready) (hH : H ∈ l.frame.plan.handlers) :
    (l.after done c).frame.handlerComplete H = true ↔ H.Done done := by
  rw [Frame.handlerComplete, List.all_eq_true]
  apply forall₂_congr
  intro G hG
  rw [after, Frame.groupComplete_filledBy (f := l.frame.retiredTo c) h.formed
    (h.formed.mem_groups hH hG), decide_eq_true_iff, Group.card_missing_eq_zero_iff]

/-- The handler at the cursor retires when its tasks are done. -/
theorem Ready.retireOne (h : l.Ready) (hH : l.frame.plan.handlers[c]? = some H)
    (hdone : H.Done done) :
    (do onFrame (Step.modify (Frame.retired c)); submit Memory.backend c H :
      Step (Live Memory MemoryList) Unit).Yields (l.after done c) () (l.after done (c + 1)) := by
  obtain ⟨hc, hget⟩ := List.getElem?_eq_some_iff.1 hH
  have hmem : H ∈ l.frame.plan.handlers := List.mem_of_getElem? hH
  have htake : l.frame.plan.handlers.take (c + 1) = l.frame.plan.handlers.take c ++ [H] := by
    rw [List.take_succ_eq_append_getElem hc, hget]
  have hnodup : ((l.frame.plan.handlers.take c).flatMap (·.groups) ++ H.groups).Nodup := by
    have hall := h.formed.nodup
    rw [← h.formed.flatMap_groups, ← List.take_append_drop (c + 1) l.frame.plan.handlers,
      List.flatMap_append, htake, List.flatMap_append, List.flatMap_singleton] at hall
    exact (List.nodup_append.1 hall).1
  have hexecuted : (l.frame.retiredTo c).executed[c]? = some false := by
    rw [Frame.getElem?_executed_retiredTo c hc, decide_eq_false (Nat.lt_irrefl c)]
  have hset := l.frame.set_executed_retiredTo c
  have hsettle := Frame.settle_retiredTo hH
  have hsubmit := submit_yields (m := (l.after done c).backend)
    (f := { l.frame.retiredTo c with cursor := c + 1 }) h.failing h.formed hexecuted
    (fun G hG => h.formed.mem_groups hmem hG) hnodup hdone
    (h.formed.signals_lt hH) (h.formed.exists_within (List.Sublist.refl _) hH)
  rw [Step.yields_bind]
  refine ⟨(), _, ⟨rfl, rfl⟩, hsubmit.1, hsubmit.2.trans ?_⟩
  simp only [hset, hsettle]
  simp only [after, htake, List.map_append, List.map_singleton, List.flatMap_append,
    List.flatMap_singleton, List.append_assoc]
  rfl

/-- Handlers retire as long as they are complete. -/
theorem Ready.retireFrom (h : l.Ready) {hs : List Handler}
    (hhs : l.frame.plan.handlers.drop c = hs)
    (hretired : ∀ H ∈ l.frame.plan.handlers.take c, H.Done done)
    (hc : c ≤ l.frame.plan.handlers.length) :
    (Live.retireFrom Memory.backend c hs).Ensures (l.after done c) fun _ => l.Reached done := by
  induction hs generalizing c with
  | nil =>
    have hend := List.drop_eq_nil_iff.1 hhs
    refine Step.ensures_pure.2 ⟨c, ⟨hretired, fun H hH => ?_, hc⟩, rfl⟩
    rw [List.getElem?_eq_none hend] at hH
    cases hH
  | cons H hs ih =>
    obtain ⟨hH, hrest⟩ := of_drop_eq_cons hhs
    have hmem := List.mem_of_getElem? hH
    have hlt := (List.getElem?_eq_some_iff.1 hH).1
    unfold Live.retireFrom
    rw [Step.ensures_bind, Step.ensures_read]
    by_cases hdone : H.Done done
    · rw [if_pos ((h.handlerComplete_after hmem).2 hdone), ← bind_assoc, Step.ensures_bind]
      refine ⟨(), _, h.retireOne hH hdone, ih hrest ?_ hlt⟩
      rw [List.getElem?_eq_getElem hlt, Option.some_inj] at hH
      rw [List.take_succ_eq_append_getElem hlt, hH]
      exact forall_mem_concat.2 ⟨hretired, hdone⟩
    · have hnot : ¬ (l.after done c).frame.handlerComplete H = true :=
        fun hcomplete => hdone ((h.handlerComplete_after hmem).1 hcomplete)
      rw [if_neg hnot]
      refine Step.ensures_pure.2 ⟨c, ⟨hretired, fun H' hH' => ?_, hc⟩, rfl⟩
      rw [hH, Option.some_inj] at hH'
      rw [← hH']
      exact hdone

/-- A group that asks for execution has its handler and those before it retire, if they
are complete. -/
theorem Ready.executeGroup (h : l.Ready) {k : Nat} {G : Group}
    (hG : l.frame.plan.groups[k]? = some G)
    (hretired : ∀ H ∈ l.frame.plan.handlers.take c, H.Done done)
    (hc : c ≤ l.frame.plan.handlers.length)
    (hcursor : ∀ H, l.frame.plan.handlers[c]? = some H → H.Done done → H.id = G.id) :
    (Live.executeGroup Memory.backend k).Ensures (l.after done c) fun _ => l.Reached done := by
  obtain ⟨position, H, hposition, hH, hid⟩ :=
    h.formed.exists_handlerIndex (List.mem_of_getElem? hG)
  have hsettled : (∀ H, l.frame.plan.handlers[c]? = some H → ¬ H.Done done) →
      l.Reached done (l.after done c) :=
    fun hwaiting => ⟨c, ⟨hretired, hwaiting, hc⟩, rfl⟩
  have hexecuted : (l.after done c).frame.handlerExecuted position = decide (position < c) := by
    show (l.frame.retiredTo c).executed[position]?.getD false = _
    rw [Frame.getElem?_executed_retiredTo c (List.getElem?_eq_some_iff.1 hH).1, Option.getD_some]
  have hgroup : (l.after done c).frame.plan.groups[k]? = some G := hG
  have hfind : (l.after done c).frame.plan.handlerIndex? G.id = some position := hposition
  rw [Live.executeGroup, Live.group, Step.ensures_bind, Step.ensures_bind, Step.ensures_read,
    hgroup, Step.ensures_pure, Step.ensures_bind, Step.ensures_read]
  simp only [hfind, hexecuted]
  split
  · rename_i hskip
    refine Step.ensures_pure.2 (hsettled fun H' hH' hdone' => ?_)
    have hsame : c = position :=
      h.formed.eq_of_id_eq hH' hH ((hcursor H' hH' hdone').trans hid.symm)
    subst hsame
    have hcomplete := (h.handlerComplete_after (c := c) (List.mem_of_getElem? hH')).2 hdone'
    have hany : (l.after done c).frame.plan.handlers[c]?.any
        (l.after done c).frame.handlerComplete = true := by
      show l.frame.plan.handlers[c]?.any _ = true
      rw [hH', Option.any_some]
      exact hcomplete
    rw [hany, decide_eq_false (Nat.lt_irrefl c)] at hskip
    cases hskip
  · unfold Live.retire
    rw [Step.ensures_bind, Step.ensures_read]
    exact h.retireFrom rfl hretired hc

/-! ## Tasks -/

/-- The scopes of a list are recorded in order, and nothing else changes. -/
theorem recordScopes_yields (G : Group) (i : Nat) (ss : List PlacedScope) (list : CommandList) :
    (recordScopes Memory.backend G i (.own list) ss).Yields l
      (.own { list with recorded := list.recorded ++ ss.map fun s => (s.id, G.items i s) }) l := by
  induction ss generalizing list with
  | nil =>
    rw [List.map_nil, List.append_nil]
    exact ⟨rfl, rfl⟩
  | cons s ss ih =>
    have hrest := ih { list with recorded := list.recorded ++ [(s.id, G.items i s)] }
    rw [List.append_assoc, List.singleton_append] at hrest
    unfold recordScopes
    rw [Step.yields_bind]
    exact ⟨_, l, ⟨rfl, rfl⟩, hrest⟩

/-- A task is done; the answer is whether it was the last of its group. -/
theorem Ready.recordList (h : l.Ready) {G : Group} {i : Nat} (hG : G ∈ l.frame.plan.groups)
    (hi : i < G.lists.toNat) (hnew : (G, i) ∉ done)
    (hretired : ∀ H ∈ l.frame.plan.handlers.take c, H.Done done) :
    (Live.recordList Memory.backend G i).Yields (l.after done c)
      (decide ((G.missing ((G, i) :: done)).card = 0)) (l.after ((G, i) :: done) c) := by
  have hout : G ∉ (l.frame.plan.handlers.take c).flatMap (·.groups) := by
    intro hmem
    obtain ⟨H, hH, hGH⟩ := List.mem_flatMap.1 hmem
    exact hnew (hretired H hH G hGH i hi)
  have hstore := Frame.store_yields (f := l.frame.retiredTo c) h.formed hG hout hi hnew
  unfold Live.recordList
  rw [Step.abortIf, decide_eq_false (Nat.not_le.2 hi), Step.yields_bind]
  refine ⟨(), _, ⟨rfl, rfl⟩, ?_⟩
  rw [Step.yields_bind]
  refine ⟨.own { label := G.label, level := G.level }, _, ⟨rfl, rfl⟩, ?_⟩
  rw [Step.yields_bind]
  exact ⟨_, _, recordScopes_yields G i G.members _, onFrame_yields hstore⟩

/-- **A task that is still to come leads from one settled state to the next.** -/
theorem Ready.recordTask (h : l.Ready) {t : Task} (ht : t ∈ l.frame.plan.tasks) (hnew : t ∉ done)
    {l' : Live Memory MemoryList} (hl' : l.Reached done l') :
    (Live.recordTask Memory.backend t).Ensures l' fun _ => l.Reached (t :: done) := by
  rcases hl' with ⟨c, settled, rfl⟩
  rcases t with ⟨G, i⟩
  obtain ⟨hG, hi⟩ : G ∈ l.frame.plan.groups ∧ i < G.lists.toNat := Plan.mem_tasks.1 ht
  have hretired : ∀ H ∈ l.frame.plan.handlers.take c, H.Done ((G, i) :: done) :=
    fun H hH G' hG' j hj => List.mem_cons_of_mem _ (settled.retired H hH G' hG' j hj)
  -- only the handler of the group can have become complete
  have hown : ∀ H, l.frame.plan.handlers[c]? = some H → H.Done ((G, i) :: done) →
      G ∈ H.groups := by
    intro H hH hdone
    by_contra hnot
    apply settled.waiting H hH
    intro G' hG' j hj
    apply (List.mem_cons.1 (hdone G' hG' j hj)).resolve_left
    intro heq
    cases heq
    exact hnot hG'
  have hlist := h.recordList hG hi hnew settled.retired
  unfold Live.recordTask
  rw [Step.ensures_bind]
  refine ⟨_, _, hlist, ?_⟩
  by_cases hlast : (G.missing ((G, i) :: done)).card = 0
  · rw [decide_eq_true hlast]
    refine h.executeGroup (h.formed.getElem?_index hG) hretired settled.le fun H hH hdone => ?_
    exact (h.formed.numbered (List.mem_of_getElem? hH) G (hown H hH hdone)).symm
  · rw [decide_eq_false hlast]
    refine Step.ensures_pure.2 ⟨c, ⟨hretired, fun H hH hdone => hlast ?_, settled.le⟩, rfl⟩
    exact Group.card_missing_eq_zero_iff.2 (hdone G (hown H hH hdone))

/-- A call to execute a group between two tasks has nothing to retire. -/
theorem Ready.executeGroup_reached (h : l.Ready) {k : Nat} (hk : k < l.frame.plan.groups.length)
    {l' : Live Memory MemoryList} (hl' : l.Reached done l') :
    (Live.executeGroup Memory.backend k).Ensures l' fun _ => l.Reached done := by
  rcases hl' with ⟨c, settled, rfl⟩
  exact h.executeGroup (List.getElem?_eq_getElem hk) settled.retired settled.le
    fun H hH hdone => (settled.waiting H hH hdone).elim

/-! ## Runs -/

/-- What may be done with an open frame: a task is recorded, or a group asks for
execution. -/
inductive Act where
  | record (task : Task)
  | execute (index : Nat)

namespace Act

def task? : Act → Option Task
  | .record task => some task
  | .execute _ => none

/-- The step of an act. -/
def step {σ Λ : Type} (b : Backend σ Λ) : Act → Step (Live σ Λ) Unit
  | .record task => Live.recordTask b task
  | .execute index => Live.executeGroup b index

/-- The act names a task or a group of the plan. -/
def Valid (p : Plan) : Act → Prop
  | .record task => task ∈ p.tasks
  | .execute index => index < p.groups.length

end Act

/-- **A run of acts** does its tasks, in any order, and nothing else. -/
theorem Ready.perform (h : l.Ready) {acts : List Act}
    (valid : ∀ act ∈ acts, act.Valid l.frame.plan)
    (hnodup : (acts.filterMap Act.task?).Nodup)
    (hnew : ∀ t ∈ acts.filterMap Act.task?, t ∉ done)
    {l' : Live Memory MemoryList} (hl' : l.Reached done l') :
    (Step.forEach (Act.step Memory.backend) acts).Ensures l' fun _ =>
      l.Reached ((acts.filterMap Act.task?).reverse ++ done) := by
  induction acts generalizing done l' with
  | nil => exact Step.ensures_pure.2 hl'
  | cons act acts ih =>
    have hact := valid act List.mem_cons_self
    have hvalid : ∀ act ∈ acts, act.Valid l.frame.plan :=
      fun a ha => valid a (List.mem_cons_of_mem _ ha)
    rw [Step.forEach, Step.ensures_bind]
    cases act with
    | execute k =>
      rw [List.filterMap_cons_none rfl] at hnodup hnew ⊢
      exact (h.executeGroup_reached hact hl').mono fun _ m hm => ih hvalid hnodup hnew hm
    | record t =>
      have hcons : (Act.record t :: acts).filterMap Act.task? = t :: acts.filterMap Act.task? := rfl
      rw [hcons] at hnodup hnew ⊢
      obtain ⟨ht, hrest⟩ := List.nodup_cons.1 hnodup
      rw [List.reverse_cons, List.append_assoc, List.singleton_append]
      apply (h.recordTask hact (hnew t List.mem_cons_self) hl').mono
      intro _ m hm
      refine ih hvalid hrest (fun u hu hmem => ?_) hm
      rcases List.mem_cons.1 hmem with rfl | hmem
      · exact ht hu
      · exact hnew u (List.mem_cons_of_mem _ hu) hmem

theorem forEach_recordTask (ts : List Task) :
    Step.forEach (Live.recordTask Memory.backend) ts =
      Step.forEach (Act.step Memory.backend) (ts.map Act.record) := by
  induction ts with
  | nil => rfl
  | cons t ts ih =>
    rw [Step.forEach, List.map_cons, Step.forEach, ih]
    rfl

/-- Tasks recorded one after the other. -/
theorem Ready.recordTasks (h : l.Ready) {ts : List Task} (hts : ∀ t ∈ ts, t ∈ l.frame.plan.tasks)
    (hnodup : ts.Nodup) (hnew : ∀ t ∈ ts, t ∉ done)
    {l' : Live Memory MemoryList} (hl' : l.Reached done l') :
    (Step.forEach (Live.recordTask Memory.backend) ts).Ensures l' fun _ =>
      l.Reached (ts.reverse ++ done) := by
  have htasks : (ts.map Act.record).filterMap Act.task? = ts := by
    rw [List.filterMap_map]
    exact List.filterMap_some
  have hvalid : ∀ act ∈ ts.map Act.record, act.Valid l.frame.plan := by
    intro act hact
    obtain ⟨t, ht, rfl⟩ := List.mem_map.1 hact
    exact hts t ht
  have hrun := h.perform hvalid (by rw [htasks]; exact hnodup) (by rw [htasks]; exact hnew) hl'
  rw [htasks] at hrun
  rw [forEach_recordTask]
  exact hrun

/-! ## From the beginning of a frame to its end -/

/-- A frame of which nothing has been recorded. -/
structure Begun (l : Live Memory MemoryList) : Prop extends l.Ready where
  progress : l.frame.progress = l.frame.plan.groups.map fun G => .blank G.lists
  executed : l.frame.executed = l.frame.plan.handlers.map fun _ => false
  cursor : l.frame.cursor = 0
  chain : l.frame.chain? = l.frame.plan.chain?

/-- At its beginning no handler may retire. -/
theorem Begun.reached (h : l.Begun) : l.Reached [] l := by
  refine ⟨0, ⟨by simp, fun H hH hdone => ?_, Nat.zero_le _⟩, ?_⟩
  · have hmem := List.mem_of_getElem? hH
    have hlists := (h.formed.formed _ (h.formed.mem_groups hmem (List.mem_cons_self))).lists
    have hfirst := hdone H.first List.mem_cons_self 0 (Count.pos_of_ne_zero hlists)
    cases hfirst
  · rcases l with ⟨m, f⟩
    have hprogress : f.progress = f.plan.groups.map fun G =>
        if G ∈ ([] : List Group) then (G.progressAt []).emptied else G.progressAt [] := by
      rw [h.progress]
      apply List.map_congr_left
      intro G hG
      rw [if_neg List.not_mem_nil, Group.progressAt_nil (h.formed.formed G hG).lists]
    have hexecuted : f.executed =
        (List.range f.plan.handlers.length).map fun k => decide (k < 0) := by
      rw [h.executed]
      simp [List.map_const']
    have hchain : f.chain? = f.plan.chain?.map (Handler.settleAll []) := by
      rw [Handler.map_settleAll_nil, h.chain]
    have hframe : (f.retiredTo 0).filledBy [] [] = f := by
      rw [Frame.filledBy, Frame.retiredTo, List.take_zero, ← hprogress, ← hexecuted, ← hchain]
      have hcursor := h.cursor
      simp only at hcursor
      rw [← hcursor]
    unfold after
    simp only [List.take_zero, List.map_nil, List.append_nil, List.flatMap_nil]
    rw [hframe]

/-- When all tasks are done, all handlers have retired. -/
theorem Reached.all {l' : Live Memory MemoryList} (hl' : l.Reached done l')
    (formed : l.frame.plan.Formed) (hall : ∀ t ∈ l.frame.plan.tasks, t ∈ done) :
    l' = l.after done l.frame.plan.handlers.length := by
  rcases hl' with ⟨c, settled, rfl⟩
  rcases Nat.lt_or_ge c l.frame.plan.handlers.length with hlt | hge
  · have hget := List.getElem?_eq_getElem hlt
    refine (settled.waiting _ hget fun G hG i hi => hall _ ?_).elim
    exact Plan.mem_tasks.2 ⟨formed.mem_groups (List.mem_of_getElem? hget) hG, hi⟩
  · rw [Nat.le_antisymm settled.le hge]

end Live

namespace Plan

/-- A plan names each of its tasks once. -/
theorem Formed.nodup_tasks {p : Plan} (h : p.Formed) : p.tasks.Nodup := by
  unfold tasks
  refine List.nodup_flatMap.2 ⟨fun G _ => ?_, ?_⟩
  · exact List.nodup_range.map fun i j hij => (Prod.mk.inj hij).2
  · refine h.nodup.imp fun hne => ?_
    intro t ht ht'
    obtain ⟨i, -, rfl⟩ := List.mem_map.1 ht
    obtain ⟨j, -, hj⟩ := List.mem_map.1 ht'
    exact hne (Prod.mk.inj hj).1.symm

end Plan

end FrameSchedule
