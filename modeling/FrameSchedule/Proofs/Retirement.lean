import FrameSchedule.Proofs.Frames
import FrameSchedule.Proofs.Receipts

/-!
# Submission in order, under faults

Over a backend that may refuse or give up at any call, and whatever is asked of an open
frame in whatever order, the handlers executed are those before the cursor, each of them
is complete, and there is one receipt for each, in their order (`Live.InOrder`).

A call ends with every handler retired that may be (`Frame.CaughtUp`), or else it has met
a submission that was refused, or signals that could not be counted (`Live.Spoilt`).  The
cursor has passed a handler before its submission is known to succeed, so the call after
a refusal goes on behind it.
-/

namespace FrameSchedule

variable {σ Λ : Type}

/-! ## Steps of a frame -/

namespace Frame

/-- Nothing but the progress has changed, and no group has become incomplete. -/
structure Advances (f f' : Frame Λ) : Prop where
  rest : f' = { f with progress := f'.progress }
  complete : ∀ G, f.groupComplete G = true → f'.groupComplete G = true

theorem Advances.refl (f : Frame Λ) : f.Advances f :=
  ⟨rfl, fun _ h => h⟩

theorem Advances.trans {f f' f'' : Frame Λ} (h : f.Advances f') (h' : f'.Advances f'') :
    f.Advances f'' := by
  refine ⟨?_, fun G hG => h'.complete G (h.complete G hG)⟩
  rw [h'.rest, h.rest]

theorem Advances.handlerComplete {f f' : Frame Λ} (h : f.Advances f') {H : Handler}
    (hH : f.handlerComplete H = true) : f'.handlerComplete H = true :=
  List.all_eq_true.2 fun G hG => h.complete G (List.all_eq_true.1 hH G hG)

variable {f : Frame Λ} {G : Group}

/-- Whether a group is complete after the progress of one group has been set. -/
theorem groupComplete_setProgress {g : Group} {p q : Progress Λ}
    (hp : f.progress[g.index]? = some p) :
    (setProgress g q f).groupComplete G =
      if G.index = g.index then q.complete else f.groupComplete G := by
  obtain ⟨hlt, -⟩ := List.getElem?_eq_some_iff.1 hp
  rw [groupComplete, setProgress, List.getElem?_set]
  by_cases hindex : g.index = G.index
  · rw [if_pos hindex, if_pos hlt, if_pos hindex.symm, Option.any_some]
  · rw [if_neg hindex, if_neg (Ne.symm hindex), groupComplete]

theorem groupComplete_of_progress {p : Progress Λ} (hp : f.progress[G.index]? = some p) :
    f.groupComplete G = p.complete := by
  rw [groupComplete, hp, Option.any_some]

/-- A list that is stored can complete only its own group, and does so if it is the last. -/
theorem store_leaves (g : Group) (i : Nat) (list : Λ) :
    (store g i list).Leaves f
      (fun last f' => f.Advances f' ∧ ∀ G, f'.groupComplete G = true →
        f.groupComplete G = true ∨ last = true ∧ G.index = g.index)
      fun stop f' => f' = f ∧ stop = .fault (.listRecordedTwice i g.label) := by
  unfold store
  rw [Step.leaves_bind, Step.leaves_read]
  cases hp : f.progress[g.index]? with
  | none => exact ⟨.refl f, fun G hG => .inl hG⟩
  | some p =>
    simp only [Step.leaves_bind, Step.leaves_abortIf, Step.leaves_modify, Step.leaves_pure]
    refine ⟨fun _ => ⟨trivial, trivial⟩, fun _ => ⟨⟨rfl, fun G hG => ?_⟩, fun G hG => ?_⟩⟩
    · rw [groupComplete_setProgress hp]
      split
      · rename_i hindex
        rw [← hindex] at hp
        rw [groupComplete_of_progress hp] at hG
        simp [Progress.fill, hG]
      · exact hG
    · rw [groupComplete_setProgress hp] at hG
      split at hG
      · rename_i hindex
        rw [← hindex] at hp
        rw [groupComplete_of_progress hp]
        simp only [Progress.fill, Bool.or_eq_true] at hG
        exact hG.imp_right fun hlast => ⟨hlast, hindex⟩
      · exact .inl hG

theorem takeLists_ensures (g : Group) :
    (takeLists g).Ensures f fun _ f' => f.Advances f' := by
  unfold takeLists
  rw [Step.ensures_bind, Step.ensures_read]
  cases hp : f.progress[g.index]? with
  | none => exact Step.ensures_pure.2 (.refl f)
  | some p =>
    simp only [Step.ensures_bind, Step.ensures_modify, Step.ensures_pure]
    refine ⟨rfl, fun G hG => ?_⟩
    rw [groupComplete_setProgress hp]
    split
    · rename_i hindex
      rw [← hindex] at hp
      rw [groupComplete_of_progress hp] at hG
      exact hG
    · exact hG

/-- The lists of groups are taken out, and their signals added up. -/
theorem takeAll_ensures {gs : List Group} (subpass : Nat) {signals : UInt32}
    (fits : signals.toNat + Count.total (gs.map (·.signals)) < UInt32.size) :
    (takeAll subpass signals gs).Ensures f fun taken f' => f.Advances f' ∧
      taken.2.toNat = signals.toNat + Count.total (gs.map (·.signals)) := by
  induction gs generalizing f subpass signals with
  | nil => exact Step.ensures_pure.2 ⟨.refl f, rfl⟩
  | cons g gs ih =>
    rw [List.map_cons, Count.total] at fits ⊢
    obtain ⟨w, hw, hval⟩ := Count.exists_add (a := signals) (b := g.signals) (by omega)
    unfold takeAll
    rw [Step.ensures_bind]
    refine (takeLists_ensures g).mono fun lists f₁ h₁ => ?_
    rw [Step.ensures_bind, Step.ensures_ofFault]
    refine ⟨w, hw, ?_⟩
    rw [Step.ensures_bind]
    refine (ih (subpass + 1) (by omega)).mono fun taken f₂ h₂ => ?_
    rw [Step.ensures_pure]
    exact ⟨h₁.trans h₂.1, by simp only [h₂.2, hval, Nat.add_assoc]⟩

/-- Lists are taken out of their slots, and nothing else changes. -/
theorem advances_of_takeAll {f' : Frame Λ} {gs : List Group} {subpass : Nat} {signals : UInt32}
    {taken : List (RecordedList Λ) × UInt32}
    (fits : signals.toNat + Count.total (gs.map (·.signals)) < UInt32.size)
    (h : (takeAll subpass signals gs).Yields f taken f') : f.Advances f' := by
  obtain ⟨_, _, hyields, hadvances, -⟩ := takeAll_ensures (f := f) subpass fits
  obtain ⟨-, rfl⟩ := h.unique hyields
  exact hadvances

/-- A submission takes the lists of its handler out of their slots, and changes nothing else. -/
theorem Advances.of_takeAll {f' : Frame Λ} {H : Handler} {taken : List (RecordedList Λ) × UInt32}
    (hsignals : H.signals < UInt32.size) (h : (takeAll 0 0 H.groups).Yields f taken f') :
    f.Advances f' :=
  advances_of_takeAll (by rwa [UInt32.toNat_zero, Nat.zero_add]) h

end Frame

/-! ## Signals -/

/-- Signals to trackers stop only where they cannot be counted. -/
theorem Handle.signal_leaves (handle : Handle) (count : UInt32) (chain : Chain) :
    (handle.signal count).Leaves chain (fun _ _ => True) fun stop _ =>
      stop = .fault .addOverflow :=
  (Chain.signal_leaves handle.reach count chain).mono (fun _ _ _ => trivial)
    fun _ _ hstop => hstop.1

/-- Signals change nothing but the trackers, and stop only where they cannot be counted. -/
theorem Frame.signal_leaves {f : Frame Λ} (handle : Handle) (count : UInt32) :
    (signal handle count).Leaves f (fun _ f' => ∃ chain?, f' = { f with chain? := chain? })
      fun stop f' => stop = .fault .addOverflow ∧ ∃ chain?, f' = { f with chain? := chain? } := by
  unfold signal
  rw [Step.leaves_bind, Step.leaves_read]
  rcases f with ⟨graph, plan, progress, executed, cursor, recorded, chain?⟩
  cases chain? with
  | none => exact ⟨none, rfl⟩
  | some chain =>
    rw [Step.leaves_zoom]
    apply (handle.signal_leaves count chain).mono
    · exact fun _ _ _ => ⟨_, rfl⟩
    · exact fun _ _ hstop => ⟨hstop, _, rfl⟩

/-- Signals that can be counted settle the trackers. -/
theorem Frame.signal_ensures {f : Frame Λ} {H : Handler} {handle : Handle}
    (hhandle : H.first.handle? = some handle) (hne : H.signals ≠ 0)
    (hchain : ∀ chain, f.chain? = some chain → ∃ n, chain.Within n ∧ n + H.signals < UInt32.size) :
    (signal handle (UInt32.ofNat H.signals)).Ensures f fun _ f' =>
      f' = { f with chain? := f.chain?.map H.settle } := by
  unfold signal
  rw [Step.ensures_bind, Step.ensures_read]
  rcases f with ⟨graph, plan, progress, executed, cursor, recorded, chain?⟩
  cases chain? with
  | none => exact Step.ensures_pure.2 rfl
  | some chain =>
    obtain ⟨n, within, fits⟩ := hchain chain rfl
    rw [Step.ensures_zoom]
    exact ⟨(), _, Handler.signal_yields within fits hhandle hne, rfl⟩

/-! ## Submission -/

/-- The batch of the receipt is one of the handler's. -/
def Handler.Offers (H : Handler) (r : Receipt Λ) : Prop :=
  ∃ lists, r.batch = H.batch lists

/-- The handlers whose batches were accepted. -/
def Handler.acceptedOf (hs : List Handler) (rs : List (Receipt Λ)) : List Handler :=
  ((hs.zip rs).filter (·.2.accepted)).map (·.1)

theorem Handler.acceptedOf_sublist {hs : List Handler} {rs : List (Receipt Λ)}
    (hlength : hs.length = rs.length) : (acceptedOf hs rs).Sublist hs := by
  have hzip := List.map_fst_zip (Nat.le_of_eq hlength)
  conv => right; rw [← hzip]
  exact List.filter_sublist.map _

/-- The handlers that have retired are the longest row of complete ones. -/
def Frame.CaughtUp (f : Frame Λ) : Prop :=
  f.plan.handlers.take f.cursor = f.plan.handlers.takeWhile f.handlerComplete

theorem Plan.Formed.exists_handler {p : Plan} {G : Group} (h : p.Formed) (hG : G ∈ p.groups) :
    ∃ (position : Nat) (H : Handler), p.handlers[position]? = some H ∧ G ∈ H.groups := by
  rw [← h.flatMap_groups] at hG
  obtain ⟨H, hH, hGH⟩ := List.mem_flatMap.1 hG
  obtain ⟨position, hposition⟩ := List.mem_iff_getElem?.1 hH
  exact ⟨position, H, hposition, hGH⟩

namespace Live

variable {p : Plan} {own q : Prop} {rs : List (Receipt Λ)} {l l' : Live (Receipted σ Λ) Λ}
  {H : Handler} {G : Group} {k : Nat}

/-- What the submission of a handler leaves behind.  If nobody else signals the trackers
(`own`), they have had its signals just when the batch was accepted. -/
structure Submitted (own : Prop) (k : Nat) (H : Handler) (accepted : Bool)
    (l l' : Live (Receipted σ Λ) Λ) : Prop where
  rest : l'.frame = { l.frame with
    executed := l.frame.executed.set k true
    progress := l'.frame.progress
    chain? := l'.frame.chain? }
  complete : ∀ G, l.frame.groupComplete G = true → l'.frame.groupComplete G = true
  receipt : ∃ lists, l'.backend.receipts = l.backend.receipts ++ [⟨H.batch lists, accepted⟩]
  chain : own → l'.frame.chain? =
    if accepted then l.frame.chain?.map H.settle else l.frame.chain?

/-- The signals of a handler settle the trackers, unless somebody else's have left no room
for them. -/
theorem signals_leaves {l : Live σ Λ} (own : Prop) (hsignals : H.signals < UInt32.size)
    (hchain : own → ∀ chain, l.frame.chain? = some chain →
      ∃ n, chain.Within n ∧ n + H.signals < UInt32.size) :
    (if UInt32.ofNat H.signals = 0 then pure ()
      else match H.first.handle? with
        | none => pure ()
        | some handle => onFrame (Frame.signal handle (UInt32.ofNat H.signals)) :
      Step (Live σ Λ) Unit).Leaves l
      (fun _ l' => ∃ chain?, l' = { l with frame := { l.frame with chain? := chain? } } ∧
        (own → chain? = l.frame.chain?.map H.settle))
      fun stop l' => stop = .fault .addOverflow ∧ ¬ own ∧
        ∃ chain?, l' = { l with frame := { l.frame with chain? := chain? } } := by
  have hnone : H.signals = 0 ∨ H.first.handle? = none →
      ∃ chain?, l = { l with frame := { l.frame with chain? := chain? } } ∧
        (own → chain? = l.frame.chain?.map H.settle) := by
    intro hnone
    refine ⟨l.frame.chain?, rfl, fun _ => ?_⟩
    rw [funext (Handler.settle_of_none hnone), Option.map_id']
  by_cases hzero : H.signals = 0
  · rw [if_pos ((Count.ofNat_eq_zero_iff hsignals).2 hzero)]
    exact hnone (.inl hzero)
  · rw [if_neg (mt (Count.ofNat_eq_zero_iff hsignals).1 hzero)]
    cases hhandle : H.first.handle? with
    | none => exact hnone (.inr hhandle)
    | some handle =>
      simp only [onFrame, Step.leaves_zoom]
      by_cases howned : own
      · refine Step.leaves_of_ensures ?_
        refine (Frame.signal_ensures hhandle hzero (hchain howned)).mono fun _ f hf => ?_
        exact ⟨_, congrArg (fun frame => { l with frame := frame }) hf, fun _ => rfl⟩
      · apply (Frame.signal_leaves handle (UInt32.ofNat H.signals)).mono
        · intro _ f hf
          rcases hf with ⟨chain?, rfl⟩
          exact ⟨chain?, rfl, fun hown => (howned hown).elim⟩
        · intro stop f hf
          rcases hf with ⟨hstop, chain?, rfl⟩
          exact ⟨hstop, howned, chain?, rfl⟩

/-- **All that a submission does.**  The lists are taken out of their slots and handed to the
backend.  It stops where the backend refuses them, or where somebody else's signals have left
no room for those of an accepted batch. -/
theorem submit_leaves_of {l : Live σ Λ} (own : Prop) (b : Backend σ Λ)
    (hnew : l.frame.handlerExecuted k = false) (hsignals : H.signals < UInt32.size)
    (hchain : own → ∀ chain, l.frame.chain? = some chain →
      ∃ n, chain.Within n ∧ n + H.signals < UInt32.size) :
    ∃ taken f, (Frame.takeAll 0 0 H.groups).Yields (l.frame.markExecuted k) taken f ∧
      ∀ {accepted : σ → Prop} {refused : Stop → σ → Prop},
        (b.submit (H.batch taken.1)).Leaves l.backend (fun _ => accepted) refused →
          (submit b k H).Leaves l
            (fun _ l' => accepted l'.backend ∧ l'.frame = { f with chain? := l'.frame.chain? } ∧
              (own → l'.frame.chain? = l.frame.chain?.map H.settle))
            fun stop l' =>
              refused stop l'.backend ∧ l'.frame = f ∧ f.chain? = l.frame.chain? ∨
                accepted l'.backend ∧ l'.frame = { f with chain? := l'.frame.chain? } ∧
                  stop = .fault .addOverflow ∧ ¬ own := by
  have fits : (0 : UInt32).toNat + Count.total (H.groups.map (·.signals)) < UInt32.size := by
    rw [UInt32.toNat_zero, Nat.zero_add]
    exact hsignals
  obtain ⟨⟨lists, signals⟩, f, htake, hadvances, hsum⟩ :=
    Frame.takeAll_ensures (f := l.frame.markExecuted k) 0 fits
  rw [UInt32.toNat_zero, Nat.zero_add] at hsum
  obtain rfl : signals = UInt32.ofNat H.signals :=
    UInt32.toNat_inj.1 (hsum.trans (UInt32.toNat_ofNat_of_lt' hsignals).symm)
  have hsame : f.chain? = l.frame.chain? := by
    rw [hadvances.rest]
    rfl
  refine ⟨_, f, htake, fun hbackend => ?_⟩
  unfold submit
  simp only [Step.leaves_bind, Step.leaves_read, hnew, Bool.false_eq_true, if_false, onFrame,
    Step.leaves_zoom, Step.leaves_modify]
  refine Step.leaves_of_ensures ⟨_, f, htake, ?_⟩
  -- the lists are taken out, and the backend answers
  simp only [Step.leaves_note, onBackend, Step.leaves_zoom]
  apply hbackend.mono
  · intro _ s hs
    apply (signals_leaves (l := ⟨s, f⟩) own hsignals (hsame ▸ hchain)).mono
    · intro _ l' hl'
      rcases hl' with ⟨chain?, rfl, hsettled⟩
      exact ⟨hs, rfl, fun howned => hsame ▸ hsettled howned⟩
    · intro stop l' hl'
      rcases hl' with ⟨hstop, howned, chain?, rfl⟩
      exact .inr ⟨hs, rfl, hstop, howned⟩
  · intro stop s hs
    exact .inl ⟨hs, trivial, hsame⟩

/-- The lists have been handed to the backend in a batch of the handler, and the frame is `f`
up to its trackers. -/
structure Handed (H : Handler) (lists : List (RecordedList Λ)) (accepted : Bool) (f : Frame Λ)
    (l l' : Live (Receipted σ Λ) Λ) : Prop where
  rest : l'.frame = { f with chain? := l'.frame.chain? }
  receipt : l'.backend.receipts = l.backend.receipts ++ [⟨H.batch lists, accepted⟩]

/-- A submission, told by the receipts. -/
theorem submit_outcomes (own : Prop) (b : Backend σ Λ)
    (hnew : l.frame.handlerExecuted k = false) (hsignals : H.signals < UInt32.size)
    (hchain : own → ∀ chain, l.frame.chain? = some chain →
      ∃ n, chain.Within n ∧ n + H.signals < UInt32.size) :
    ∃ taken f, (Frame.takeAll 0 0 H.groups).Yields (l.frame.markExecuted k) taken f ∧
      (submit (Receipted.backend b) k H).Leaves l
        (fun _ l' => Handed H taken.1 true f l l' ∧
          (own → l'.frame.chain? = l.frame.chain?.map H.settle))
        fun stop l' =>
          Handed H taken.1 false f l l' ∧ l'.frame.chain? = l.frame.chain? ∧
              (∃ cause, stop = Stop.ofBackend cause) ∨
            Handed H taken.1 true f l l' ∧ stop = .fault .addOverflow ∧ ¬ own := by
  obtain ⟨taken, f, htake, hleaves⟩ :=
    submit_leaves_of own (Receipted.backend b) hnew hsignals hchain
  refine ⟨taken, f, htake, (hleaves (Receipted.submit_leaves b (H.batch taken.1))).mono ?_ ?_⟩
  · intro _ l' hl'
    rcases hl' with ⟨hreceipt, hframe, hsettled⟩
    exact ⟨⟨hframe, hreceipt⟩, hsettled⟩
  · intro stop l' hl'
    rcases hl' with ⟨⟨hreceipt, hcause⟩, hframe, hsame⟩ | ⟨hreceipt, hframe, hstop, howned⟩
    · exact .inl ⟨⟨by rw [hframe], hreceipt⟩, by rw [hframe, hsame], hcause⟩
    · exact .inr ⟨⟨hframe, hreceipt⟩, hstop, howned⟩

/-- A submission leaves one receipt.  After an accepted one only the signals can fail. -/
theorem submit_leaves (own : Prop) (b : Backend σ Λ) (hnew : l.frame.handlerExecuted k = false)
    (hsignals : H.signals < UInt32.size)
    (hchain : own → ∀ chain, l.frame.chain? = some chain →
      ∃ n, chain.Within n ∧ n + H.signals < UInt32.size) :
    (submit (Receipted.backend b) k H).Leaves l (fun _ => l.Submitted own k H true)
      fun stop l' => l.Submitted own k H false l' ∨
        l.Submitted own k H true l' ∧ stop = .fault .addOverflow ∧ ¬ own := by
  obtain ⟨taken, f, htake, hleaves⟩ := submit_outcomes own b hnew hsignals hchain
  have hadvances := Frame.Advances.of_takeAll hsignals htake
  have hsubmitted : ∀ {accepted : Bool} {l' : Live (Receipted σ Λ) Λ},
      Handed H taken.1 accepted f l l' →
        (own → l'.frame.chain? = if accepted then l.frame.chain?.map H.settle else l.frame.chain?) →
          l.Submitted own k H accepted l' := by
    intro accepted l' handed hsettled
    refine ⟨?_, ?_, ⟨taken.1, handed.receipt⟩, hsettled⟩
    · rw [handed.rest, hadvances.rest]
      rfl
    · rw [handed.rest]
      exact hadvances.complete
  apply hleaves.mono
  · exact fun _ l' h => hsubmitted h.1 h.2
  · intro stop l' h
    rcases h with ⟨handed, hchain, -⟩ | ⟨handed, hstop, howned⟩
    · exact .inl (hsubmitted handed fun _ => hchain)
    · exact .inr ⟨hsubmitted handed fun hown => (howned hown).elim, hstop, howned⟩

/-! ## Frames that submit in order -/

/-- The handlers before the cursor, and no others, are executed; each of them is complete
and has one receipt, in their order. -/
structure InOrder (p : Plan) (l : Live (Receipted σ Λ) Λ) : Prop where
  plan : l.frame.plan = p
  le : l.frame.cursor ≤ p.handlers.length
  executed : l.frame.executed =
    (List.range p.handlers.length).map fun k => decide (k < l.frame.cursor)
  complete : ∀ H ∈ p.handlers.take l.frame.cursor, l.frame.handlerComplete H = true
  receipts : List.Forall₂ Handler.Offers (p.handlers.take l.frame.cursor) l.backend.receipts

/-- A frame that submits in order.  If nobody else signals the trackers (`own`), they have
had the signals of the handlers whose batches were accepted. -/
structure Kept (p : Plan) (own : Prop) (l : Live (Receipted σ Λ) Λ) : Prop extends
    l.InOrder p where
  chain : own → l.frame.chain? = p.chain?.map (Handler.settleAll
    (Handler.acceptedOf (p.handlers.take l.frame.cursor) l.backend.receipts))

theorem InOrder.handlerExecuted (h : l.InOrder p) (hH : p.handlers[k]? = some H) :
    l.frame.handlerExecuted k = decide (k < l.frame.cursor) := by
  rw [Frame.handlerExecuted, h.executed, List.getElem?_map,
    List.getElem?_range (List.getElem?_eq_some_iff.1 hH).1, Option.map_some, Option.getD_some]

/-- When all handlers are executed the cursor is behind the last one. -/
theorem InOrder.cursor_eq (h : l.InOrder p)
    (hall : l.frame.executed = p.handlers.map fun _ => true) :
    l.frame.cursor = p.handlers.length := by
  refine Nat.le_antisymm h.le (Nat.le_of_not_lt fun hlt => ?_)
  have hget := List.getElem?_eq_getElem hlt
  have hexecuted := h.handlerExecuted hget
  rw [decide_eq_false (Nat.lt_irrefl _), Frame.handlerExecuted, hall, List.getElem?_map,
    hget] at hexecuted
  cases hexecuted

/-- All handlers that may have retired just when the one at the cursor is not complete. -/
theorem InOrder.caughtUp_iff (h : l.InOrder p) : l.frame.CaughtUp ↔
    ∀ H, p.handlers[l.frame.cursor]? = some H → l.frame.handlerComplete H = false := by
  have hsplit : p.handlers.takeWhile l.frame.handlerComplete =
      p.handlers.take l.frame.cursor ++
        (p.handlers.drop l.frame.cursor).takeWhile l.frame.handlerComplete := by
    rw [← List.takeWhile_append_of_pos h.complete, List.take_append_drop]
  rw [Frame.CaughtUp, h.plan, hsplit, List.self_eq_append_right, ← List.head?_drop]
  cases p.handlers.drop l.frame.cursor with
  | nil => simp
  | cons H hs => simp [List.takeWhile_cons]

/-- The handler at the cursor has not submitted when it retires. -/
theorem InOrder.not_executed (h : l.InOrder p) (hH : p.handlers[l.frame.cursor]? = some H) :
    (l.frame.retired l.frame.cursor).handlerExecuted l.frame.cursor = false := by
  show l.frame.handlerExecuted l.frame.cursor = false
  rw [h.handlerExecuted hH, decide_eq_false (Nat.lt_irrefl _)]

/-- The handler at the cursor has submitted, with whatever outcome. -/
theorem Kept.of_submitted (h : l.Kept p own) (hH : p.handlers[l.frame.cursor]? = some H)
    (hcomplete : l.frame.handlerComplete H = true) {accepted : Bool}
    (hs : Submitted own l.frame.cursor H accepted
      { l with frame := l.frame.retired l.frame.cursor } l') : l'.Kept p own := by
  obtain ⟨lists, hreceipt⟩ := hs.receipt
  obtain ⟨hlt, hget⟩ := List.getElem?_eq_some_iff.1 hH
  have hcursor : l'.frame.cursor = l.frame.cursor + 1 := by
    rw [hs.rest]
    rfl
  have htake : p.handlers.take l'.frame.cursor = p.handlers.take l.frame.cursor ++ [H] := by
    rw [hcursor, List.take_succ_eq_append_getElem hlt, hget]
  have hkeeps : ∀ H', l.frame.handlerComplete H' = true → l'.frame.handlerComplete H' = true :=
    fun H' hH' => List.all_eq_true.2 fun G hG => hs.complete G (List.all_eq_true.1 hH' G hG)
  refine { plan := ?_, le := ?_, executed := ?_, complete := ?_, receipts := ?_, chain := ?_ }
  · rw [hs.rest]
    exact h.plan
  · rw [hcursor]
    exact hlt
  · rw [hs.rest]
    simp only [Frame.retired, h.executed]
    apply List.ext_getElem (by simp)
    intro k hk _
    simp only [List.getElem_set, List.getElem_map, List.getElem_range]
    split
    · rename_i hkc
      simp [hkc]
    · rename_i hkc
      exact decide_eq_decide.2 (by omega)
  · rw [htake]
    exact forall_mem_concat.2 ⟨fun H' hH' => hkeeps H' (h.complete H' hH'), hkeeps H hcomplete⟩
  · rw [htake, hreceipt]
    exact List.rel_append h.receipts (.cons ⟨lists, rfl⟩ .nil)
  · intro howned
    have hlength := h.receipts.length_eq
    rw [htake, hreceipt, hs.chain howned]
    simp only [Frame.retired, h.chain howned, Handler.acceptedOf, List.zip_append hlength]
    cases accepted with
    | false => simp
    | true =>
      simp only [if_true, Option.map_map]
      congr 1
      funext chain
      simp [Handler.settleAll]

/-! ## Retirement -/

/-- Since the receipts `rs`, a batch has been refused, or a call has ended because
somebody else's signals left no room in a tracker. -/
def Spoilt (own : Prop) (rs : List (Receipt Λ)) (stop : Stop) (l : Live (Receipted σ Λ) Λ) :
    Prop :=
  (∃ added, l.backend.receipts = rs ++ added ∧ ∃ r ∈ added, r.accepted = false) ∨
    stop = .fault .addOverflow ∧ ¬ own

/-- A frame that submits in order has added to the receipts `rs`, and has caught up if
`q` holds. -/
structure Carries (p : Plan) (own : Prop) (rs : List (Receipt Λ)) (q : Prop)
    (l : Live (Receipted σ Λ) Λ) : Prop extends l.Kept p own where
  earlier : rs <+: l.backend.receipts
  caught : q → l.frame.CaughtUp

/-- What a step leaves of `Carries`: where it stops it may be spoilt. -/
def LeavesCarried (p : Plan) (own : Prop) (rs : List (Receipt Λ)) (q : Prop) {α : Type}
    (x : Step (Live (Receipted σ Λ) Λ) α) (l : Live (Receipted σ Λ) Λ) : Prop :=
  x.Leaves l (fun _ => Carries p own rs q) fun stop l' =>
    l'.Carries p own rs (q ∧ ¬ l'.Spoilt own rs stop)

theorem Carries.imp {q' : Prop} (h : l.Carries p own rs q) (hq : q' → q) :
    l.Carries p own rs q' :=
  { h with caught := fun hq' => h.caught (hq hq') }

/-- The handler at the cursor retires when it is complete. -/
theorem Kept.retireOne (h : l.Kept p own) (formed : p.Formed) (b : Backend σ Λ)
    (hrs : rs <+: l.backend.receipts) (hH : p.handlers[l.frame.cursor]? = some H)
    (hcomplete : l.frame.handlerComplete H = true) :
    (do onFrame (Step.modify (Frame.retired l.frame.cursor))
        submit (Receipted.backend b) l.frame.cursor H).Leaves l
      (fun _ l' => l'.Kept p own ∧ rs <+: l'.backend.receipts ∧
        l'.frame.cursor = l.frame.cursor + 1)
      fun stop l' => l'.Carries p own rs (¬ l'.Spoilt own rs stop) := by
  have hsub := Handler.acceptedOf_sublist h.receipts.length_eq
  have hgrown : ∀ {accepted : Bool} {l' : Live (Receipted σ Λ) Λ},
      Submitted own l.frame.cursor H accepted
          { l with frame := l.frame.retired l.frame.cursor } l' →
        rs <+: l'.backend.receipts := by
    intro accepted l' hs
    obtain ⟨lists, hreceipt⟩ := hs.receipt
    rw [hreceipt]
    exact hrs.trans (List.prefix_append _ _)
  have hsubmit := submit_leaves (H := H)
    (l := { l with frame := l.frame.retired l.frame.cursor }) own b (h.not_executed hH)
    (formed.signals_lt hH) fun howned chain hchain =>
      formed.exists_within hsub hH chain ((h.chain howned).symm.trans hchain)
  rw [Step.leaves_bind, onFrame, Step.leaves_zoom, Step.leaves_modify]
  apply hsubmit.mono
  · intro _ l' hs
    refine ⟨h.of_submitted hH hcomplete hs, hgrown hs, ?_⟩
    rw [hs.rest]
    rfl
  · intro stop l' hstop
    rcases hstop with hs | ⟨hs, hoverflow, howned⟩
    · refine { h.of_submitted hH hcomplete hs with
        earlier := hgrown hs, caught := fun hspoilt => (hspoilt (.inl ?_)).elim }
      obtain ⟨lists, hreceipt⟩ := hs.receipt
      obtain ⟨added, hadded⟩ := hrs
      refine ⟨added ++ [⟨H.batch lists, false⟩], ?_, _, List.mem_append_right _ (.head _), rfl⟩
      rw [hreceipt, ← List.append_assoc, hadded]
    · exact { h.of_submitted hH hcomplete hs with
        earlier := hgrown hs, caught := fun hspoilt => (hspoilt (.inr ⟨hoverflow, howned⟩)).elim }

/-- Handlers retire from the cursor on, until one is not complete. -/
theorem retireFrom_leaves {b : Backend σ Λ} {l : Live σ Λ} (inv : Live σ Λ → Prop)
    {post : Live σ Λ → Prop} {halt : Stop → Live σ Λ → Prop}
    (hone : ∀ {l : Live σ Λ} {H : Handler}, inv l → p.handlers[l.frame.cursor]? = some H →
      l.frame.handlerComplete H = true →
        (do onFrame (Step.modify (Frame.retired l.frame.cursor))
            submit b l.frame.cursor H).Leaves l
          (fun _ l' => inv l' ∧ l'.frame.cursor = l.frame.cursor + 1) halt)
    (hend : ∀ {l : Live σ Λ}, inv l → (∀ H, p.handlers[l.frame.cursor]? = some H →
      l.frame.handlerComplete H = false) → post l)
    (hl : inv l) {hs : List Handler} (hhs : p.handlers.drop l.frame.cursor = hs) :
    (retireFrom b l.frame.cursor hs).Leaves l (fun _ => post) halt := by
  induction hs generalizing l with
  | nil =>
    refine Step.leaves_pure.2 (hend hl fun H hH => ?_)
    rw [List.getElem?_eq_none (List.drop_eq_nil_iff.1 hhs)] at hH
    cases hH
  | cons H hs ih =>
    obtain ⟨hH, hrest⟩ := of_drop_eq_cons hhs
    unfold retireFrom
    rw [Step.leaves_bind, Step.leaves_read]
    by_cases hcomplete : l.frame.handlerComplete H = true
    · rw [if_pos hcomplete, ← bind_assoc, Step.leaves_bind]
      refine (hone hl hH hcomplete).mono (fun _ l' hl' => ?_) fun _ _ hstop => hstop
      obtain ⟨hl', hcursor⟩ := hl'
      rw [← hcursor] at hrest ⊢
      exact ih hl' hrest
    · rw [if_neg hcomplete]
      refine Step.leaves_pure.2 (hend hl fun H' hH' => ?_)
      obtain rfl : H = H' := Option.some_inj.1 (hH.symm.trans hH')
      exact Bool.eq_false_iff.2 hcomplete

/-- **Retirement catches up**, unless a submission is refused. -/
theorem Kept.retireFrom (h : l.Kept p own) (formed : p.Formed) (b : Backend σ Λ)
    (hrs : rs <+: l.backend.receipts) {hs : List Handler}
    (hhs : p.handlers.drop l.frame.cursor = hs) :
    LeavesCarried p own rs True (retireFrom (Receipted.backend b) l.frame.cursor hs) l := by
  refine retireFrom_leaves (fun l => l.Kept p own ∧ rs <+: l.backend.receipts) ?_ ?_ ⟨h, hrs⟩ hhs
  · intro l H hl hH hcomplete
    apply (hl.1.retireOne formed b hl.2 hH hcomplete).mono
    · intro _ l' hl'
      obtain ⟨hkept, hrs', hcursor⟩ := hl'
      exact ⟨⟨hkept, hrs'⟩, hcursor⟩
    · exact fun stop l' hl' => hl'.imp And.right
  · intro l hl hwaiting
    exact { hl.1 with earlier := hl.2, caught := fun _ => hl.1.caughtUp_iff.2 hwaiting }

/-! ## Requests -/

/-- Where a group asks for execution, its handler is looked at. -/
theorem leaves_executeGroup {b : Backend σ Λ} {l : Live σ Λ} (formed : l.frame.plan.Formed)
    {position : Nat} (hG : l.frame.plan.groups[k]? = some G)
    (hH : l.frame.plan.handlers[position]? = some H) (hmem : G ∈ H.groups)
    {post : Unit → Live σ Λ → Prop} {halt : Stop → Live σ Λ → Prop} :
    (executeGroup b k).Leaves l post halt ↔
      if l.frame.handlerExecuted position || !l.frame.handlerComplete H then post () l
      else (retire b).Leaves l post halt := by
  obtain ⟨position', H', hposition, hH', hid⟩ :=
    formed.exists_handlerIndex (List.mem_of_getElem? hG)
  have hnumbered := formed.numbered (List.mem_of_getElem? hH) G hmem
  obtain rfl : position' = position := formed.eq_of_id_eq hH' hH (hid.trans hnumbered)
  unfold executeGroup Live.group
  simp only [Step.leaves_bind, Step.leaves_read, hG, Step.leaves_pure, hposition, hH,
    Option.any_some]
  split
  · exact Iff.rfl
  · exact Iff.rfl

/-- A request to execute a group is refused, has no effect, or makes handlers retire. -/
theorem executeGroup_leaves {b : Backend σ Λ} {l : Live σ Λ} {post : Live σ Λ → Prop}
    {halt : Stop → Live σ Λ → Prop} (formed : l.frame.plan.Formed) (hl : post l)
    (hrefuse : ∀ e, halt (.error e) l) (hretire : (retire b).Leaves l (fun _ => post) halt)
    (k : Nat) : (executeGroup b k).Leaves l (fun _ => post) halt := by
  cases hG : l.frame.plan.groups[k]? with
  | none =>
    unfold executeGroup group
    simp only [Step.leaves_bind, Step.leaves_read, hG, Step.leaves_fail]
    exact hrefuse _
  | some G =>
    obtain ⟨position, H, hH, hmem⟩ := formed.exists_handler (List.mem_of_getElem? hG)
    rw [leaves_executeGroup formed hG hH hmem]
    split
    · exact hl
    · exact hretire

/-- A request comes down to the tasks that it goes through, or to the execution of a group. -/
theorem serve_leaves {b : Backend σ Λ} {l : Live σ Λ} {inv : Live σ Λ → Prop}
    {halt : Stop → Live σ Λ → Prop} (hl : inv l) (hrefuse : ∀ e, halt (.error e) l)
    (hmark : inv { l with frame := l.frame.markRecorded })
    (htask : ∀ {l' : Live σ Λ} {t : Task}, inv l' → t.1 ∈ l.frame.plan.groups →
      (recordTask b t).Leaves l' (fun _ => inv) halt)
    (hexecute : ∀ k, (executeGroup b k).Leaves l (fun _ => inv) halt)
    (policy : SchedulePolicy) (r : Request) :
    (serve b policy r).Leaves l (fun _ => inv) halt := by
  have htasks : ∀ {l' : Live σ Λ} {ts : List Task}, inv l' →
      (∀ t ∈ ts, t.1 ∈ l.frame.plan.groups) →
        (Step.forEach (recordTask b) ts).Leaves l' (fun _ => inv) halt :=
    fun hl' hts => Step.Leaves.forEach (fun t ht _ hl => htask hl (hts t ht)) hl'
  cases r with
  | record =>
    simp only [serve, record, Step.leaves_bind, Step.leaves_read, Step.leaves_failIf,
      onFrame, Step.leaves_zoom, Step.leaves_modify, Step.leaves_onlyIf, Step.leaves_note]
    have hall : ∀ t ∈ l.frame.plan.tasks, t.1 ∈ l.frame.plan.groups :=
      fun t ht => (Plan.mem_tasks.1 ht).1
    exact ⟨fun _ => hrefuse _, fun _ => ⟨fun _ => htasks hmark hall, fun _ => htasks hmark hall⟩⟩
  | recordList index list =>
    simp only [serve, group, Step.leaves_bind, Step.leaves_read]
    cases hG : l.frame.plan.groups[index]? with
    | none => exact hrefuse _
    | some G => exact htask hl (List.mem_of_getElem? hG)
  | recordGroup index =>
    simp only [serve, recordGroup, group, Step.leaves_discard, Step.leaves_bind,
      Step.leaves_read]
    cases hG : l.frame.plan.groups[index]? with
    | none => exact hrefuse _
    | some G =>
      refine htasks hl fun t ht => ?_
      obtain ⟨i, -, rfl⟩ := List.mem_map.1 ht
      exact List.mem_of_getElem? hG
  | executeGroup index => exact hexecute index

theorem Kept.retire (h : l.Kept p own) (formed : p.Formed) (b : Backend σ Λ)
    (hrs : rs <+: l.backend.receipts) :
    LeavesCarried p own rs True (retire (Receipted.backend b)) l := by
  obtain rfl := h.plan
  unfold LeavesCarried Live.retire
  rw [Step.leaves_bind, Step.leaves_read]
  exact h.retireFrom formed b hrs rfl

/-- A request to execute a group ends with the frame as far as it may be, if it was so
before. -/
theorem Carries.executeGroup (h : l.Carries p own rs q) (formed : p.Formed) (b : Backend σ Λ)
    (k : Nat) : LeavesCarried p own rs q (executeGroup (Receipted.backend b) k) l := by
  refine executeGroup_leaves (h.plan ▸ formed) h (fun _ => h.imp And.left) ?_ k
  exact (h.retire formed b h.earlier).mono (fun _ _ hl => hl.imp fun _ => trivial)
    fun _ _ hl => hl.imp fun hq => ⟨trivial, hq.2⟩

/-- A call that is passed on to the backend changes nothing of it. -/
theorem Carries.pass {α : Type} (h : l.Carries p own rs q) (x : Step σ α) :
    LeavesCarried p own rs q (onBackend (Receipted.pass x)) l := by
  have hsame : ∀ r : Receipted σ Λ, r.receipts = l.backend.receipts →
      Carries p own rs q { l with backend := r } := by
    intro r hr
    exact { h with
      receipts := by rw [hr]; exact h.receipts
      chain := by rw [hr]; exact h.chain
      earlier := by rw [hr]; exact h.earlier }
  unfold LeavesCarried onBackend
  rw [Step.leaves_zoom]
  exact (Receipted.pass_leaves x).mono (fun _ r hr => hsame r hr)
    fun _ r hr => (hsame r hr).imp And.left

theorem Carries.recordScopes (h : l.Carries p own rs q) (b : Backend σ Λ) (i : Nat) (list : Λ)
    (ss : List PlacedScope) :
    LeavesCarried p own rs q (recordScopes (Receipted.backend b) G i list ss) l := by
  exact recordScopes_keeps (fun _ list job hl => hl.pass (b.recordScope list job)) h G i list ss

theorem Kept.advances (h : l.Kept p own) {f : Frame Λ} (hf : l.frame.Advances f) :
    Kept p own { l with frame := f } := by
  rcases hf with ⟨hrest, hcomplete⟩
  have hkeeps : ∀ H, l.frame.handlerComplete H = true → f.handlerComplete H = true :=
    fun H hH => Frame.Advances.handlerComplete ⟨hrest, hcomplete⟩ hH
  generalize f.progress = progress at hrest
  subst hrest
  exact { h with complete := fun H hH => hkeeps H (h.complete H hH) }

/-- After a list has been stored only its own group can have become complete, so its
handler is the only one that may retire now. -/
theorem Carries.stored (h : l.Carries p own rs q) (formed : p.Formed) (b : Backend σ Λ)
    (hG : G ∈ p.groups) {last : Bool} {f : Frame Λ} (hf : l.frame.Advances f)
    (hlast : ∀ G', f.groupComplete G' = true →
      l.frame.groupComplete G' = true ∨ last = true ∧ G'.index = G.index) :
    LeavesCarried p own rs q
      (if last then Live.executeGroup (Receipted.backend b) G.index else pure ())
      { l with frame := f } := by
  have hkept := h.advances hf
  have hplan : f.plan = p := hkept.plan
  have hcursor : f.cursor = l.frame.cursor := by rw [hf.rest]
  -- a handler at the cursor that has become complete has the group
  have hown : q → ∀ H, p.handlers[f.cursor]? = some H → f.handlerComplete H = true →
      last = true ∧ G ∈ H.groups := by
    intro hq H hH hcomplete
    rw [hcursor] at hH
    have hold := h.caughtUp_iff.1 (h.caught hq) H hH
    obtain ⟨G', hG', hwaiting⟩ := List.all_eq_false.1 hold
    rcases hlast G' (List.all_eq_true.1 hcomplete G' hG') with hdone | ⟨htrue, hindex⟩
    · exact (hwaiting hdone).elim
    · have hmem := formed.mem_groups (List.mem_of_getElem? hH) hG'
      obtain rfl := formed.eq_of_index_eq hmem hG hindex
      exact ⟨htrue, hG'⟩
  have hcarries : (∀ H, p.handlers[f.cursor]? = some H → f.handlerComplete H = true →
      last = true ∧ G ∈ H.groups → False) → Carries p own rs q { l with frame := f } := by
    intro hnone
    refine { hkept with earlier := h.earlier, caught := fun hq => hkept.caughtUp_iff.2 ?_ }
    intro H hH
    exact Bool.eq_false_iff.2 fun hcomplete => hnone H hH hcomplete (hown hq H hH hcomplete)
  cases last with
  | false => exact hcarries fun _ _ _ hfalse => Bool.false_ne_true hfalse.1
  | true =>
    obtain ⟨position, H, hH, hmem⟩ := formed.exists_handler hG
    have hget := formed.getElem?_index hG
    rw [if_pos rfl, LeavesCarried, leaves_executeGroup (l := { l with frame := f })
      (by rw [hplan]; exact formed) (by rw [hplan]; exact hget) (by rw [hplan]; exact hH) hmem]
    split
    · rename_i hskip
      refine hcarries fun H' hH' hcomplete hG' => ?_
      have hid := (formed.numbered (List.mem_of_getElem? hH') G hG'.2).symm.trans
        (formed.numbered (List.mem_of_getElem? hH) G hmem)
      obtain rfl := formed.eq_of_id_eq hH' hH hid
      rw [hH', Option.some_inj] at hH
      subst hH
      have hexecuted := hkept.handlerExecuted hH'
      rw [decide_eq_false (Nat.lt_irrefl _)] at hexecuted
      simp [hexecuted, hcomplete] at hskip
    · exact (hkept.retire formed b h.earlier).mono (fun _ _ hl => hl.imp fun _ => trivial)
        fun _ _ hl => hl.imp fun hq => ⟨trivial, hq.2⟩

/-- **A task**, whatever it ends in, leaves the frame as far as it may be. -/
theorem Carries.recordTask (h : l.Carries p own rs q) (formed : p.Formed) (b : Backend σ Λ)
    {t : Task} (hG : t.1 ∈ p.groups) :
    LeavesCarried p own rs q (recordTask (Receipted.backend b) t) l := by
  unfold LeavesCarried Live.recordTask recordList
  simp only [Step.leaves_bind, Step.leaves_abortIf]
  refine ⟨fun _ => h.imp And.left, fun _ => ?_⟩
  refine (h.pass (b.beginList (t.1.spec t.2))).mono (fun list l₁ h₁ => ?_) fun _ _ hl => hl
  refine (h₁.recordScopes b t.2 list t.1.members).mono (fun list l₂ h₂ => ?_) fun _ _ hl => hl
  rw [onFrame, Step.leaves_zoom]
  refine (Frame.store_leaves t.1 t.2 list).mono (fun last f hf => ?_) fun _ f hf => ?_
  · exact h₂.stored formed b hG hf.1 hf.2
  · rcases hf with ⟨rfl, -⟩
    exact h₂.imp And.left

/-- **A request**, whatever it ends in, leaves the frame as far as it may be. -/
theorem Carries.serve (h : l.Carries p own rs q) (formed : p.Formed) (b : Backend σ Λ)
    (policy : SchedulePolicy) (r : Request) :
    LeavesCarried p own rs q (serve (Receipted.backend b) policy r) l := by
  have hmarked : Carries p own rs q { l with frame := l.frame.markRecorded } := { h with }
  refine serve_leaves h (fun _ => h.imp And.left) hmarked (fun hl ht => ?_) (fun k => ?_) policy r
  · exact hl.recordTask formed b (h.plan ▸ ht)
  · exact h.executeGroup formed b k

end Live

end FrameSchedule
