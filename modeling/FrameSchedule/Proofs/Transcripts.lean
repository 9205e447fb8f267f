import FrameSchedule.Backend.Traced
import FrameSchedule.Proofs.Submissions

/-!
# The calls of a recording

What a recording asks of the backend is said over another wrapped backend, which writes down
each call and what it stopped with (`Transcribed`).

A plan has one sequence of calls (`Plan.calls`): the handlers in order, of each handler the
lists of its groups in order, each list begun and its scopes recorded, and then the batch of
the handler.  A recording makes these calls up to the first that stops, whatever the backend
refuses, and ends as that call did (`Scheduler.record_plays`).  Only if somebody else has
signalled the trackers can it also end behind a batch that was accepted, at a tracker without
room for its signals (`Scheduler.record_not_played_disturbed`).
-/

namespace FrameSchedule

variable {σ Λ α β : Type}

/-! ## The wrapper -/

/-- The batch without its command lists: what they were recorded for is kept. -/
def Batch.outline (batch : Batch Λ) : Batch Unit :=
  { batch with lists := batch.lists.map fun list => { list with native := () } }

/-- A call to a backend, and what it stopped with if it did. -/
structure Attempt where
  call : Call Unit
  stop? : Option Stop := none
  deriving DecidableEq

/-- A call that has returned. -/
def Attempt.passed (call : Call Unit) : Attempt :=
  { call := call }

/-- A backend's state with the calls so far, oldest first. -/
structure Transcribed (σ : Type) where
  inner : σ
  attempts : List Attempt := []
  deriving DecidableEq

/-- The stop of a result. -/
def Stop.of? : Except Stop α → Option Stop
  | .ok _ => none
  | .error stop => some stop

namespace Transcribed

/-- Pass a call on, and write down what came of it. -/
def pass (call : Call Unit) (x : Step σ α) : Step (Transcribed σ) α := fun r =>
  ⟨⟨(x.run r.inner).state, r.attempts ++ [⟨call, Stop.of? (x.run r.inner).result⟩]⟩,
    (x.run r.inner).journal, (x.run r.inner).result⟩

/-- The backend that writes down its calls and what came of them. -/
def backend (b : Backend σ Λ) : Backend (Transcribed σ) Λ where
  name := b.name
  beginList spec := pass (.beginList spec) (b.beginList spec)
  recordScope list job := pass (.recordScope job) (b.recordScope list job)
  submit batch := pass (.submit batch.outline) (b.submit batch)

theorem run_pass (call : Call Unit) (x : Step σ α) (r : Transcribed σ) :
    (pass call x).run r = ⟨⟨(x.run r.inner).state,
      r.attempts ++ [⟨call, Stop.of? (x.run r.inner).result⟩]⟩, (x.run r.inner).journal,
        (x.run r.inner).result⟩ := rfl

/-- A call is one attempt, and ends as the backend does. -/
theorem pass_leaves {r : Transcribed σ} (call : Call Unit) (x : Step σ α) :
    (pass call x).Leaves r (fun _ r' => r'.attempts = r.attempts ++ [.passed call])
      fun stop r' => r'.attempts = r.attempts ++ [⟨call, some stop⟩] := by
  unfold Step.Leaves
  rw [run_pass]
  cases (x.run r.inner).result with
  | ok _ => rfl
  | error stop => rfl

end Transcribed

/-! ## The calls of a plan -/

/-- The calls for list `i` of a group. -/
def Group.calls (G : Group) (i : Nat) : List (Call Unit) :=
  .beginList (G.spec i) :: G.members.map fun s => .recordScope (G.recordJob i s)

namespace Handler

/-- The batch of a handler, with a list for each slot of its groups. -/
def outline (H : Handler) : Batch Unit :=
  H.batch ((slots H.groups).map fun slot => slot.1.1.recorded slot.1.2 ())

/-- The calls for a handler: its lists, group by group, and then its batch. -/
def calls (H : Handler) : List (Call Unit) :=
  (H.groups.flatMap fun G => (List.range G.lists.toNat).flatMap G.calls) ++ [.submit H.outline]

/-- The lists of a handler, group by group. -/
def tasks (H : Handler) : List Task :=
  H.groups.flatMap Group.tasks

end Handler

/-- The calls for a plan, handler by handler. -/
def Plan.calls (p : Plan) : List (Call Unit) :=
  p.handlers.flatMap Handler.calls

/-! ## Calls that are cut off -/

/-- The calls have been made in order and have returned, up to one of them, which is the last
made and satisfies `last`. -/
def CutOff (last : Attempt → Prop) (calls : List (Call Unit)) (attempts : List Attempt) : Prop :=
  ∃ made a rest, calls = made ++ a.call :: rest ∧ attempts = made.map .passed ++ [a] ∧ last a

/-- All calls have been made and have returned, or they were cut off behind the first that
did not, and the result is its stop. -/
def Played (calls : List (Call Unit)) (attempts : List Attempt) : Except Stop Unit → Prop
  | .ok _ => attempts = calls.map .passed
  | .error stop => CutOff (·.stop? = some stop) calls attempts

/-- The attempt is the reason for a stop: it has stopped so itself, or it has handed over a
batch whose signals somebody else's have left no room for. -/
def Attempt.Explains (own : Prop) (stop : Stop) (a : Attempt) : Prop :=
  a.stop? = some stop ∨
    stop = .fault .addOverflow ∧ ¬ own ∧ ∃ batch, a = .passed (.submit batch)

namespace CutOff

variable {last : Attempt → Prop} {calls : List (Call Unit)} {attempts : List Attempt}

theorem single {a : Attempt} (h : last a) : CutOff last [a.call] [a] :=
  ⟨[], a, [], rfl, rfl, h⟩

/-- Calls that would have come later make no difference. -/
theorem append (h : CutOff last calls attempts) (more : List (Call Unit)) :
    CutOff last (calls ++ more) attempts := by
  obtain ⟨made, a, rest, rfl, hattempts, ha⟩ := h
  exact ⟨made, a, rest ++ more, by simp, hattempts, ha⟩

/-- Calls before that have returned come first. -/
theorem prepend (h : CutOff last calls attempts) (before : List (Call Unit)) :
    CutOff last (before ++ calls) (before.map .passed ++ attempts) := by
  obtain ⟨made, a, rest, rfl, rfl, ha⟩ := h
  exact ⟨before ++ made, a, rest, by simp, by simp, ha⟩

end CutOff

/-- A stop of which no call is the reason. -/
theorem not_played {calls : List (Call Unit)} {attempts : List Attempt}
    (h : ∀ a ∈ attempts, a.stop? = none) (stop : Stop) : ¬ Played calls attempts (.error stop) := by
  intro hplayed
  obtain ⟨made, a, rest, -, rfl, hstop⟩ := hplayed
  have hnone := h a (List.mem_append_right _ (List.mem_singleton_self a))
  rw [hstop] at hnone
  cases hnone

namespace Live

variable {own : Prop} {l : Live (Transcribed σ) Λ} {calls : List (Call Unit)}

/-- The step makes calls, in order and up to the first that stops, and leaves `post` if all
of them return. -/
def Makes (own : Prop) (calls : List (Call Unit)) (x : Step (Live (Transcribed σ) Λ) α)
    (l : Live (Transcribed σ) Λ) (post : α → Live (Transcribed σ) Λ → Prop) : Prop :=
  x.Leaves l
    (fun a l' => l'.backend.attempts = l.backend.attempts ++ calls.map .passed ∧ post a l')
    fun stop l' => ∃ attempts, l'.backend.attempts = l.backend.attempts ++ attempts ∧
      CutOff (Attempt.Explains own stop) calls attempts

namespace Makes

variable {x : Step (Live (Transcribed σ) Λ) α} {post : α → Live (Transcribed σ) Λ → Prop}

/-- Calls are made one after the other. -/
theorem bind {more : List (Call Unit)} {f : α → Step (Live (Transcribed σ) Λ) β}
    {post' : β → Live (Transcribed σ) Λ → Prop} (h : Makes own calls x l post)
    (hnext : ∀ a l', post a l' → Makes own more (f a) l' post') :
    Makes own (calls ++ more) (x >>= f) l post' := by
  unfold Makes at h ⊢
  rw [Step.leaves_bind]
  apply h.mono
  · intro a l' h'
    obtain ⟨hattempts, ha⟩ := h'
    apply Step.Leaves.mono (hnext a l' ha)
    · intro c l'' h''
      rw [hattempts] at h''
      exact ⟨by rw [h''.1, List.map_append, List.append_assoc], h''.2⟩
    · intro stop l'' h''
      obtain ⟨attempts, hmore, hcut⟩ := h''
      exact ⟨_, by rw [hmore, hattempts, List.append_assoc], hcut.prepend calls⟩
  · intro stop l' h'
    obtain ⟨attempts, hattempts, hcut⟩ := h'
    exact ⟨attempts, hattempts, hcut.append more⟩

/-- A step that is sure to return and leaves the backend alone makes no calls. -/
theorem of_ensures (h : x.Ensures l fun a l' => l'.backend = l.backend ∧ post a l') :
    Makes own [] x l post := by
  refine Step.leaves_of_ensures (h.mono fun a l' h' => ?_)
  exact ⟨by rw [h'.1, List.map_nil, List.append_nil], h'.2⟩

theorem pure {a : α} (h : post a l) : Makes own [] (Pure.pure a) l post :=
  of_ensures (Step.ensures_pure.2 ⟨rfl, h⟩)

theorem read_bind {f : Live (Transcribed σ) Λ → Step (Live (Transcribed σ) Λ) α}
    (h : Makes own calls (f l) l post) : Makes own calls (Step.read >>= f) l post := by
  unfold Makes at h ⊢
  rwa [Step.leaves_bind, Step.leaves_read]

/-- A step of the frame alone makes no calls. -/
theorem onFrame {y : Step (Frame Λ) α} {post : α → Frame Λ → Prop} (h : y.Ensures l.frame post) :
    Makes own [] (Live.onFrame y) l fun a l' => post a l'.frame := by
  refine of_ensures ?_
  rw [Live.onFrame, Step.ensures_zoom]
  exact h.mono fun _ _ hf => ⟨rfl, hf⟩

/-- A call to the backend leaves the frame alone. -/
theorem pass (call : Call Unit) (y : Step σ α) :
    Makes own [call] (onBackend (Transcribed.pass call y)) l fun _ l' => l'.frame = l.frame := by
  unfold Makes onBackend
  rw [Step.leaves_zoom]
  apply (Transcribed.pass_leaves call y).mono
  · exact fun _ _ hr => ⟨hr, rfl⟩
  · exact fun stop _ hr => ⟨_, hr, CutOff.single (a := ⟨call, some stop⟩) (.inl rfl)⟩

end Makes

variable {b : Backend σ Λ} {p : Plan} {G : Group} {H : Handler} {i c : Nat} {done : List Task}

/-- The scopes of a list are recorded in order. -/
theorem recordScopes_makes (G : Group) (i : Nat) (list : Λ) (ss : List PlacedScope) :
    Makes own (ss.map fun s => .recordScope (G.recordJob i s))
      (recordScopes (Transcribed.backend b) G i list ss) l fun _ l' => l'.frame = l.frame := by
  induction ss generalizing l list with
  | nil => exact .pure rfl
  | cons s ss ih =>
    refine (Makes.pass _ _).bind fun list' l' hl' => ?_
    rw [← hl']
    exact ih list'

/-- A list is begun and recorded, and then stored. -/
theorem recordList_makes (hi : i < G.lists.toNat) {post : Bool → Frame Λ → Prop}
    (hstore : ∀ list, (Frame.store G i list).Ensures l.frame post) :
    Makes own (G.calls i) (recordList (Transcribed.backend b) G i) l
      fun last l' => post last l'.frame := by
  unfold recordList Group.calls
  rw [Step.abortIf, decide_eq_false (Nat.not_le.2 hi)]
  refine (Makes.pass _ _).bind fun list₁ l₁ h₁ => ?_
  have hscopes : Makes own (G.members.map fun s => .recordScope (G.recordJob i s))
      (recordScopes (Transcribed.backend b) G i list₁ G.members) l₁ fun _ l' =>
        l'.frame = l₁.frame := recordScopes_makes G i list₁ G.members
  rw [← List.append_nil (G.members.map _)]
  refine hscopes.bind fun list₂ l₂ h₂ => ?_
  refine Makes.onFrame ?_
  rw [h₂, h₁]
  exact hstore list₂

end Live

/-! ## Slots and lists recorded -/

namespace Progress

variable {q : Progress Λ} {G : Group} {done : List Task} {i : Nat}

/-- The group has its slots and a ledger that agrees with them, and there is a list in a slot
just when it has been recorded. -/
structure Shows (G : Group) (done : List Task) (q : Progress Λ) : Prop where
  length : q.slots.length = G.lists.toNat
  counted : q.Counted
  filled : ∀ i < G.lists.toNat, q.filled i = true ↔ (G, i) ∈ done

namespace Shows

theorem blank (hne : G.lists ≠ 0) : Shows G [] (blank G.lists : Progress Λ) where
  length := List.length_replicate
  counted := blank_counted hne
  filled i hi := by simp [Progress.filled, Progress.blank, hi]

theorem complete_iff (h : q.Shows G done) :
    q.complete = true ↔ ∀ i < G.lists.toNat, (G, i) ∈ done := by
  rw [h.counted.complete, vacant_eq_zero_iff, h.length]
  exact forall₂_congr h.filled

/-- A complete group has a list in each slot. -/
theorem length_lists (h : q.Shows G done) (hall : ∀ i < G.lists.toNat, (G, i) ∈ done) :
    q.lists.length = G.lists.toNat := by
  have hfull := lists_of_vacant (h.counted.complete.1 (h.complete_iff.2 hall))
  rw [← h.length, hfull, List.length_map]

/-- A list recorded for another group makes no difference. -/
theorem other (h : q.Shows G done) {G' : Group} (hne : G ≠ G') :
    q.Shows G (done ++ [(G', i)]) where
  length := h.length
  counted := h.counted
  filled j hj := by
    rw [h.filled j hj]
    simp [hne]

variable (h : q.Shows G done) (hi : i < G.lists.toNat) (hnew : (G, i) ∉ done)

include h hi hnew

theorem fill (list : Λ) : (q.fill i list).Shows G (done ++ [(G, i)]) where
  length := by rw [Progress.fill, List.length_set, h.length]
  counted := by
    refine h.counted.fill (h.length ▸ hi) ?_ list
    exact Bool.eq_false_iff.2 fun hfilled => hnew ((h.filled i hi).1 hfilled)
  filled j hj := by
    rw [filled_fill (h.length ▸ hi), Bool.or_eq_true, decide_eq_true_iff, h.filled j hj]
    simp [or_comm, eq_comm]

/-- A list is the last to come just when all lists have been recorded with it. -/
theorem remaining_eq_one_iff (list : Λ) :
    q.remaining = 1 ↔ ∀ j < G.lists.toNat, (G, j) ∈ done ++ [(G, i)] := by
  have hopen : q.complete = false :=
    Bool.eq_false_iff.2 fun hcomplete => hnew (h.complete_iff.1 hcomplete i hi)
  rw [← (h.fill hi hnew list).complete_iff, Progress.fill, hopen, Bool.false_or,
    decide_eq_true_iff]

end Shows

end Progress

/-! ## Frames that are recorded in order -/

namespace Handler

variable {H : Handler} {done : List Task}

theorem mem_tasks {t : Task} : t ∈ H.tasks ↔ t.1 ∈ H.groups ∧ t.2 < t.1.lists.toNat :=
  Group.mem_flatMap_tasks

theorem done_iff : H.Done done ↔ ∀ t ∈ H.tasks, t ∈ done := by
  constructor
  · intro hdone t ht
    obtain ⟨hG, hi⟩ := mem_tasks.1 ht
    exact hdone t.1 hG t.2 hi
  · exact fun hall G hG i hi => hall (G, i) (mem_tasks.2 ⟨hG, hi⟩)

/-- The calls of a handler are those for its lists, and its batch. -/
theorem calls_eq (H : Handler) :
    H.calls = (H.tasks.flatMap fun t => t.1.calls t.2) ++ [.submit H.outline] := by
  rw [calls, tasks, List.flatMap_assoc]
  simp only [Group.tasks, List.flatMap_map]

end Handler

/-- The lists of a plan, handler by handler. -/
theorem Plan.Formed.flatMap_tasks {p : Plan} (h : p.Formed) :
    p.handlers.flatMap Handler.tasks = p.tasks := by
  rw [Plan.tasks, ← h.flatMap_groups, List.flatMap_assoc]
  rfl

/-- The first handlers of a plan have submitted, and of the others just the lists in `done`
have been recorded.  If nobody else signals the trackers (`own`), they have had the signals of
those handlers. -/
structure Frame.Stands (p : Plan) (own : Prop) (c : Nat) (done : List Task) (f : Frame Λ) :
    Prop where
  plan : f.plan = p
  cursor : f.cursor = c
  executed : ∀ k, c ≤ k → f.handlerExecuted k = false
  slots : ∀ (k : Nat) (H : Handler), p.handlers[k]? = some H → c ≤ k → ∀ G ∈ H.groups,
    ∃ q, f.progress[G.index]? = some q ∧ q.Shows G done
  chain : own → f.chain? = p.chain?.map (Handler.settleAll (p.handlers.take c))

namespace Frame.Stands

variable {p : Plan} {own : Prop} {c k : Nat} {done : List Task} {f : Frame Λ} {G : Group}
  {H : Handler} {i : Nat}

/-- A frame that has been opened. -/
theorem ofPlan (formed : p.Formed) (graph : Graph) (chain? : Option Chain) :
    Stands p (chain? = p.chain?) 0 []
      ({ Frame.ofPlan graph p with chain? := chain? } : Frame Λ) where
  plan := rfl
  cursor := rfl
  executed k _ := by
    rw [handlerExecuted, Frame.ofPlan, List.getElem?_map]
    cases p.handlers[k]? <;> rfl
  slots k H hH _ G hG := by
    have hmem := formed.mem_groups (List.mem_of_getElem? hH) hG
    refine ⟨.blank G.lists, ?_, .blank (formed.formed G hmem).lists⟩
    rw [Frame.ofPlan, List.getElem?_map, formed.getElem?_index hmem, Option.map_some]
  chain hown := by
    rw [List.take_zero, Handler.map_settleAll_nil]
    exact hown

theorem handlerComplete_iff (h : f.Stands p own c done) (hH : p.handlers[k]? = some H)
    (hk : c ≤ k) : f.handlerComplete H = true ↔ H.Done done := by
  rw [handlerComplete, List.all_eq_true]
  refine forall₂_congr fun G hG => ?_
  obtain ⟨q, hq, hshows⟩ := h.slots k H hH hk G hG
  rw [groupComplete_of_progress hq, hshows.complete_iff]

/-- A list of the handler at the cursor is stored; the answer is whether it was the last of
its group. -/
theorem store (h : f.Stands p own c done) (formed : p.Formed) (hH : p.handlers[c]? = some H)
    (hG : G ∈ H.groups) (hi : i < G.lists.toNat) (hnew : (G, i) ∉ done) (list : Λ) :
    (Frame.store G i list).Ensures f fun last f' => f'.Stands p own c (done ++ [(G, i)]) ∧
      (last = true ↔ ∀ j < G.lists.toNat, (G, j) ∈ done ++ [(G, i)]) := by
  have hmem := formed.mem_groups (List.mem_of_getElem? hH) hG
  obtain ⟨q, hq, hshows⟩ := h.slots c H hH (Nat.le_refl c) G hG
  have hempty : q.filled i = false :=
    Bool.eq_false_iff.2 fun hfilled => hnew ((hshows.filled i hi).1 hfilled)
  unfold Frame.store
  rw [Step.ensures_bind, Step.ensures_read, hq]
  simp only [hempty, Step.abortIf, Step.ensures_bind, Step.ensures_onlyIf_false,
    Step.ensures_modify, Step.ensures_pure]
  refine ⟨{ h with slots := fun k H' hH' hk G' hG' => ?_ }, ?_⟩
  · rw [getElem?_setProgress formed hmem (formed.mem_groups (List.mem_of_getElem? hH') hG') hq]
    split
    · rename_i hsame
      subst hsame
      exact ⟨_, rfl, hshows.fill hi hnew list⟩
    · rename_i hne
      obtain ⟨q', hq', hshows'⟩ := h.slots k H' hH' hk G' hG'
      exact ⟨q', hq', hshows'.other hne⟩
  · rw [decide_eq_true_iff, hshows.remaining_eq_one_iff hi hnew list]

/-- The batch of a complete handler has a list for each slot of its groups, and the lists of
later handlers stay where they are. -/
theorem takeAll (h : f.Stands p own c done) (formed : p.Formed) (hH : p.handlers[c]? = some H)
    (hdone : H.Done done) {f₁ f' : Frame Λ} (hf₁ : f₁.progress = f.progress)
    {taken : List (RecordedList Λ) × UInt32}
    (htake : (Frame.takeAll 0 0 H.groups).Yields f₁ taken f') :
    (H.batch taken.1).outline = H.outline ∧
      ∀ (k : Nat) (H' : Handler), p.handlers[k]? = some H' → c < k → ∀ G ∈ H'.groups,
        f'.progress[G.index]? = f.progress[G.index]? := by
  have hmem : ∀ G ∈ H.groups, G ∈ p.groups :=
    fun G hG => formed.mem_groups (List.mem_of_getElem? hH) hG
  have hslots := h.slots c H hH (Nat.le_refl c)
  rw [← hf₁] at hslots
  have : Nonempty (Progress Λ) := ⟨.blank 0⟩
  choose! slots hq hshows using hslots
  obtain ⟨hlists, -, hsame⟩ := takeAll_lists formed hmem
    (formed.nodup.sublist (formed.sublist_groups (List.mem_of_getElem? hH))) hq htake
  refine ⟨?_, fun k H' hH' hk G hG => ?_⟩
  · show H.batch (taken.1.map fun list => { list with native := () }) = H.outline
    rw [Handler.outline, Handler.slots, hlists, List.map_flatMap, List.map_flatMap]
    refine congrArg H.batch (List.flatMap_congr fun g hg => ?_)
    have hG : g.1 ∈ H.groups := List.fst_mem_of_mem_zipIdx hg
    rw [List.map_map, List.map_map]
    -- nothing is left of a list but what it was recorded for
    show (slots g.1).lists.map (fun _ => g.1.recorded g.2 ()) =
      (List.range g.1.lists.toNat).map fun _ => g.1.recorded g.2 ()
    rw [List.map_const', List.map_const', List.length_range,
      (hshows g.1 hG).length_lists (hdone g.1 hG)]
  · rw [hsame G (formed.mem_groups (List.mem_of_getElem? hH') hG) fun hown =>
      Nat.ne_of_lt hk (formed.eq_of_mem hH hH' hown hG), hf₁]

/-- The handler at the cursor has submitted. -/
theorem submitted (h : f.Stands p own c done) (hH : p.handlers[c]? = some H) {f' : Frame Λ}
    (hrest : f' = { f with
      cursor := c + 1
      executed := f.executed.set c true
      progress := f'.progress
      chain? := f'.chain? })
    (hlater : ∀ (k : Nat) (H' : Handler), p.handlers[k]? = some H' → c < k → ∀ G ∈ H'.groups,
      f'.progress[G.index]? = f.progress[G.index]?)
    (hsettled : own → f'.chain? = f.chain?.map H.settle) : f'.Stands p own (c + 1) done where
  plan := by rw [hrest, h.plan]
  cursor := by rw [hrest]
  executed k hk := by
    have hold := h.executed k (Nat.le_of_succ_le hk)
    rw [hrest, handlerExecuted, List.getElem?_set_ne (Nat.ne_of_lt hk)]
    exact hold
  slots k H' hH' hk G hG := by
    rw [hlater k H' hH' hk G hG]
    exact h.slots k H' hH' (Nat.le_of_succ_le hk) G hG
  chain hown := by
    rw [hsettled hown, h.chain hown, Handler.map_settleAll_take hH]

end Frame.Stands

/-! ## Recording in order -/

namespace Live

variable {b : Backend σ Λ} {p : Plan} {own : Prop} {c : Nat} {done : List Task}
  {l : Live (Transcribed σ) Λ} {G : Group} {H : Handler} {i : Nat}

/-- **A complete handler submits** in one call. -/
theorem submit_makes (h : l.frame.Stands p own c done) (formed : p.Formed)
    (hH : p.handlers[c]? = some H) (hdone : H.Done done) :
    Makes own [.submit H.outline] (submit (Transcribed.backend b) c H)
      { l with frame := l.frame.retired c } fun _ l' => l'.frame.Stands p own (c + 1) done := by
  obtain ⟨taken, f, htake, hleaves⟩ := submit_leaves_of (H := H) (k := c)
    (l := { l with frame := l.frame.retired c }) own (Transcribed.backend b)
    (h.executed c (Nat.le_refl c)) (formed.signals_lt hH) fun hown chain hchain =>
      formed.exists_within (List.Sublist.refl _) hH chain ((h.chain hown).symm.trans hchain)
  have hadvances := Frame.Advances.of_takeAll (formed.signals_lt hH) htake
  obtain ⟨houtline, hlater⟩ :=
    h.takeAll formed hH hdone (rfl : ((l.frame.retired c).markExecuted c).progress = _) htake
  have hpass := Transcribed.pass_leaves (r := l.backend) (.submit H.outline)
    (b.submit (H.batch taken.1))
  rw [← houtline] at hpass
  apply (hleaves hpass).mono
  · intro _ l' hl'
    rcases hl' with ⟨hattempts, hframe, hsettled⟩
    rw [houtline] at hattempts
    refine ⟨hattempts, h.submitted hH ?_ ?_ hsettled⟩
    · rw [hframe, hadvances.rest]
      rfl
    · rw [hframe]
      exact hlater
  · intro stop l' hl'
    rw [← houtline]
    rcases hl' with ⟨hattempts, -⟩ | ⟨hattempts, -, hstop, hown⟩
    · exact ⟨_, hattempts, CutOff.single (a := ⟨_, some stop⟩) (.inl rfl)⟩
    · exact ⟨_, hattempts, CutOff.single (a := .passed _) (.inr ⟨hstop, hown, _, rfl⟩)⟩

/-- As long as the handler at the cursor is not complete, nothing is submitted. -/
theorem retireFrom_waits (h : l.frame.Stands p own c done)
    (hwaits : ∀ H, p.handlers[c]? = some H → ¬ H.Done done) {hs : List Handler}
    (hhs : p.handlers.drop c = hs) :
    Makes own [] (retireFrom (Transcribed.backend b) c hs) l fun _ l' =>
      l'.frame.Stands p own c done := by
  cases hs with
  | nil => exact .pure h
  | cons H hs =>
    obtain ⟨hH, -⟩ := of_drop_eq_cons hhs
    unfold retireFrom
    refine Makes.read_bind ?_
    rw [if_neg fun hcomplete =>
      hwaits H hH ((h.handlerComplete_iff hH (Nat.le_refl c)).1 hcomplete)]
    exact .pure h

/-- The handler at the cursor retires, and the one behind it waits. -/
theorem retire_makes (h : l.frame.Stands p own c done) (formed : p.Formed)
    (hH : p.handlers[c]? = some H) (hdone : H.Done done)
    (hwaits : ∀ H', p.handlers[c + 1]? = some H' → ¬ H'.Done done) :
    Makes own [.submit H.outline] (retire (Transcribed.backend b)) l fun _ l' =>
      l'.frame.Stands p own (c + 1) done := by
  obtain ⟨hc, hget⟩ := List.getElem?_eq_some_iff.1 hH
  unfold Live.retire
  refine Makes.read_bind ?_
  dsimp only
  rw [h.plan, h.cursor, List.drop_eq_getElem_cons hc, hget]
  unfold retireFrom
  refine Makes.read_bind ?_
  rw [if_pos ((h.handlerComplete_iff hH (Nat.le_refl c)).2 hdone)]
  have hretired : Makes own [] (onFrame (Step.modify (Frame.retired c))) l fun _ l' =>
      l' = { l with frame := l.frame.retired c } := .of_ensures ⟨(), _, ⟨rfl, rfl⟩, rfl, rfl⟩
  refine hretired.bind fun _ l₁ h₁ => ?_
  subst h₁
  exact (submit_makes h formed hH hdone).bind fun _ l₂ h₂ => retireFrom_waits h₂ hwaits rfl

/-- A group that has become complete has its handler retire if that is complete. -/
theorem executeGroup_makes (h : l.frame.Stands p own c done) (formed : p.Formed)
    (hH : p.handlers[c]? = some H) (hG : G ∈ H.groups) {calls : List (Call Unit)}
    {post : Unit → Live (Transcribed σ) Λ → Prop}
    (hwaits : ¬ H.Done done → Makes own calls (pure ()) l post)
    (hretires : H.Done done → Makes own calls (retire (Transcribed.backend b)) l post) :
    Makes own calls (executeGroup (Transcribed.backend b) G.index) l post := by
  have hget := formed.getElem?_index (formed.mem_groups (List.mem_of_getElem? hH) hG)
  have hcomplete := h.handlerComplete_iff hH (Nat.le_refl c)
  have hnew := h.executed c (Nat.le_refl c)
  obtain rfl := h.plan
  unfold Makes at hwaits hretires ⊢
  rw [leaves_executeGroup formed hget hH hG, hnew, Bool.false_or]
  split
  · rename_i hopen
    refine hwaits fun hdone => ?_
    rw [hcomplete.2 hdone] at hopen
    cases hopen
  · rename_i hfull
    refine hretires (hcomplete.1 ?_)
    simpa using hfull

/-- A list is recorded and stored, and what has become complete by it is submitted. -/
theorem recordTask_makes (h : l.frame.Stands p own c done) (formed : p.Formed)
    (hH : p.handlers[c]? = some H) {t : Task} (ht : t ∈ H.tasks) (hnew : t ∉ done)
    {more : List (Call Unit)} {post : Unit → Live (Transcribed σ) Λ → Prop}
    (hnext : ∀ l' : Live (Transcribed σ) Λ, l'.frame.Stands p own c (done ++ [t]) →
      (¬ H.Done (done ++ [t]) → Makes own more (pure ()) l' post) ∧
        (H.Done (done ++ [t]) → Makes own more (retire (Transcribed.backend b)) l' post)) :
    Makes own (t.1.calls t.2 ++ more) (recordTask (Transcribed.backend b) t) l post := by
  obtain ⟨hG, hi⟩ := Handler.mem_tasks.1 ht
  unfold recordTask
  refine (recordList_makes hi fun list => h.store formed hH hG hi hnew list).bind
    fun last l' h' => ?_
  obtain ⟨hstands, hlast⟩ := h'
  obtain ⟨hwaits, hretires⟩ := hnext l' hstands
  cases last with
  | false =>
    refine hwaits fun hdone => Bool.false_ne_true (hlast.2 fun j hj => ?_)
    exact hdone t.1 hG j hj
  | true => exact executeGroup_makes hstands formed hH hG hwaits hretires

/-- **The lists of a handler but the last** are recorded without a submission. -/
theorem waitingTasks_make (formed : p.Formed) (hH : p.handlers[c]? = some H) {ts : List Task}
    (h : l.frame.Stands p own c done) (hts : ∀ t ∈ ts, t ∈ H.tasks) (hnodup : (done ++ ts).Nodup)
    (hwaits : ¬ H.Done (done ++ ts)) :
    Makes own (ts.flatMap fun t => t.1.calls t.2)
      (Step.forEach (recordTask (Transcribed.backend b)) ts) l fun _ l' =>
        l'.frame.Stands p own c (done ++ ts) := by
  induction ts generalizing l done with
  | nil =>
    rw [List.append_nil]
    exact .pure h
  | cons t ts ih =>
    have hsplit : done ++ t :: ts = (done ++ [t]) ++ ts := by simp
    rw [hsplit] at hnodup hwaits ⊢
    have hnew : t ∉ done := fun hmem =>
      (List.nodup_append.1 (List.nodup_append.1 hnodup).1).2.2 t hmem t (List.mem_singleton_self t)
        rfl
    have hnow : ¬ H.Done (done ++ [t]) := fun hdone => hwaits fun G hG i hi =>
      List.mem_append_left ts (hdone G hG i hi)
    have htask : Makes own (t.1.calls t.2 ++ []) (recordTask (Transcribed.backend b) t) l
        fun _ l' => l'.frame.Stands p own c (done ++ [t]) :=
      recordTask_makes h formed hH (hts t List.mem_cons_self) hnew fun l' hl' =>
        ⟨fun _ => .pure hl', fun hdone => (hnow hdone).elim⟩
    rw [List.append_nil] at htask
    rw [List.flatMap_cons]
    exact htask.bind fun _ l' hl' =>
      ih hl' (fun t' ht' => hts t' (List.mem_cons_of_mem t ht')) hnodup hwaits

end Live

/-- The lists of a plan before a handler, its own, and those behind it, are all different. -/
theorem Plan.Formed.nodup_split {p : Plan} (h : p.Formed) {c : Nat} {H : Handler}
    (hH : p.handlers[c]? = some H) :
    (((p.handlers.take c).flatMap Handler.tasks ++ H.tasks) ++
      (p.handlers.drop (c + 1)).flatMap Handler.tasks).Nodup := by
  obtain ⟨hc, rfl⟩ := List.getElem?_eq_some_iff.1 hH
  have hall := h.nodup_tasks
  rwa [← h.flatMap_tasks, ← List.take_append_drop c p.handlers, List.drop_eq_getElem_cons hc,
    List.flatMap_append, List.flatMap_cons, ← List.append_assoc] at hall

namespace Live

variable {b : Backend σ Λ} {p : Plan} {own : Prop} {c : Nat} {l : Live (Transcribed σ) Λ}
  {H : Handler}

/-- **A handler** is recorded, list by list, and submitted behind the last of them. -/
theorem handler_makes (formed : p.Formed) (hH : p.handlers[c]? = some H)
    (h : l.frame.Stands p own c ((p.handlers.take c).flatMap Handler.tasks)) :
    Makes own H.calls (Step.forEach (recordTask (Transcribed.backend b)) H.tasks) l fun _ l' =>
      l'.frame.Stands p own (c + 1) ((p.handlers.take (c + 1)).flatMap Handler.tasks) := by
  obtain ⟨hc, hget⟩ := List.getElem?_eq_some_iff.1 hH
  have hfirst : ∀ H' ∈ p.handlers, (H'.first, 0) ∈ H'.tasks := by
    intro H' hH'
    have hlists := (formed.formed _ (formed.mem_groups hH' List.mem_cons_self)).lists
    exact Handler.mem_tasks.2 ⟨List.mem_cons_self, Count.pos_of_ne_zero hlists⟩
  have hnodup := formed.nodup_split hH
  rw [List.take_succ_eq_append_getElem hc, hget, List.flatMap_append, List.flatMap_singleton,
    H.calls_eq]
  generalize (p.handlers.take c).flatMap Handler.tasks = before at h hnodup ⊢
  obtain ⟨hown, -, hlater⟩ := List.nodup_append.1 hnodup
  -- the last list of the handler is the one that it waits for
  have hnonempty := List.ne_nil_of_mem (hfirst H (List.mem_of_getElem? hH))
  obtain ⟨ts, t, hts⟩ : ∃ ts t, H.tasks = ts ++ [t] :=
    ⟨_, _, (List.dropLast_append_getLast hnonempty).symm⟩
  rw [hts, ← List.append_assoc] at hown
  obtain ⟨hbefore, -, hlast⟩ := List.nodup_append.1 hown
  have hnew : t ∉ before ++ ts := fun hmem => hlast t hmem t (List.mem_singleton_self t) rfl
  have ht : t ∈ H.tasks := by simp [hts]
  have hdone : H.Done (before ++ ts ++ [t]) := by
    rw [Handler.done_iff, hts, List.append_assoc]
    exact fun t' ht' => List.mem_append_right before ht'
  have hwaits : ∀ H', p.handlers[c + 1]? = some H' → ¬ H'.Done (before ++ ts ++ [t]) := by
    intro H' hH' hdone'
    have hmem := hfirst H' (List.mem_of_getElem? hH')
    refine hlater _ ?_ _ (List.mem_flatMap.2 ⟨H', ?_, hmem⟩) rfl
    · rw [hts, ← List.append_assoc]
      exact Handler.done_iff.1 hdone' _ hmem
    · exact List.mem_of_getElem? (i := 0) (List.getElem?_drop.trans hH')
  rw [hts, Step.forEach_append, List.flatMap_append, List.flatMap_singleton, List.append_assoc,
    ← List.append_assoc before]
  refine (waitingTasks_make formed hH h (fun t' ht' => ?_) hbefore fun hdone => ?_).bind
    fun _ l₁ h₁ => ?_
  · rw [hts]
    exact List.mem_append_left _ ht'
  · exact hnew (Handler.done_iff.1 hdone t ht)
  · have hlast := recordTask_makes (b := b) h₁ formed hH ht hnew fun l' hl' =>
      ⟨fun hopen => (hopen hdone).elim, fun _ => retire_makes hl' formed hH hdone hwaits⟩
    rw [← List.append_nil (t.1.calls t.2 ++ _)]
    exact hlast.bind fun _ _ h₂ => .pure h₂

/-- **The handlers from the cursor on** are recorded one after the other. -/
theorem handlers_make (formed : p.Formed) {hs : List Handler} (hhs : p.handlers.drop c = hs)
    (h : l.frame.Stands p own c ((p.handlers.take c).flatMap Handler.tasks)) :
    Makes own (hs.flatMap Handler.calls)
      (Step.forEach (recordTask (Transcribed.backend b)) (hs.flatMap Handler.tasks)) l
      fun _ _ => True := by
  induction hs generalizing c l with
  | nil => exact .pure trivial
  | cons H hs ih =>
    obtain ⟨hH, hrest⟩ := of_drop_eq_cons hhs
    rw [List.flatMap_cons, List.flatMap_cons, Step.forEach_append]
    exact (handler_makes formed hH h).bind fun _ l' hl' => ih hrest hl'

/-- **A recording makes the calls of its plan.** -/
theorem record_makes (formed : p.Formed) (hnew : l.frame.recorded = false)
    (h : l.frame.Stands p own 0 []) (policy : SchedulePolicy) :
    Makes own p.calls (record (Transcribed.backend b) policy) l fun _ _ => True := by
  have hmarked : Makes own [] (onFrame (Step.modify Frame.markRecorded)) l fun _ l' =>
      l'.frame.Stands p own 0 [] := .onFrame ⟨(), _, ⟨rfl, rfl⟩, { h with }⟩
  unfold record
  refine Makes.read_bind ?_
  dsimp only
  rw [hnew, h.plan, ← formed.flatMap_tasks]
  have hnote : ∀ l' : Live (Transcribed σ) Λ, l'.frame.Stands p own 0 [] →
      Makes own [] (Step.onlyIf (policy.job = .parallel) (Step.note (.recording
        (p.handlers.flatMap Handler.tasks).length))) l' fun _ l' =>
          l'.frame.Stands p own 0 [] := by
    intro l' hl'
    cases decide (policy.job = .parallel) with
    | false => exact .pure hl'
    | true => exact .of_ensures ⟨(), _, ⟨rfl, rfl⟩, rfl, hl'⟩
  exact hmarked.bind fun _ l₁ h₁ => (hnote l₁ h₁).bind fun _ l₂ h₂ => handlers_make formed rfl h₂

end Live

namespace Scheduler

variable {s t : Scheduler (Transcribed σ) Λ} {b : Backend σ Λ} {graph : Graph} {p : Plan}

/-- **The calls of a recording.**  On a frame of which nothing has been recorded, a recording
makes the calls of the plan up to the first that stops, and ends as that call did.  Only if
the trackers are not as the frame was opened with can it end otherwise: behind a batch that
was accepted, at a tracker without room for its signals. -/
theorem record_plays (hbackend : s.backend = Transcribed.backend b)
    (hstart : (start graph).Yields s p t) (device : Transcribed σ) (chain? : Option Chain) :
    let u := t.put ⟨device, { Frame.ofPlan graph p with chain? := chain? }⟩
    ∃ l attempts, (record.run u).state = t.put l ∧
      l.backend.attempts = device.attempts ++ attempts ∧
        (Played p.calls attempts (record.run u).result ∨
          chain? ≠ p.chain? ∧ (record.run u).result = .error (.fault .addOverflow) ∧
            CutOff (fun a => ∃ batch, a = .passed (.submit batch)) p.calls attempts) := by
  intro u
  obtain ⟨formed, rfl⟩ := start_permits graph s p t hstart
  have hmakes := Live.record_makes (b := b) (l := ⟨device, { Frame.ofPlan graph p with chain? }⟩)
    formed rfl (.ofPlan formed graph chain?) s.policy
  unfold Live.Makes at hmakes
  rw [← hbackend] at hmakes
  have hrecord : record.Leaves u
      (fun _ s' => ∃ l, s' = s.put l ∧
        l.backend.attempts = device.attempts ++ p.calls.map .passed)
      fun stop s' => ∃ l, s' = s.put l ∧ ∃ attempts,
        l.backend.attempts = device.attempts ++ attempts ∧
          CutOff (Attempt.Explains (chain? = p.chain?) stop) p.calls attempts :=
    (leaves_serve (s := s) .record).2
      (hmakes.mono (fun _ l hl => ⟨l, rfl, hl.1⟩) fun _ l hl => ⟨l, rfl, hl⟩)
  apply hrecord.elim
  · intro _ hresult hpost
    obtain ⟨l, hstate, hattempts⟩ := hpost
    exact ⟨l, _, hstate, hattempts, .inl (by rw [hresult, Played])⟩
  · intro stop hresult hhalt
    obtain ⟨l, hstate, attempts, hattempts, made, a, rest, hcalls, hlast, hstop | hover⟩ := hhalt
    · refine ⟨l, attempts, hstate, hattempts, .inl ?_⟩
      rw [hresult, Played]
      exact ⟨made, a, rest, hcalls, hlast, hstop⟩
    · obtain ⟨rfl, hdisturbed, hbatch⟩ := hover
      exact ⟨l, attempts, hstate, hattempts, .inr ⟨hdisturbed, hresult, made, a, rest, hcalls,
        hlast, hbatch⟩⟩

/-- A scheduler on a backend with faults that writes down its calls. -/
def transcribing (faults : FaultPlan) : Scheduler (Transcribed (Faulty Memory)) MemoryList where
  backend := Transcribed.backend (Faulty.backend faults .foreign Memory.backend)
  policy := .parallel
  device := { inner := { inner := {} } }
  config? := some .plain

theorem exists_start_short (faults : FaultPlan) :
    ∃ p t, (start .short).Yields (transcribing faults) p t := by
  obtain ⟨p, t, hstart, -⟩ := start_ensures (s := transcribing faults) rfl rfl Graph.short_built
    Graph.short_countable rfl Config.plain_covers
  exact ⟨p, t, hstart⟩

/-- The short frame on a backend that refuses the third recording: the first batch has been
submitted by then, and nothing is asked for after the refusal. -/
theorem record_plays_short :
    ∃ p t l attempts, (start .short).Yields (transcribing { recording := [3] }) p t ∧
      (record.run t).state = t.put l ∧ l.backend.attempts = attempts ∧
        attempts.map (·.stop?) = [none, none, none, none, none,
          some (.error (.recordingFailed "injected record 3"))] ∧
          Played p.calls attempts (record.run t).result := by
  obtain ⟨p, t, hstart⟩ := exists_start_short { recording := [3] }
  obtain ⟨l, attempts, hstate, hattempts, hplayed⟩ := record_plays rfl hstart t.device p.chain?
  obtain ⟨-, hopened⟩ := start_permits _ _ _ _ hstart
  have hsame : t.put ⟨t.device, { Frame.ofPlan .short p with chain? := p.chain? }⟩ = t := by
    rw [hopened]
    rfl
  have hfresh : t.device.attempts = [] := by
    rw [hopened]
    rfl
  rw [hsame] at hstate hplayed
  rw [hfresh, List.nil_append] at hattempts
  refine ⟨p, t, l, attempts, hstart, hstate, hattempts, ?_, ?_⟩
  · have hcalls : attempts = (record.run t).state.device.attempts := by
      rw [hstate, ← hattempts]
      rfl
    rw [hcalls, ← hstart.2]
    decide +kernel
  · exact hplayed.resolve_right fun hdisturbed => hdisturbed.1 rfl

/-- A step on the trackers of an open frame changes nothing else. -/
theorem state_onChain (x : Step Chain α) (l : Live (Transcribed σ) Λ) :
    ((onChain x).run (t.put l)).state = t.put { l with frame := { l.frame with
      chain? := l.frame.chain?.map fun chain => (x.run chain).state } } := by
  rcases l with ⟨device, graph, plan, progress, executed, cursor, recorded, chain?⟩
  cases chain? with
  | none => rfl
  | some chain => exact Step.state_map some _ _

/-- Somebody else signals the tracker of the short frame until it has no room left, and the
backend refuses nothing.  The recording ends behind the first batch, with a stop that is none
of a call's. -/
theorem record_not_played_disturbed :
    ∃ p t u chain?, (start .short).Yields (transcribing {}) p t ∧
      ((onChain (Handle.signal ⟨1⟩ 4294967295)).run t).state = u ∧
        u = t.put ⟨t.device, { Frame.ofPlan .short p with chain? := chain? }⟩ ∧
          (∀ a ∈ (record.run u).state.device.attempts, a.stop? = none) ∧
            ¬ Played p.calls (record.run u).state.device.attempts (record.run u).result := by
  obtain ⟨p, t, hstart⟩ := exists_start_short {}
  have hsame : t.put ⟨t.device, Frame.ofPlan .short p⟩ = t := by
    obtain ⟨-, hopened⟩ := start_permits _ _ _ _ hstart
    rw [hopened]
    rfl
  have hdisturbed := state_onChain (t := t) (Handle.signal ⟨1⟩ 4294967295)
    ⟨t.device, Frame.ofPlan .short p⟩
  rw [hsame] at hdisturbed
  refine ⟨p, t, _, _, hstart, rfl, hdisturbed, ?_⟩
  rw [← hstart.2]
  have hquiet : ∀ a ∈ (record.run ((onChain (Handle.signal ⟨1⟩ 4294967295)).run
      ((start .short).run (transcribing {})).state).state).state.device.attempts,
        a.stop? = none := by decide +kernel
  have hresult : (record.run ((onChain (Handle.signal ⟨1⟩ 4294967295)).run
      ((start .short).run (transcribing {})).state).state).result =
        .error (.fault .addOverflow) := by decide +kernel
  rw [hresult]
  exact ⟨hquiet, not_played hquiet _⟩

end Scheduler

end FrameSchedule
