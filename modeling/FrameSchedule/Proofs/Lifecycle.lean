import FrameSchedule.Backend.Faulty
import FrameSchedule.Proofs.Frames
import FrameSchedule.Proofs.Stability

/-!
# The life of a scheduler

A scheduler is called in any order: it is configured, opens frames, is asked to record and to
submit, and closes them, and each of these calls may be refused or may stop in the backend
(`Scheduler.after`).  Whatever the calls end in, its configuration is fit for use and its open
frame has a plan with a handler for each group (`Scheduler.Sound`).

So a frame of a graph that can be counted is opened, or refused for the one reason that the
state of the scheduler gives (`Scheduler.refusal?`), and no call to an open frame misses the
handler of a group (`Scheduler.start_total`).
-/

namespace FrameSchedule

variable {σ Λ : Type}

/-! ## Graphs -/

namespace Graph

/-- What may be done with a graph. -/
inductive Edit where
  | add (scope : Scope)
  | clear
  deriving DecidableEq

def edit : Edit → Step Graph Unit
  | .add scope => discard (add scope)
  | .clear => Step.modify clear

/-- The graph that edits make of an empty one, whatever they end in. -/
def edited (edits : List Edit) : Graph :=
  edits.foldl (fun g e => ((edit e).run g).state) {}

/-- A scope is placed and numbered, or the graph stays as it is. -/
theorem add_leaves (g : Graph) (scope : Scope) :
    (add scope).Leaves g (fun id g' => id = g.nextId ∧ g.place scope = .ok g')
      fun stop g' => g' = g ∧ ∃ fault, stop = .fault fault ∧ g.place scope = .error fault := by
  simp only [add, Step.leaves_bind, Step.leaves_read, Step.leaves_update, Step.leaves_pure]
  exact ⟨fun g' hg' => ⟨trivial, hg'⟩, fun fault hfault => ⟨trivial, fault, rfl, hfault⟩⟩

theorem Built.edit {g : Graph} (h : g.Built) (e : Edit) : ((edit e).run g).state.Built := by
  cases e with
  | clear => exact .empty
  | add scope =>
    apply Step.Leaves.state
    rw [Graph.edit, Step.leaves_discard]
    apply (add_leaves g scope).mono
    · exact fun _ g' hg' => .place h hg'.2
    · exact fun _ g' hg' => hg'.1 ▸ h

theorem edited_built (edits : List Edit) : (edited edits).Built :=
  List.foldlRecOn edits _ .empty fun _ h e _ => h.edit e

/-- The scopes of a graph with what they wait for, the fences they signal and the swapchains
they present. -/
def extent (g : Graph) : Nat :=
  g.scopes.length + (g.scopes.map fun s => s.sync.pledges + s.sync.swapchains.length).sum

theorem countable_of_extent {g : Graph} (h : g.extent < UInt32.size) : g.Countable := by
  rw [extent, List.sum_map_add] at h
  constructor <;> omega

/-- The first scope whose device has no profile. -/
def unsited? (g : Graph) (c : Config) : Option PlacedScope :=
  g.scopes.find? fun s => (c.find? s.device).isNone

end Graph

theorem Config.site_of_unsited {c : Config} {ss : List PlacedScope} {s : PlacedScope}
    (h : ss.find? (fun s => (c.find? s.device).isNone) = some s) :
    c.site ss = .error (.missingLimits s.device) := by
  induction ss with
  | nil => cases h
  | cons a ss ih =>
    rw [site]
    cases ha : c.find? a.device with
    | none =>
      rw [List.find?_cons_of_pos (by rw [ha]; rfl), Option.some_inj] at h
      rw [← h]
    | some profile =>
      rw [List.find?_cons_of_neg (by rw [ha]; exact Bool.false_ne_true)] at h
      simp only [ih h]
      rfl

/-! ## Stops of an open frame -/

/-- The stop is not for want of the handler of a group. -/
def Stop.Handled (stop : Stop) : Prop :=
  ∀ id, stop ≠ .fault (.unhandledGroup id)

theorem Stop.handled_ofBackend (cause : Stop) : (Stop.ofBackend cause).Handled := by
  intro id h
  cases cause <;> cases h

namespace Live

variable {b : Backend σ Λ} {p : Plan} {l : Live (Receipted σ Λ) Λ} {H : Handler} {k : Nat}

/-- A submission keeps the plan and the cursor, and stops at the backend or where signals
cannot be counted. -/
theorem submit_handled (b : Backend σ Λ) (hsignals : H.signals < UInt32.size) :
    (submit (Receipted.backend b) k H).Leaves l
      (fun _ l' => l'.frame.plan = l.frame.plan ∧ l'.frame.cursor = l.frame.cursor)
      fun stop l' => l'.frame.plan = l.frame.plan ∧ stop.Handled := by
  by_cases hnew : l.frame.handlerExecuted k = true
  · unfold submit
    rw [Step.leaves_bind, Step.leaves_read, if_pos hnew]
    exact ⟨rfl, rfl⟩
  obtain ⟨taken, f, htake, hleaves⟩ :=
    submit_outcomes False b (Bool.eq_false_iff.2 hnew) hsignals False.elim
  have hadvances := Frame.Advances.of_takeAll hsignals htake
  have hkept : ∀ {accepted : Bool} {l' : Live (Receipted σ Λ) Λ},
      Handed H taken.1 accepted f l l' →
        l'.frame.plan = l.frame.plan ∧ l'.frame.cursor = l.frame.cursor := by
    intro accepted l' handed
    rw [handed.rest, hadvances.rest]
    exact ⟨rfl, rfl⟩
  apply hleaves.mono
  · exact fun _ l' h => hkept h.1
  · intro stop l' h
    rcases h with ⟨handed, -, cause, rfl⟩ | ⟨handed, rfl, -⟩
    · exact ⟨(hkept handed).1, Stop.handled_ofBackend cause⟩
    · exact ⟨(hkept handed).1, fun id hstop => by cases hstop⟩

/-- A call to the backend keeps the frame, and stops at the backend. -/
theorem pass_handled {α : Type} (x : Step σ α) (h : l.frame.plan = p) :
    (onBackend (Receipted.pass x)).Leaves l (fun _ l' => l'.frame.plan = p)
      fun stop l' => l'.frame.plan = p ∧ stop.Handled := by
  have hany : x.Permits l.backend.inner fun _ _ => True := fun _ _ _ => trivial
  apply (pass_leaves hany).mono
  · intro _ l' hl'
    rw [hl'.2.1, h]
  · intro stop l' hl'
    rcases hl' with ⟨⟨hframe, -⟩, cause, rfl⟩
    exact ⟨by rw [hframe, h], Stop.handled_ofBackend cause⟩

/-- A recording keeps the plan, and stops at the backend, or at a list that has no slot or has
been recorded before. -/
theorem recordList_handled (b : Backend σ Λ) (h : l.frame.plan = p) (G : Group) (i : Nat) :
    (recordList (Receipted.backend b) G i).Leaves l (fun _ l' => l'.frame.plan = p)
      fun stop l' => l'.frame.plan = p ∧ stop.Handled := by
  unfold recordList
  simp only [Step.leaves_bind, Step.leaves_abortIf]
  refine ⟨fun _ => ⟨h, fun id hstop => by cases hstop⟩, fun _ => ?_⟩
  apply (pass_handled (b.beginList (G.spec i)) h).mono _ fun _ _ hstop => hstop
  intro list l₁ h₁
  have hscopes := recordScopes_keeps (b := Receipted.backend b)
    (fun l list job hl => pass_handled (l := l) (b.recordScope list job) hl) h₁ G i list G.members
  apply hscopes.mono _ fun _ _ hstop => hstop
  intro list l₂ h₂
  rw [onFrame, Step.leaves_zoom]
  apply (Frame.store_leaves G i list).mono
  · intro _ f hf
    rw [hf.1.rest]
    exact h₂
  · intro stop f hf
    rcases hf with ⟨rfl, rfl⟩
    exact ⟨h₂, fun id hstop => by cases hstop⟩

/-- **A plan with handlers** stays, and no step misses the handler of a group. -/
theorem planned_stable (formed : p.Formed) (b : Backend σ Λ) :
    Stable (Receipted.backend b) p (fun l => l.frame.plan = p) Stop.Handled where
  formed := formed
  plan h := h
  refuse e id h := by cases h
  mark h := h
  disturb _ h := h
  recordList {l G} i h _ := recordList_handled b h G i
  retireOne {l H} h hH _ := by
    rw [Step.leaves_bind, onFrame, Step.leaves_zoom, Step.leaves_modify]
    apply (submit_handled b (formed.signals_lt hH)).mono
    · intro _ l' hl'
      exact ⟨hl'.1.trans h, hl'.2⟩
    · intro stop l' hl'
      exact ⟨hl'.1.trans h, hl'.2⟩

end Live

/-! ## Opening a frame -/

namespace Plan

/-- A frame with a scope whose device has no profile is not planned. -/
theorem ofGraph_of_unsited {c : Config} {g : Graph} {scope : PlacedScope}
    (h : g.unsited? c = some scope) (policy : SchedulePolicy) (s : σ) :
    (ofGraph c policy g : Step σ Plan).run s =
      ⟨s, [], .error (.error (.missingLimits scope.device))⟩ := by
  unfold ofGraph
  rw [Config.site_of_unsited h]
  rfl

/-- Planning a frame is done on the side. -/
theorem ofGraph_still (c : Config) (policy : SchedulePolicy) (g : Graph) :
    (ofGraph c policy g : Step σ Plan).Still := by
  unfold ofGraph
  apply (Step.Still.ofError _).bind
  intro ts
  cases policy with
  | parallel =>
    apply Step.Still.bind
    · exact (Step.Still.fresh _ _).bind fun _ => .pure _
    · exact fun m => .ofFault _
  | lockstep => exact .ofFault _

end Plan

namespace Scheduler

/-- A scheduler that has not been called. -/
def idle (b : Backend σ Λ) (policy : SchedulePolicy) (device : σ) : Scheduler σ Λ where
  backend := b
  policy := policy
  device := device

/-- Why the scheduler, in its present state, does not open a frame for a graph. -/
def refusal? (s : Scheduler σ Λ) (g : Graph) : Option Error :=
  match s.config? with
  | none => some .notInitialized
  | some c =>
    if s.frame?.isSome then some .frameInProgress
    else (g.unsited? c).map (.missingLimits ·.device)

/-- A frame that is refused leaves no trace. -/
theorem start_refused {s : Scheduler σ Λ} {g : Graph} {e : Error} (h : s.refusal? g = some e) :
    (start g).run s = ⟨s, [], .error (.error e)⟩ := by
  unfold refusal? at h
  rcases s with ⟨b, policy, device, config?, frame?⟩
  cases config? with
  | none =>
    cases h
    rfl
  | some c =>
    cases frame? with
    | some frame =>
      cases h
      rfl
    | none =>
      obtain ⟨scope, hscope, rfl⟩ := Option.map_eq_some_iff.1 h
      have hplan := Plan.ofGraph_of_unsited hscope policy
        (⟨b, policy, device, some c, none⟩ : Scheduler σ Λ)
      simp [start, Step.run_bind, Outcome.andThen, Step.failIf, hplan]

/-- Opening a frame adds a formed plan, or changes nothing. -/
theorem start_leaves (g : Graph) (s : Scheduler σ Λ) :
    (start g).Leaves s (fun p t => p.Formed ∧ t = { s with frame? := some (.ofPlan g p) })
      fun _ t => t = s := by
  have hstop : (start g).Leaves s (fun _ _ => True) fun _ t => t = s := by
    unfold start
    rw [Step.leaves_bind, Step.leaves_read]
    cases s.config? with
    | none => exact Step.leaves_fail.2 rfl
    | some c =>
      simp only [Step.leaves_bind, Step.leaves_failIf]
      refine ⟨fun _ => trivial, fun _ => ?_⟩
      apply (Plan.ofGraph_still c s.policy g).leaves.mono _ fun _ _ ht => ht
      intro p t ht
      subst ht
      have hwarn : (warnUnreachable p : Step (Scheduler σ Λ) Unit).Still :=
        (Step.Still.ofFault _).bind fun us => .forEach (fun _ => .note _) us
      rw [Step.leaves_note]
      apply hwarn.leaves.mono _ fun _ _ ht => ht
      exact fun _ _ _ => trivial
  have hopen := start_permits g s
  unfold Step.Leaves at hstop ⊢
  split
  · rename_i p hp
    exact hopen p _ ⟨hp, rfl⟩
  · rename_i stop hresult
    rw [hresult] at hstop
    exact hstop

/-! ## Calls -/

/-- A call to a scheduler. -/
inductive Call where
  | init (config : Config)
  | start (graph : Graph)
  | request (r : Request)
  | finish
  deriving DecidableEq

namespace Call

/-- The configuration that the call asks for. -/
def config? : Call → Option Config
  | .init config => some config
  | _ => none

/-- The step of a call. -/
def step : Call → Step (Scheduler σ Λ) Unit
  | .init config => Scheduler.init config
  | .start graph => discard (Scheduler.start graph)
  | .request r => serve r
  | .finish => Scheduler.finish

end Call

/-- The state after some calls, whatever they end in. -/
def after (s : Scheduler σ Λ) (calls : List Call) : Scheduler σ Λ :=
  calls.foldl (fun s c => (c.step.run s).state) s

/-- One of the calls configures the scheduler. -/
def Configures : List Call → Scheduler σ Λ → Prop
  | [], _ => False
  | c :: cs, s =>
    (c.config?.isSome ∧ (c.step.run s).result = .ok ()) ∨ Configures cs (c.step.run s).state

/-- What calls leave in order: the configuration is fit for use, and the open frame has a
formed plan. -/
structure Sound (b : Backend σ Λ) (s : Scheduler (Receipted σ Λ) Λ) : Prop where
  backend : s.backend = Receipted.backend b
  checked : ∀ c, s.config? = some c → c.check = .ok ()
  formed : ∀ f, s.frame? = some f → f.plan.Formed

namespace Sound

variable {b : Backend σ Λ} {s : Scheduler (Receipted σ Λ) Λ}

theorem idle (b : Backend σ Λ) (policy : SchedulePolicy) (device : Receipted σ Λ) :
    (idle (Receipted.backend b) policy device).Sound b where
  backend := rfl
  checked _ h := by cases h
  formed _ h := by cases h

/-- A request keeps the plan, and does not miss the handler of a group. -/
theorem serve (h : s.Sound b) (r : Request) :
    (serve r).Leaves s (fun _ t => t.Sound b ∧ t.config? = s.config?)
      fun stop t => (t.Sound b ∧ t.config? = s.config?) ∧ stop.Handled := by
  rcases s with ⟨backend, policy, device, config?, frame?⟩
  obtain rfl : backend = Receipted.backend b := h.backend
  cases frame? with
  | none =>
    have hrefused : (Scheduler.serve r).run
        (⟨Receipted.backend b, policy, device, config?, none⟩ : Scheduler (Receipted σ Λ) Λ) =
          ⟨⟨Receipted.backend b, policy, device, config?, none⟩, [], .error (.error .noFrame)⟩ := by
      cases r <;> rfl
    unfold Step.Leaves
    rw [hrefused]
    exact ⟨⟨h, rfl⟩, fun id hstop => by cases hstop⟩
  | some f =>
    have formed := h.formed f rfl
    have hkeeps : ∀ l : Live (Receipted σ Λ) Λ, l.frame.plan = f.plan →
        Sound b ⟨Receipted.backend b, policy, l.backend, config?, some l.frame⟩ := by
      intro l hl
      refine ⟨rfl, h.checked, fun f' hf' => ?_⟩
      cases hf'
      rw [hl]
      exact formed
    apply (leaves_serve (s := ⟨Receipted.backend b, policy, device, config?, none⟩)
      (l := ⟨device, f⟩) r).2
    apply ((Live.planned_stable formed b).serve (l := ⟨device, f⟩) rfl policy r).mono
    · exact fun _ l hl => ⟨hkeeps l hl, rfl⟩
    · exact fun stop l hl => ⟨⟨hkeeps l hl.1, rfl⟩, hl.2⟩

/-- **A call**, whatever it ends in, leaves a sound scheduler, and the last configuration that
was taken. -/
theorem step (h : s.Sound b) (c : Call) :
    c.step.Leaves s (fun _ t => t.Sound b ∧ t.config? = c.config?.or s.config?)
      fun _ t => t.Sound b ∧ t.config? = s.config? := by
  cases c with
  | init config =>
    simp only [Call.step, Scheduler.init, Step.leaves_bind, Step.leaves_read, Step.leaves_failIf,
      Step.leaves_ofError, Step.leaves_note, Step.leaves_write]
    refine ⟨fun _ => ⟨h, trivial⟩, fun _ => ⟨fun _ hcheck => ⟨?_, rfl⟩, fun _ _ => ⟨h, trivial⟩⟩⟩
    refine { h with checked := fun c hc => ?_ }
    cases hc
    exact hcheck
  | start g =>
    rw [Call.step, Step.leaves_discard]
    apply (start_leaves g s).mono
    · intro p t ht
      rcases ht with ⟨formed, rfl⟩
      refine ⟨{ h with formed := fun f hf => ?_ }, rfl⟩
      cases hf
      exact formed
    · intro _ t ht
      subst ht
      exact ⟨h, rfl⟩
  | request r => exact (h.serve r).mono (fun _ _ ht => ht) fun _ _ ht => ht.1
  | finish =>
    simp only [Call.step, Scheduler.finish, Step.leaves_bind, Step.leaves_read]
    cases s.frame? with
    | none => exact ⟨h, rfl⟩
    | some f =>
      simp only [Step.leaves_bind, Step.leaves_write, Step.leaves_onlyIf, Step.leaves_note]
      have hclosed : Sound b { s with frame? := none } :=
        { h with formed := fun f hf => by cases hf }
      exact ⟨fun _ => ⟨hclosed, rfl⟩, fun _ => ⟨hclosed, rfl⟩⟩

/-- **Calls in any order** leave a sound scheduler, which is configured if one of them has
configured it. -/
theorem after (h : s.Sound b) (calls : List Call) :
    (s.after calls).Sound b ∧
      ((s.after calls).config? = none ↔ s.config? = none ∧ ¬ Configures calls s) := by
  induction calls generalizing s with
  | nil => exact ⟨h, iff_of_eq (by simp [Scheduler.after, Configures])⟩
  | cons c cs ih =>
    apply (h.step c).elim
    · intro _ hresult hnext
      obtain ⟨hsound, hconfig⟩ := ih hnext.1
      refine ⟨hsound, hconfig.trans ?_⟩
      rw [hnext.2, Configures, hresult]
      cases c.config? <;> simp
    · intro stop hresult hnext
      obtain ⟨hsound, hconfig⟩ := ih hnext.1
      refine ⟨hsound, hconfig.trans ?_⟩
      rw [hnext.2, Configures, hresult]
      simp

end Sound

/-- **A frame is opened, or refused for a reason.**  After any calls to a scheduler, whatever
they ended in and whatever its backend has refused, and for every graph that edits have made
and that can be counted, the scheduler refuses a frame just if it has not been configured, has
a frame open, or has no profile for the device of a scope, of which it names the first; the
refusal changes nothing.  Otherwise it opens the frame.  No request to a frame that it has
opened misses the handler of a group. -/
theorem start_total (b : Backend σ Λ) (policy : SchedulePolicy) (device : Receipted σ Λ)
    (calls : List Call) (edits : List Graph.Edit) {graph : Graph}
    {s : Scheduler (Receipted σ Λ) Λ} (hgraph : Graph.edited edits = graph)
    (hextent : graph.extent < UInt32.size)
    (hs : (idle (Receipted.backend b) policy device).after calls = s) :
    (s.config? = none ↔ ¬ Configures calls (idle (Receipted.backend b) policy device)) ∧
      (∀ e, s.refusal? graph = some e → (start graph).run s = ⟨s, [], .error (.error e)⟩) ∧
        (s.refusal? graph = none →
          ∃ p, (start graph).Yields s p { s with frame? := some (.ofPlan graph p) }) ∧
          ∀ r id, ((serve r).run s).result ≠ .error (.fault (.unhandledGroup id)) := by
  obtain ⟨hsound, hconfig⟩ := (Sound.idle b policy device).after calls
  rw [hs] at hsound hconfig
  refine ⟨hconfig.trans (and_iff_right rfl), fun _ => start_refused, fun hopen => ?_,
    fun r id => ?_⟩
  · unfold refusal? at hopen
    cases hc : s.config? with
    | none =>
      rw [hc] at hopen
      cases hopen
    | some c =>
      simp only [hc] at hopen
      split at hopen
      · cases hopen
      · rename_i hidle
        have covers : c.Covers graph := by
          intro scope hscope
          have hsited := List.find?_eq_none.1 (Option.map_eq_none_iff.1 hopen) scope hscope
          simpa [Option.isSome_iff_ne_none] using hsited
        obtain ⟨p, _, hstart, -, rfl⟩ := start_ensures hc (by simpa using hidle)
          (hgraph ▸ Graph.edited_built edits) (Graph.countable_of_extent hextent)
          (hsound.checked c hc) covers
        rw [hc] at hstart
        exact ⟨p, hstart⟩
  · intro hresult
    have hserve := hsound.serve r
    unfold Step.Leaves at hserve
    rw [hresult] at hserve
    exact hserve.2 id rfl

/-- The scheduler has recorded a frame on a backend that refused its batch, and has closed it.
The graph has been cleared once. -/
theorem start_total_reopened :
    ∃ s p, (idle (Receipted.backend
        (Faulty.backend { submission := [1] } .foreign Memory.backend)) .parallel
          { inner := { inner := {} } }).after
        [.init .plain, .start .short, .request .record, .finish] = s ∧ s.config? ≠ none ∧
          (start (Graph.edited [.add { name := "a" }, .clear, .add { name := "b" }])).Yields s p
            { s with frame? := some (.ofPlan
              (Graph.edited [.add { name := "a" }, .clear, .add { name := "b" }]) p) } := by
  obtain ⟨hconfig, -, hopen, -⟩ := start_total
    (Faulty.backend { submission := [1] } .foreign Memory.backend) .parallel
    { inner := { inner := {} } } [.init .plain, .start .short, .request .record, .finish]
    [.add { name := "a" }, .clear, .add { name := "b" }] rfl (by decide +kernel) rfl
  obtain ⟨p, hstart⟩ := hopen (by decide +kernel)
  refine ⟨_, p, rfl, fun hnone => hconfig.1 hnone ?_, hstart⟩
  exact .inl ⟨rfl, by decide +kernel⟩

end Scheduler

end FrameSchedule
