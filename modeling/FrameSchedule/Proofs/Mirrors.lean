import FrameSchedule.Proofs.Stamps

/-!
# What a scheduler does not look into

A scheduler hands the lists of its backend around and never looks into them.  So where two
backends do the same, up to a map of their states and a map of their lists
(`Backend.Mirrors`), schedulers on them do the same (`Scheduler.through_onto`).

In particular a scheduler does on a backend what it does on the one that stamps its lists: the
stamps tell what has become of a list, and change nothing (`Scheduler.through_bare`).
-/

namespace FrameSchedule

variable {σ τ α β γ δ Λ Λ' : Type}

/-! ## Steps -/

namespace Step

/-- What `x` does to a state, `y` does to its image. -/
def Mirrors (f : σ → τ) (g : α → β) (x : Step σ α) (y : Step τ β) : Prop :=
  ∀ s, y.run (f s) = ⟨f (x.run s).state, (x.run s).journal, (x.run s).result.map g⟩

namespace Mirrors

variable {f : σ → τ} {g : α → β}

theorem refl (x : Step σ α) : x.Mirrors id id x := by
  intro s
  show x.run s = ⟨(x.run s).state, (x.run s).journal, (x.run s).result.map id⟩
  rcases x.run s with ⟨state, journal, result⟩
  cases result <;> rfl

/-- A step that returns `a` has an image that returns the image of `a`. -/
theorem yields {x : Step σ α} {y : Step τ β} (h : x.Mirrors f g y) {s t : σ} {a : α}
    (hx : x.Yields s a t) : y.Yields (f s) (g a) (f t) := by
  rcases hx with ⟨hresult, rfl⟩
  unfold Yields
  rw [h s, hresult]
  exact ⟨rfl, rfl⟩

/-- What is made of a value can be taken back. -/
theorem of_map {k : α → β} {h : β → α} {x : Step σ α} (hk : ∀ a, h (k a) = a) :
    (k <$> x).Mirrors id h x := by
  intro s
  rw [← bind_pure_comp, run_bind]
  unfold Outcome.andThen
  show x.run s = _
  rcases x.run s with ⟨state, journal, result⟩
  cases result with
  | error stop => rfl
  | ok a => simp [Except.map, hk]

theorem pure (a : α) : (Pure.pure a : Step σ α).Mirrors f g (Pure.pure (g a)) :=
  fun _ => rfl

theorem bind {h : γ → δ} {x : Step σ α} {y : Step τ β} {k : α → Step σ γ} {k' : β → Step τ δ}
    (hx : x.Mirrors f g y) (hk : ∀ a, (k a).Mirrors f h (k' (g a))) :
    (x >>= k).Mirrors f h (y >>= k') := by
  intro s
  rw [run_bind, run_bind, hx s]
  unfold Outcome.andThen
  cases (x.run s).result with
  | error stop => rfl
  | ok a => simp only [Except.map, hk a (x.run s).state]

theorem read : (Step.read : Step σ σ).Mirrors f f Step.read :=
  fun _ => rfl

theorem modify {m : σ → σ} {k : τ → τ} (h : ∀ s, k (f s) = f (m s)) :
    (Step.modify m).Mirrors f id (Step.modify k) := by
  intro s
  rw [run_modify, run_modify, h s]
  rfl

theorem write {s : σ} {t : τ} (h : f s = t) : (Step.write s).Mirrors f id (Step.write t) := by
  intro _
  rw [run_write, run_write, h]
  rfl

theorem fail (e : Error) : (Step.fail e : Step σ α).Mirrors f g (Step.fail e) :=
  fun _ => rfl

theorem abort (e : Fault) : (Step.abort e : Step σ α).Mirrors f g (Step.abort e) :=
  fun _ => rfl

theorem note (n : Notice) : (Step.note n : Step σ Unit).Mirrors f id (Step.note n) :=
  fun _ => rfl

theorem onlyIf {x : Step σ Unit} {y : Step τ Unit} (c : Bool) (h : x.Mirrors f id y) :
    (Step.onlyIf c x).Mirrors f id (Step.onlyIf c y) := by
  cases c with
  | false => exact pure ()
  | true => exact h

theorem ofFault (e : Except Fault α) :
    (Step.ofFault e : Step σ α).Mirrors f id (Step.ofFault e) := by
  cases e with
  | ok a => exact pure a
  | error fault => exact abort fault

theorem ofError (e : Except Error α) :
    (Step.ofError e : Step σ α).Mirrors f id (Step.ofError e) := by
  cases e with
  | ok a => exact pure a
  | error e => exact fail e

/-- A step on a state of its own does not see the state around it. -/
theorem fresh (s : γ) (x : Step γ α) :
    (Step.fresh s x : Step σ (α × γ)).Mirrors f id (Step.fresh s x) := by
  intro t
  have hrun : ∀ {ρ : Type} (r : ρ), (Step.fresh s x : Step ρ (α × γ)).run r =
      ⟨r, (x s).journal, (x s).result.map fun a => (a, (x s).state)⟩ := fun _ => rfl
  rw [hrun, hrun]
  cases (x s).result <;> rfl

theorem discard {x : Step σ α} {y : Step τ β} (h : x.Mirrors f g y) :
    (Functor.discard x : Step σ Unit).Mirrors f id (Functor.discard y) :=
  h.bind fun _ => pure ()

theorem forEach {ι : Type} {x : ι → Step σ Unit} {y : ι → Step τ Unit}
    (h : ∀ i, (x i).Mirrors f id (y i)) (is : List ι) :
    (Step.forEach x is).Mirrors f id (Step.forEach y is) := by
  induction is with
  | nil => exact pure ()
  | cons i is ih => exact (h i).bind fun _ => ih

/-- What holds of steps holds of them as steps of a part. -/
theorem zoom {σ' τ' : Type} {F : σ' → τ'} {x : Step σ α} {y : Step τ β} {get : σ' → σ}
    {put : σ → σ' → σ'} {get' : τ' → τ} {put' : τ → τ' → τ'} (h : x.Mirrors f g y)
    (hget : ∀ t, get' (F t) = f (get t)) (hput : ∀ s t, put' (f s) (F t) = F (put s t)) :
    (Step.zoom get put x).Mirrors F g (Step.zoom get' put' y) := by
  intro t
  rw [run_zoom, run_zoom, hget, h, hput]

end Mirrors

end Step

/-! ## Images -/

/-- The same list of another backend. -/
def RecordedList.map (g : Λ → Λ') (list : RecordedList Λ) : RecordedList Λ' :=
  { list with native := g list.native }

def Submission.mapLists (g : Λ → Λ') (batch : Batch Λ) : Batch Λ' :=
  { batch with lists := batch.lists.map (·.map g) }

def Progress.map (g : Λ → Λ') (p : Progress Λ) : Progress Λ' :=
  { p with slots := p.slots.map (·.map g) }

def Frame.map (g : Λ → Λ') (f : Frame Λ) : Frame Λ' :=
  { f with progress := f.progress.map (·.map g) }

def Live.map (f : σ → τ) (g : Λ → Λ') (l : Live σ Λ) : Live τ Λ' :=
  ⟨f l.backend, l.frame.map g⟩

/-- What `b` does, `b'` does to images. -/
structure Backend.Mirrors (f : σ → τ) (g : Λ → Λ') (b : Backend σ Λ) (b' : Backend τ Λ') :
    Prop where
  beginList : ∀ spec, (b.beginList spec).Mirrors f g (b'.beginList spec)
  recordScope : ∀ list job, (b.recordScope list job).Mirrors f g (b'.recordScope (g list) job)
  submit : ∀ batch, (b.submit batch).Mirrors f id (b'.submit (batch.mapLists g))

/-! ## Frames -/

namespace Progress

variable {g : Λ → Λ'} {p : Progress Λ}

theorem filled_map (i : Nat) : (p.map g).filled i = p.filled i := by
  rw [filled, filled, map, List.getElem?_map]
  cases p.slots[i]? with
  | none => rfl
  | some slot => cases slot <;> rfl

theorem fill_map (i : Nat) (list : Λ) : (p.map g).fill i (g list) = (p.fill i list).map g := by
  simp only [fill, map, List.map_set, Option.map_some]
  rfl

theorem emptied_map : (p.map g).emptied = p.emptied.map g := by
  simp only [emptied, map, List.map_map]
  rfl

theorem lists_map : (p.map g).lists = p.lists.map g := by
  simp only [lists, map, List.filterMap_map, List.map_filterMap, Function.comp_def, id]

end Progress

namespace Frame

variable {g : Λ → Λ'}

theorem getElem?_progress_map (f : Frame Λ) (k : Nat) :
    (f.map g).progress[k]? = (f.progress[k]?).map (·.map g) :=
  List.getElem?_map

theorem ofPlan_map (graph : Graph) (p : Plan) :
    (ofPlan graph p : Frame Λ).map g = ofPlan graph p := by
  simp only [ofPlan, map, List.map_map, Function.comp_def, Progress.map, Progress.blank,
    List.map_replicate, Option.map_none]

theorem setProgress_map (G : Group) (p : Progress Λ) (f : Frame Λ) :
    setProgress G (p.map g) (f.map g) = (setProgress G p f).map g := by
  simp only [setProgress, map, List.map_set]

theorem groupComplete_map (f : Frame Λ) (G : Group) :
    (f.map g).groupComplete G = f.groupComplete G := by
  rw [groupComplete, groupComplete, getElem?_progress_map, Option.any_map]
  rfl

theorem handlerComplete_map (f : Frame Λ) (H : Handler) :
    (f.map g).handlerComplete H = f.handlerComplete H := by
  rw [handlerComplete, handlerComplete, funext (groupComplete_map f)]

theorem store_mirrors (G : Group) (i : Nat) (list : Λ) :
    (store G i list).Mirrors (map g) id (store G i (g list)) := by
  refine Step.Mirrors.read.bind fun f => ?_
  rw [getElem?_progress_map]
  cases f.progress[G.index]? with
  | none => exact .pure false
  | some p =>
    simp only [Option.map_some, Progress.filled_map, Progress.fill_map]
    refine (Step.Mirrors.onlyIf _ (.abort _)).bind fun _ => ?_
    exact (Step.Mirrors.modify fun f => setProgress_map G _ f).bind fun _ => .pure _

theorem takeLists_mirrors (G : Group) :
    (takeLists G : Step (Frame Λ) (List Λ)).Mirrors (map g) (List.map g) (takeLists G) := by
  refine Step.Mirrors.read.bind fun f => ?_
  rw [getElem?_progress_map]
  cases f.progress[G.index]? with
  | none => exact .pure []
  | some p =>
    simp only [Option.map_some, Progress.emptied_map, Progress.lists_map]
    exact (Step.Mirrors.modify fun f => setProgress_map G _ f).bind fun _ => .pure _

theorem takeAll_mirrors (subpass : Nat) (signals : UInt32) (Gs : List Group) :
    (takeAll subpass signals Gs : Step (Frame Λ) (List (RecordedList Λ) × UInt32)).Mirrors (map g)
      (fun taken => (taken.1.map (·.map g), taken.2)) (takeAll subpass signals Gs) := by
  induction Gs generalizing subpass signals with
  | nil => exact .pure ([], signals)
  | cons G Gs ih =>
    refine (takeLists_mirrors G).bind fun lists => ?_
    refine (Step.Mirrors.ofFault _).bind fun signals => ?_
    refine (ih (subpass + 1) signals).bind fun taken => ?_
    have himage : (lists.map (G.recorded subpass) ++ taken.1).map (·.map g) =
        (lists.map g).map (G.recorded subpass) ++ taken.1.map (·.map g) := by
      rw [List.map_append, List.map_map, List.map_map]
      rfl
    simp only [← himage]
    exact .pure (lists.map (G.recorded subpass) ++ taken.1, taken.2)

theorem signal_mirrors (handle : Handle) (count : UInt32) :
    (signal handle count : Step (Frame Λ) Unit).Mirrors (map g) id (signal handle count) := by
  refine Step.Mirrors.read.bind fun f => ?_
  have hchain : (map g f).chain? = f.chain? := rfl
  simp only [hchain]
  cases f.chain? with
  | none => exact .pure ()
  | some chain =>
    exact (Step.Mirrors.refl (handle.signal count)).zoom (fun _ => rfl) fun _ _ => rfl

end Frame

namespace Live

variable {f : σ → τ} {g : Λ → Λ'} {b : Backend σ Λ} {b' : Backend τ Λ'}

theorem onBackend_mirrors {h : α → β} {x : Step σ α} {y : Step τ β} (hx : x.Mirrors f h y) :
    (onBackend x : Step (Live σ Λ) α).Mirrors (map f g) h (onBackend y) :=
  hx.zoom (fun _ => rfl) fun _ _ => rfl

theorem onFrame_mirrors {h : α → β} {x : Step (Frame Λ) α} {y : Step (Frame Λ') β}
    (hx : x.Mirrors (Frame.map g) h y) :
    (onFrame x : Step (Live σ Λ) α).Mirrors (map f g) h (onFrame y) :=
  hx.zoom (fun _ => rfl) fun _ _ => rfl

theorem submit_mirrors (h : b.Mirrors f g b') (position : Nat) (H : Handler) :
    (submit b position H).Mirrors (map f g) id (submit b' position H) := by
  refine Step.Mirrors.read.bind fun l => ?_
  have hexecuted : (map f g l).frame.handlerExecuted position =
      l.frame.handlerExecuted position := rfl
  rw [hexecuted]
  split
  · exact .pure ()
  · refine (onFrame_mirrors (.modify (k := Frame.markExecuted position) fun _ => rfl)).bind
      fun _ => ?_
    refine (onFrame_mirrors (Frame.takeAll_mirrors 0 0 H.groups)).bind fun taken => ?_
    rcases taken with ⟨lists, signals⟩
    simp only [List.length_map]
    refine (Step.Mirrors.note _).bind fun _ => ?_
    refine (onBackend_mirrors (h.submit (H.batch lists))).bind fun _ => ?_
    split
    · exact .pure ()
    · cases H.first.handle? with
      | none => exact .pure ()
      | some handle => exact onFrame_mirrors (Frame.signal_mirrors handle signals)

theorem retireFrom_mirrors (h : b.Mirrors f g b') (position : Nat) (Hs : List Handler) :
    (retireFrom b position Hs).Mirrors (map f g) id (retireFrom b' position Hs) := by
  induction Hs generalizing position with
  | nil => exact .pure ()
  | cons H Hs ih =>
    refine Step.Mirrors.read.bind fun l => ?_
    have hcomplete : (map f g l).frame.handlerComplete H = l.frame.handlerComplete H :=
      Frame.handlerComplete_map l.frame H
    rw [hcomplete]
    split
    · refine (onFrame_mirrors (.modify (k := Frame.retired position) fun _ => rfl)).bind
        fun _ => ?_
      exact (submit_mirrors h position H).bind fun _ => ih (position + 1)
    · exact .pure ()

theorem group_mirrors (index : Nat) :
    (group index : Step (Live σ Λ) Group).Mirrors (map f g) id (group index) := by
  refine Step.Mirrors.read.bind fun l => ?_
  have hplan : (map f g l).frame.plan = l.frame.plan := rfl
  rw [hplan]
  cases l.frame.plan.groups[index]? with
  | none => exact .fail _
  | some G => exact .pure G

theorem executeGroup_mirrors (h : b.Mirrors f g b') (index : Nat) :
    (executeGroup b index).Mirrors (map f g) id (executeGroup b' index) := by
  refine (group_mirrors index).bind fun G => Step.Mirrors.read.bind fun l => ?_
  have hplan : (map f g l).frame.plan = l.frame.plan := rfl
  have hexecuted : (map f g l).frame.handlerExecuted = l.frame.handlerExecuted := rfl
  have hcomplete : (map f g l).frame.handlerComplete = l.frame.handlerComplete :=
    funext fun H => Frame.handlerComplete_map l.frame H
  simp only [hplan, hexecuted, hcomplete, id]
  cases l.frame.plan.handlerIndex? G.id with
  | none => exact .abort _
  | some position =>
    dsimp only
    split
    · exact .pure ()
    · exact Step.Mirrors.read.bind fun l => retireFrom_mirrors h _ _

theorem recordScopes_mirrors (h : b.Mirrors f g b') (G : Group) (i : Nat) (list : Λ)
    (ss : List PlacedScope) :
    (recordScopes b G i list ss).Mirrors (map f g) g (recordScopes b' G i (g list) ss) := by
  induction ss generalizing list with
  | nil => exact .pure list
  | cons s ss ih => exact (onBackend_mirrors (h.recordScope list _)).bind ih

theorem recordTask_mirrors (h : b.Mirrors f g b') (t : Group × Nat) :
    (recordTask b t).Mirrors (map f g) id (recordTask b' t) := by
  have hlist : (recordList b t.1 t.2).Mirrors (map f g) id (recordList b' t.1 t.2) := by
    refine (Step.Mirrors.onlyIf _ (.abort _)).bind fun _ => ?_
    refine (onBackend_mirrors (h.beginList _)).bind fun list => ?_
    refine (recordScopes_mirrors h t.1 t.2 list _).bind fun list => ?_
    exact onFrame_mirrors (Frame.store_mirrors t.1 t.2 list)
  refine hlist.bind fun last => ?_
  cases last with
  | false => exact .pure ()
  | true => exact executeGroup_mirrors h t.1.index

theorem serve_mirrors (h : b.Mirrors f g b') (policy : SchedulePolicy) (r : Request) :
    (serve b policy r).Mirrors (map f g) id (serve b' policy r) := by
  cases r with
  | record =>
    refine Step.Mirrors.read.bind fun l => ?_
    refine (Step.Mirrors.onlyIf _ (.fail _)).bind fun _ => ?_
    refine (onFrame_mirrors (.modify (k := Frame.markRecorded) fun _ => rfl)).bind fun _ => ?_
    refine (Step.Mirrors.onlyIf _ (.note _)).bind fun _ => ?_
    exact .forEach (recordTask_mirrors h) _
  | recordList index list =>
    exact (group_mirrors index).bind fun G => recordTask_mirrors h (G, list)
  | recordGroup index =>
    refine Step.Mirrors.discard (g := id) ((group_mirrors index).bind fun G => ?_)
    refine (Step.Mirrors.forEach (recordTask_mirrors h) G.tasks).bind fun _ => ?_
    refine Step.Mirrors.read.bind fun l => ?_
    have hcomplete : (map f g l).frame.groupComplete G = l.frame.groupComplete G :=
      Frame.groupComplete_map l.frame G
    show (pure (l.frame.groupComplete G) : Step (Live σ Λ) Bool).Mirrors (map f g) id
      (pure ((map f g l).frame.groupComplete G))
    rw [hcomplete]
    exact .pure _
  | executeGroup index => exact executeGroup_mirrors h index

end Live

/-! ## Wrapped backends -/

namespace Receipted

variable {f : σ → τ} {g : Λ → Λ'} {b : Backend σ Λ} {b' : Backend τ Λ'}

def map (f : σ → τ) (g : Λ → Λ') (r : Receipted σ Λ) : Receipted τ Λ' :=
  ⟨f r.inner, r.receipts.map fun receipt => ⟨receipt.batch.mapLists g, receipt.accepted⟩⟩

theorem pass_mirrors {h : α → β} {x : Step σ α} {y : Step τ β} (hx : x.Mirrors f h y) :
    (pass x : Step (Receipted σ Λ) α).Mirrors (map f g) h (pass y) := by
  intro r
  have hinner : (map f g r).inner = f r.inner := rfl
  rw [run_pass, run_pass, hinner, hx r.inner]
  cases (x.run r.inner).result <;> rfl

theorem backend_mirrors (h : b.Mirrors f g b') :
    (backend b).Mirrors (map f g) g (backend b') where
  beginList spec := pass_mirrors (h.beginList spec)
  recordScope list job := pass_mirrors (h.recordScope list job)
  submit batch := by
    intro r
    rw [run_submit, run_submit, pass_mirrors (h.submit batch) r]
    cases ((pass (b.submit batch)).run r).result <;>
      simp [map, Except.map, Except.isOk, Except.toBool]

end Receipted

theorem Stamped.backend_mirrors (b : Backend σ Λ) :
    (Stamped.backend b).Mirrors id Stamped.native b where
  beginList _ := .of_map fun _ => rfl
  recordScope _ _ := .of_map fun _ => rfl
  submit _ := Step.Mirrors.refl _

/-! ## Schedulers -/

namespace Plan

/-- A plan is made without a look at the backend. -/
theorem ofGraph_mirrors {f : σ → τ} (c : Config) (policy : SchedulePolicy) (graph : Graph) :
    (ofGraph c policy graph : Step σ Plan).Mirrors f id (ofGraph c policy graph) := by
  refine (Step.Mirrors.ofError _).bind fun sited => ?_
  cases policy with
  | parallel =>
    refine Step.Mirrors.bind (g := id) ?_ fun merge => .ofFault _
    exact (Step.Mirrors.fresh _ _).bind fun _ => .pure _
  | lockstep => exact .ofFault _

end Plan

namespace Scheduler

variable {f : σ → τ} {g : Λ → Λ'} {b' : Backend τ Λ'} {s : Scheduler σ Λ}

/-- The scheduler on another backend. -/
def onto (b' : Backend τ Λ') (f : σ → τ) (g : Λ → Λ') (s : Scheduler σ Λ) : Scheduler τ Λ' where
  backend := b'
  policy := s.policy
  device := f s.device
  config? := s.config?
  frame? := s.frame?.map (·.map g)

theorem start_mirrors (graph : Graph) :
    (start graph : Step (Scheduler σ Λ) Plan).Mirrors (onto b' f g) id (start graph) := by
  refine Step.Mirrors.read.bind fun s => ?_
  rcases s with ⟨b, policy, device, config?, frame?⟩
  have hframe : (onto b' f g ⟨b, policy, device, config?, frame?⟩).frame?.isSome =
      frame?.isSome := Option.isSome_map
  rw [hframe]
  cases config? with
  | none => exact .fail _
  | some config =>
    refine (Step.Mirrors.onlyIf _ (.fail _)).bind fun _ => ?_
    refine (Plan.ofGraph_mirrors config policy graph).bind fun p => ?_
    refine (Step.Mirrors.note _).bind fun _ => ?_
    have hwarn : (warnUnreachable p : Step (Scheduler σ Λ) Unit).Mirrors (onto b' f g) id
        (warnUnreachable p) :=
      (Step.Mirrors.ofFault _).bind fun us => .forEach (fun _ => .note _) us
    refine hwarn.bind fun _ => ?_
    refine (Step.Mirrors.write ?_).bind fun _ => .pure p
    rw [onto, Option.map_some, Frame.ofPlan_map]
    rfl

theorem disturb_mirrors (chain : Chain) :
    (meet (.disturb chain) : Step (Scheduler σ Λ) Unit).Mirrors (onto b' f g) id
      (meet (.disturb chain)) := by
  refine Step.Mirrors.discard (g := id) (Step.Mirrors.read.bind fun s => ?_)
  rcases s with ⟨backend, policy, device, config?, frame?⟩
  cases frame? with
  | none => exact .pure none
  | some frame =>
    rcases frame with ⟨graph, plan, progress, executed, cursor, recorded, chain?⟩
    cases chain? with
    | none => exact .pure none
    | some old =>
      have hwrite : (Step.write chain : Step Chain Unit).Mirrors id id (Step.write chain) := .refl _
      refine Step.Mirrors.bind (hwrite.zoom (fun _ => rfl) fun _ _ => rfl) fun _ => ?_
      exact .pure (some ())

/-- Where a frame is open, a step on it is a step of the scheduler. -/
theorem run_inFrame (x : Backend σ Λ → Step (Live σ Λ) α) (b : Backend σ Λ)
    (policy : SchedulePolicy) (device : σ) (config? : Option Config) (frame : Frame Λ) :
    (inFrame x).run ⟨b, policy, device, config?, some frame⟩ =
      ⟨⟨b, policy, ((x b).run ⟨device, frame⟩).state.backend, config?,
          some ((x b).run ⟨device, frame⟩).state.frame⟩,
        ((x b).run ⟨device, frame⟩).journal, ((x b).run ⟨device, frame⟩).result⟩ := rfl

/-- What a step does to a scheduler, another does to the scheduler on another backend. -/
theorem inFrame_onto {x : Backend σ Λ → Step (Live σ Λ) α} {y : Backend τ Λ' → Step (Live τ Λ') α}
    (hxy : (x s.backend).Mirrors (Live.map f g) id (y b')) :
    (inFrame y).run (s.onto b' f g) =
        ⟨((inFrame x).run s).state.onto b' f g, ((inFrame x).run s).journal,
          ((inFrame x).run s).result.map id⟩ ∧
      ((inFrame x).run s).state.backend = s.backend := by
  rcases s with ⟨b, policy, device, config?, frame?⟩
  cases frame? with
  | none => exact ⟨rfl, rfl⟩
  | some frame =>
    have hl := hxy ⟨device, frame⟩
    have honto : onto b' f g ⟨b, policy, device, config?, some frame⟩ =
        ⟨b', policy, f device, config?, some (frame.map g)⟩ := rfl
    have hlive : Live.map f g ⟨device, frame⟩ = ⟨f device, frame.map g⟩ := rfl
    rw [hlive] at hl
    rw [honto, run_inFrame, run_inFrame, hl]
    exact ⟨rfl, rfl⟩

theorem run_discard_inFrame (x : Backend σ Λ → Step (Live σ Λ) α) (s : Scheduler σ Λ) :
    (discard (inFrame x) : Step (Scheduler σ Λ) Unit).run s =
      (inFrame fun b => discard (x b)).run s := by
  rcases s with ⟨b, policy, device, config?, frame?⟩
  cases frame? with
  | none => rfl
  | some frame =>
    have hdiscard : ∀ {ρ β : Type} (z : Step ρ β) (r : ρ), (discard z : Step ρ Unit).run r =
        (z.run r).andThen fun _ => (pure () : Step ρ Unit).run := fun _ _ => rfl
    rw [hdiscard, run_inFrame, run_inFrame, hdiscard]
    unfold Outcome.andThen
    cases ((x b).run ⟨device, frame⟩).result <;> rfl

/-- A request is served by the open frame. -/
theorem run_serve (s : Scheduler σ Λ) (r : Request) :
    (serve r).run s = (inFrame fun b => Live.serve b s.policy r).run s := by
  cases r with
  | record =>
    have hread : ∀ (k : Scheduler σ Λ → Step (Scheduler σ Λ) Unit),
        (Step.read >>= k).run s = (k s).run s := fun _ => rfl
    simp only [serve, record, hread, Live.serve]
  | recordList index list => simp only [serve, Live.serve]
  | recordGroup index => simp only [serve, recordGroup, run_discard_inFrame, Live.serve]
  | executeGroup index => simp only [serve, executeGroup, Live.serve]

theorem meet_onto (h : s.backend.Mirrors f g b') (e : Event) :
    ((meet e).run (s.onto b' f g)).state = ((meet e).run s).state.onto b' f g ∧
      ((meet e).run s).state.backend = s.backend := by
  cases e with
  | request r =>
    obtain ⟨hrun, hbackend⟩ := inFrame_onto (x := fun b => Live.serve b s.policy r)
      (y := fun b => Live.serve b s.policy r) (Live.serve_mirrors h s.policy r)
    rw [meet, meet, run_serve, run_serve]
    exact ⟨congrArg Outcome.state hrun, hbackend⟩
  | disturb chain =>
    refine ⟨congrArg Outcome.state (disturb_mirrors chain s), ?_⟩
    rcases s with ⟨b, policy, device, config?, frame?⟩
    cases frame? with
    | none => rfl
    | some frame =>
      rcases frame with ⟨graph, plan, progress, executed, cursor, recorded, chain?⟩
      cases chain? <;> rfl

theorem through_onto (h : s.backend.Mirrors f g b') (events : List Event) :
    (s.onto b' f g).through events = (s.through events).onto b' f g := by
  induction events generalizing s with
  | nil => rfl
  | cons e es ih =>
    obtain ⟨hstate, hbackend⟩ := meet_onto h e
    have hrest := ih (s := ((meet e).run s).state) (hbackend.symm ▸ h)
    rw [← hstate] at hrest
    exact hrest

variable {b : Backend σ Λ}

/-- The scheduler on the backend itself. -/
def bare (b : Backend σ Λ) (s : Scheduler (Receipted σ (Stamped Λ)) (Stamped Λ)) :
    Scheduler (Receipted σ Λ) Λ :=
  s.onto (Receipted.backend b) (Receipted.map id Stamped.native) Stamped.native

theorem start_bare {s t : Scheduler (Receipted σ (Stamped Λ)) (Stamped Λ)} {graph : Graph}
    {p : Plan} (hstart : (start graph).Yields s p t) :
    (start graph).Yields (s.bare b) p (t.bare b) :=
  (start_mirrors graph).yields hstart

/-- **Stamps are not seen.**  On the backend itself a frame goes as on the one that stamps its
lists. -/
theorem through_bare {s : Scheduler (Receipted σ (Stamped Λ)) (Stamped Λ)}
    (hbackend : s.backend = Receipted.backend (Stamped.backend b)) (events : List Event) :
    (s.bare b).through events = (s.through events).bare b :=
  through_onto (hbackend ▸ Receipted.backend_mirrors (Stamped.backend_mirrors b)) events

end Scheduler
end FrameSchedule
