import FrameSchedule.Error
import FrameSchedule.Notice

/-!
# Steps

A `Step σ α` reads and writes a state `σ`, adds notices to a journal and ends with
a value or with a `Stop`.  A step that stops keeps the state it has reached and the
notices it has made: what was done before an error or a fault stays done.

`Outcome.andThen` is the only place where a stop is passed on; everything else is
written over it.
-/

namespace FrameSchedule

variable {σ τ α β : Type}

/-- Where a step ends. -/
structure Outcome (σ α : Type) where
  state : σ
  journal : List Notice
  result : Except Stop α

/-- Go on with `f` from the state reached, unless stopped. -/
def Outcome.andThen (o : Outcome σ α) (f : α → σ → Outcome σ β) : Outcome σ β :=
  match o.result with
  | .error stop => ⟨o.state, o.journal, .error stop⟩
  | .ok a => ⟨(f a o.state).state, o.journal ++ (f a o.state).journal, (f a o.state).result⟩

/-- A computation over a state, with a journal. -/
def Step (σ α : Type) : Type :=
  σ → Outcome σ α

namespace Step

/-- The outcome of a step from a state. -/
def run (x : Step σ α) (s : σ) : Outcome σ α :=
  x s

instance : Monad (Step σ) where
  pure a := fun s => ⟨s, [], .ok a⟩
  bind x f := fun s => (x s).andThen f

/-- The present state. -/
def read : Step σ σ :=
  fun s => ⟨s, [], .ok s⟩

def write (s : σ) : Step σ Unit :=
  fun _ => ⟨s, [], .ok ()⟩

def modify (f : σ → σ) : Step σ Unit :=
  fun s => ⟨f s, [], .ok ()⟩

def note (n : Notice) : Step σ Unit :=
  fun s => ⟨s, [n], .ok ()⟩

/-- A step that is taken on a condition. -/
def onlyIf (c : Bool) (x : Step σ Unit) : Step σ Unit :=
  if c then x else pure ()

/-- Change the state, unless the change is a fault. -/
def update (f : σ → Except Fault σ) : Step σ Unit := fun s =>
  match f s with
  | .ok s' => ⟨s', [], .ok ()⟩
  | .error fault => ⟨s, [], .error (.fault fault)⟩

/-- Stop with an error. -/
def fail (e : Error) : Step σ α :=
  fun s => ⟨s, [], .error (.error e)⟩

/-- Stop with a fault. -/
def abort (f : Fault) : Step σ α :=
  fun s => ⟨s, [], .error (.fault f)⟩

/-- Stop with an error on a condition. -/
def failIf (c : Bool) (e : Error) : Step σ Unit :=
  onlyIf c (fail e)

/-- Stop with a fault on a condition. -/
def abortIf (c : Bool) (f : Fault) : Step σ Unit :=
  onlyIf c (abort f)

/-- A value, or the fault met on the way to it. -/
def ofFault : Except Fault α → Step σ α
  | .ok a => pure a
  | .error f => abort f

/-- A value, or the error met on the way to it. -/
def ofError : Except Error α → Step σ α
  | .ok a => pure a
  | .error e => fail e

/-- A step on a part of the state; the part is put back also when the step stops. -/
def zoom (get : τ → σ) (put : σ → τ → τ) (x : Step σ α) : Step τ α :=
  fun t => ⟨put (x (get t)).state t, (x (get t)).journal, (x (get t)).result⟩

/-- A step on a state of its own, whose last value comes with the result. -/
def fresh (s : σ) (x : Step σ α) : Step τ (α × σ) :=
  fun t => ⟨t, (x s).journal, (x s).result.map fun a => (a, (x s).state)⟩

/-- The result of a step as a value: a stop of the step does not stop what follows. -/
def attempt (x : Step σ α) : Step σ (Except Stop α) :=
  fun s => ⟨(x s).state, (x s).journal, .ok (x s).result⟩

/-- One step for each element, in order. -/
def forEach (f : α → Step σ Unit) : List α → Step σ Unit
  | [] => pure ()
  | a :: as => do
    f a
    forEach f as

/-! ## Equations -/

variable {s : σ}

@[simp] theorem run_pure (a : α) : (pure a : Step σ α).run s = ⟨s, [], .ok a⟩ := rfl

theorem run_bind (x : Step σ α) (f : α → Step σ β) :
    (x >>= f).run s = (x.run s).andThen fun a => (f a).run := rfl

@[simp] theorem run_read : (read : Step σ σ).run s = ⟨s, [], .ok s⟩ := rfl

@[simp] theorem run_write (s' : σ) : (write s').run s = ⟨s', [], .ok ()⟩ := rfl

@[simp] theorem run_modify (f : σ → σ) : (modify f).run s = ⟨f s, [], .ok ()⟩ := rfl

@[simp] theorem run_note (n : Notice) : (note n : Step σ Unit).run s = ⟨s, [n], .ok ()⟩ := rfl

@[simp] theorem run_onlyIf_true (x : Step σ Unit) : (onlyIf true x).run s = x.run s := rfl

@[simp] theorem run_onlyIf_false (x : Step σ Unit) :
    (onlyIf false x).run s = ⟨s, [], .ok ()⟩ := rfl

theorem run_update_of_ok {f : σ → Except Fault σ} {s' : σ} (h : f s = .ok s') :
    (update f).run s = ⟨s', [], .ok ()⟩ := by
  simp [update, run, h]

theorem run_update_of_error {f : σ → Except Fault σ} {fault : Fault} (h : f s = .error fault) :
    (update f).run s = ⟨s, [], .error (.fault fault)⟩ := by
  simp [update, run, h]

@[simp] theorem run_fail (e : Error) :
    (fail e : Step σ α).run s = ⟨s, [], .error (.error e)⟩ := rfl

@[simp] theorem run_abort (f : Fault) :
    (abort f : Step σ α).run s = ⟨s, [], .error (.fault f)⟩ := rfl

@[simp] theorem run_ofFault_ok (a : α) : (ofFault (.ok a) : Step σ α).run s = ⟨s, [], .ok a⟩ := rfl

@[simp] theorem run_ofFault_error (f : Fault) :
    (ofFault (.error f) : Step σ α).run s = ⟨s, [], .error (.fault f)⟩ := rfl

@[simp] theorem run_ofError_ok (a : α) : (ofError (.ok a) : Step σ α).run s = ⟨s, [], .ok a⟩ := rfl

@[simp] theorem run_ofError_error (e : Error) :
    (ofError (.error e) : Step σ α).run s = ⟨s, [], .error (.error e)⟩ := rfl

@[simp] theorem run_zoom (get : τ → σ) (put : σ → τ → τ) (x : Step σ α) (t : τ) :
    (zoom get put x).run t = ⟨put (x.run (get t)).state t, (x.run (get t)).journal,
      (x.run (get t)).result⟩ := rfl

/-- A sequence that returns has returned from its first part. -/
theorem ok_of_bind_ok {x : Step σ α} {f : α → Step σ β} {b : β}
    (h : ((x >>= f).run s).result = .ok b) :
    ∃ a, (x.run s).result = .ok a ∧ ((f a).run (x.run s).state).result = .ok b := by
  rw [run_bind, Outcome.andThen] at h
  split at h
  · cases h
  · rename_i a ha
    exact ⟨a, ha, h⟩

theorem id_map_step (x : Step σ α) : id <$> x = x := by
  funext s
  show (x s).andThen (fun a s => ⟨s, [], .ok a⟩) = x s
  unfold Outcome.andThen
  rcases x s with ⟨_, _, _ | _⟩ <;> simp

theorem bind_assoc_step {γ : Type} (x : Step σ α) (f : α → Step σ β) (g : β → Step σ γ) :
    x >>= f >>= g = x >>= fun a => f a >>= g := by
  funext s
  show ((x s).andThen f).andThen g = (x s).andThen fun a s => (f a s).andThen g
  unfold Outcome.andThen
  rcases x s with ⟨s', j, _ | a⟩
  · rfl
  · rcases hf : f a s' with ⟨_, _, _ | _⟩ <;> simp [hf]

instance : LawfulMonad (Step σ) :=
  LawfulMonad.mk' _ id_map_step (fun _ _ => rfl) bind_assoc_step

end Step

end FrameSchedule
