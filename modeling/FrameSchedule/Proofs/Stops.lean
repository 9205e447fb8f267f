import FrameSchedule.Proofs.Runs

/-!
# Reasoning about steps that stop

A third reading of a step: `Step.Leaves x s post halt` says what holds when the step
is over, however it ends.  If it returns, its value and the state satisfy `post`; if it
stops, the stop and the state it has reached by then satisfy `halt`.  This is the
reading for faults, because what was done before a stop stays done.

As with the other readings, the equations for the combinators take a program apart from
its first step on.
-/

namespace FrameSchedule

namespace Step

variable {σ τ α β : Type}

/-- What the step leaves behind satisfies `post` if it returns, and `halt` if it stops. -/
def Leaves (x : Step σ α) (s : σ) (post : α → σ → Prop) (halt : Stop → σ → Prop) : Prop :=
  match (x.run s).result with
  | .ok a => post a (x.run s).state
  | .error stop => halt stop (x.run s).state

variable {s : σ} {post : α → σ → Prop} {halt : Stop → σ → Prop} {post' : Unit → σ → Prop}

theorem Leaves.mono {x : Step σ α} {post₁ : α → σ → Prop} {halt₁ : Stop → σ → Prop}
    (h : x.Leaves s post halt) (hpost : ∀ a t, post a t → post₁ a t)
    (hhalt : ∀ stop t, halt stop t → halt₁ stop t) : x.Leaves s post₁ halt₁ := by
  unfold Leaves at h ⊢
  split
  · rename_i a ha
    rw [ha] at h
    exact hpost a _ h
  · rename_i stop hstop
    rw [hstop] at h
    exact hhalt stop _ h

/-- A step either returns or stops. -/
theorem Leaves.elim {x : Step σ α} {c : Prop} (h : x.Leaves s post halt)
    (hpost : ∀ a, (x.run s).result = .ok a → post a (x.run s).state → c)
    (hhalt : ∀ stop, (x.run s).result = .error stop → halt stop (x.run s).state → c) : c := by
  unfold Leaves at h
  split at h
  · rename_i a ha
    exact hpost a ha h
  · rename_i stop hstop
    exact hhalt stop hstop h

/-- Two things that a step leaves behind. -/
theorem Leaves.and {x : Step σ α} {post₁ : α → σ → Prop} {halt₁ : Stop → σ → Prop}
    (h : x.Leaves s post halt) (h₁ : x.Leaves s post₁ halt₁) :
    x.Leaves s (fun a t => post a t ∧ post₁ a t) fun stop t => halt stop t ∧ halt₁ stop t := by
  unfold Leaves at h h₁ ⊢
  split
  · rename_i a ha
    rw [ha] at h h₁
    exact ⟨h, h₁⟩
  · rename_i stop hstop
    rw [hstop] at h h₁
    exact ⟨h, h₁⟩

/-- What a step that has returned leaves behind. -/
theorem Leaves.of_yields {x : Step σ α} {a : α} {t : σ} (h : x.Leaves s post halt)
    (hx : x.Yields s a t) : post a t := by
  rcases hx with ⟨hresult, rfl⟩
  unfold Leaves at h
  rwa [hresult] at h

/-- What a step keeps however it ends holds of the state it reaches. -/
theorem Leaves.state {x : Step σ α} {inv : σ → Prop}
    (h : x.Leaves s (fun _ => inv) fun _ => inv) : inv (x.run s).state :=
  h.elim (fun _ _ hinv => hinv) fun _ _ hinv => hinv

/-- A step that is sure to return cannot stop. -/
theorem leaves_of_ensures {x : Step σ α} (h : x.Ensures s post) : x.Leaves s post halt := by
  rcases h with ⟨a, t, ⟨hresult, rfl⟩, hp⟩
  unfold Leaves
  rw [hresult]
  exact hp

/-! ## Sequencing -/

@[simp] theorem leaves_bind {x : Step σ α} {f : α → Step σ β} {post : β → σ → Prop} :
    (x >>= f).Leaves s post halt ↔ x.Leaves s (fun a t => (f a).Leaves t post halt) halt := by
  unfold Leaves
  rw [run_bind, Outcome.andThen]
  cases (x.run s).result with
  | error stop => exact Iff.rfl
  | ok a => exact Iff.rfl

@[simp] theorem leaves_pure {a : α} : (pure a : Step σ α).Leaves s post halt ↔ post a s :=
  Iff.rfl

@[simp] theorem leaves_discard {x : Step σ α} :
    (discard x).Leaves s post' halt ↔ x.Leaves s (fun _ => post' ()) halt := by
  have h : (discard x : Step σ Unit) = x >>= fun _ => pure () := rfl
  rw [h, leaves_bind]
  exact Iff.rfl

/-! ## Single steps -/

@[simp] theorem leaves_read {post : σ → σ → Prop} :
    (read : Step σ σ).Leaves s post halt ↔ post s s :=
  Iff.rfl

@[simp] theorem leaves_write {t : σ} : (write t).Leaves s post' halt ↔ post' () t :=
  Iff.rfl

@[simp] theorem leaves_modify {f : σ → σ} : (modify f).Leaves s post' halt ↔ post' () (f s) :=
  Iff.rfl

@[simp] theorem leaves_note {n : Notice} :
    (note n : Step σ Unit).Leaves s post' halt ↔ post' () s :=
  Iff.rfl

@[simp] theorem leaves_onlyIf {c : Bool} {x : Step σ Unit} :
    (onlyIf c x).Leaves s post' halt ↔
      (c = true → x.Leaves s post' halt) ∧ (c = false → post' () s) := by
  cases c with
  | false => simp [onlyIf]
  | true => simp [onlyIf]

@[simp] theorem leaves_update {f : σ → Except Fault σ} :
    (update f).Leaves s post' halt ↔
      (∀ t, f s = .ok t → post' () t) ∧ ∀ fault, f s = .error fault → halt (.fault fault) s := by
  unfold Leaves
  cases h : f s with
  | ok t => simp [run_update_of_ok h]
  | error fault => simp [run_update_of_error h]

@[simp] theorem leaves_fail {e : Error} :
    (fail e : Step σ α).Leaves s post halt ↔ halt (.error e) s :=
  Iff.rfl

@[simp] theorem leaves_abort {f : Fault} :
    (abort f : Step σ α).Leaves s post halt ↔ halt (.fault f) s :=
  Iff.rfl

@[simp] theorem leaves_ofError {x : Except Error α} :
    (ofError x : Step σ α).Leaves s post halt ↔
      (∀ a, x = .ok a → post a s) ∧ ∀ e, x = .error e → halt (.error e) s := by
  unfold Leaves
  cases x with
  | ok a => simp
  | error e => simp

@[simp] theorem leaves_failIf {c : Bool} {e : Error} :
    (failIf c e : Step σ Unit).Leaves s post' halt ↔
      (c = true → halt (.error e) s) ∧ (c = false → post' () s) := by
  rw [failIf, leaves_onlyIf, leaves_fail]

@[simp] theorem leaves_abortIf {c : Bool} {f : Fault} :
    (abortIf c f : Step σ Unit).Leaves s post' halt ↔
      (c = true → halt (.fault f) s) ∧ (c = false → post' () s) := by
  rw [abortIf, leaves_onlyIf, leaves_abort]

/-! ## Parts of the state, and loops -/

@[simp] theorem leaves_zoom {get : τ → σ} {put : σ → τ → τ} {x : Step σ α} {t : τ}
    {post : α → τ → Prop} {halt : Stop → τ → Prop} :
    (zoom get put x).Leaves t post halt ↔
      x.Leaves (get t) (fun a s => post a (put s t)) fun stop s => halt stop (put s t) :=
  Iff.rfl

/-- A loop leaves what each round keeps, for the elements it runs over. -/
theorem Leaves.forEach {f : α → Step σ Unit} {inv : σ → Prop} {l : List α}
    (round : ∀ a ∈ l, ∀ s, inv s → (f a).Leaves s (fun _ => inv) halt) (h : inv s) :
    (forEach f l).Leaves s (fun _ => inv) halt := by
  induction l generalizing s with
  | nil => exact leaves_pure.2 h
  | cons a l ih =>
    refine leaves_bind.2 ((round a List.mem_cons_self s h).mono (fun _ t ht => ?_) fun _ _ ht => ht)
    exact ih (fun b hb => round b (List.mem_cons_of_mem a hb)) ht

/-! ## Steps that change nothing -/

/-- The step leaves every state as it is, however it ends. -/
def Still (x : Step σ α) : Prop :=
  ∀ s, (x.run s).state = s

namespace Still

theorem leaves {x : Step σ α} (h : x.Still) : x.Leaves s (fun _ t => t = s) fun _ t => t = s := by
  unfold Leaves
  rw [h s]
  split <;> rfl

theorem pure (a : α) : (Pure.pure a : Step σ α).Still :=
  fun _ => rfl

theorem bind {x : Step σ α} {f : α → Step σ β} (hx : x.Still) (hf : ∀ a, (f a).Still) :
    (x >>= f).Still := by
  intro s
  have hafter : (x >>= f).Leaves s (fun _ t => t = s) fun _ t => t = s := by
    rw [leaves_bind]
    apply hx.leaves.mono
    · intro a t ht
      subst ht
      exact (hf a).leaves
    · exact fun _ _ ht => ht
  exact hafter.state

theorem ofFault (x : Except Fault α) : (Step.ofFault x : Step σ α).Still := by
  intro s
  cases x <;> rfl

theorem ofError (x : Except Error α) : (Step.ofError x : Step σ α).Still := by
  intro s
  cases x <;> rfl

theorem note (n : Notice) : (Step.note n : Step σ Unit).Still :=
  fun _ => rfl

theorem fresh (s : τ) (x : Step τ α) : (Step.fresh s x : Step σ (α × τ)).Still :=
  fun _ => rfl

theorem forEach {f : α → Step σ Unit} (hf : ∀ a, (f a).Still) (l : List α) :
    (Step.forEach f l).Still := by
  induction l with
  | nil => exact Still.pure ()
  | cons a l ih => exact (hf a).bind fun _ => ih

end Still

end Step

end FrameSchedule
