import FrameSchedule.Step
import Mathlib.Data.List.Forall2

/-!
# Reasoning about steps

Two readings of a step from a given state, both silent about its journal.

* `Step.Ensures x s post`: the step returns, and the value and the state it
  reaches satisfy `post`.  It rules out errors and faults.
* `Step.Permits x s post`: if the step returns, the value and the state it reaches
  satisfy `post`.

A step is a function, so both distribute over every combinator: the equations below
take a program apart from its first step on.
-/

namespace FrameSchedule

/-! ## Results -/

/-- A mapped result comes from a result. -/
theorem exists_of_map_eq_ok {α β ε : Type} {e : Except ε α} {f : α → β} {b : β}
    (h : e.map f = .ok b) : ∃ a, e = .ok a ∧ f a = b := by
  cases e with
  | error fault => cases h
  | ok a => exact ⟨a, rfl, Except.ok.inj h⟩

/-- A list is mapped without a fault just when each of its elements is. -/
theorem mapM_eq_ok_iff {α β ε : Type} {f : α → Except ε β} {as : List α} {bs : List β} :
    as.mapM f = .ok bs ↔ List.Forall₂ (fun a b => f a = .ok b) as bs := by
  induction as generalizing bs with
  | nil => simp [pure, Except.pure, eq_comm]
  | cons a as ih =>
    rw [List.mapM_cons, List.forall₂_cons_left_iff]
    cases ha : f a with
    | error e => simp [bind, Except.bind]
    | ok b =>
      cases has : as.mapM f with
      | error e =>
        have hnone : ∀ cs, ¬ List.Forall₂ (fun a b => f a = .ok b) as cs := by
          intro cs hcs
          rw [← ih, has] at hcs
          cases hcs
        simp [bind, Except.bind, hnone]
      | ok cs =>
        have hcs := ih.1 has
        simp only [bind, Except.bind, pure, Except.pure, Except.ok.injEq]
        constructor
        · intro heq
          subst heq
          exact ⟨b, cs, rfl, hcs, rfl⟩
        · intro hres
          rcases hres with ⟨_, ds, rfl, hds, rfl⟩
          rw [← ih, has] at hds
          cases hds
          rfl

/-- Elements that each have a result have a list of results. -/
theorem exists_forall₂ {α β : Type} {R : α → β → Prop} {as : List α}
    (h : ∀ a ∈ as, ∃ b, R a b) : ∃ bs, List.Forall₂ R as bs := by
  induction as with
  | nil => exact ⟨[], .nil⟩
  | cons a as ih =>
    obtain ⟨b, hb⟩ := h a List.mem_cons_self
    obtain ⟨bs, hbs⟩ := ih fun a ha => h a (List.mem_cons_of_mem _ ha)
    exact ⟨b :: bs, .cons hb hbs⟩

/-- Lists that agree element by element have the same images. -/
theorem map_eq_of_forall₂ {α β γ : Type} {R : α → β → Prop} {as : List α} {bs : List β}
    (h : List.Forall₂ R as bs) {f : α → γ} {g : β → γ} (agree : ∀ a b, R a b → f a = g b) :
    as.map f = bs.map g := by
  induction h with
  | nil => rfl
  | cons hab _ ih => rw [List.map_cons, List.map_cons, agree _ _ hab, ih]

/-- A result is the result of the element at its position. -/
theorem exists_of_getElem?_forall₂ {α β : Type} {R : α → β → Prop} {as : List α} {bs : List β}
    (h : List.Forall₂ R as bs) {k : Nat} {b : β} (hb : bs[k]? = some b) :
    ∃ a, as[k]? = some a ∧ R a b := by
  obtain ⟨hk, rfl⟩ := List.getElem?_eq_some_iff.1 hb
  obtain ⟨hlength, hat⟩ := List.forall₂_iff_get.1 h
  have hk' : k < as.length := hlength ▸ hk
  exact ⟨as[k], List.getElem?_eq_getElem hk', hat k hk' hk⟩

/-- Every result is the result of an element. -/
theorem exists_of_mem_forall₂ {α β : Type} {R : α → β → Prop} {as : List α} {bs : List β}
    (h : List.Forall₂ R as bs) {b : β} (hb : b ∈ bs) : ∃ a ∈ as, R a b := by
  obtain ⟨k, hk⟩ := List.mem_iff_getElem?.1 hb
  obtain ⟨a, ha, hR⟩ := exists_of_getElem?_forall₂ h hk
  exact ⟨a, List.mem_of_getElem? ha, hR⟩

/-- A walk along a list that has come to a position is at the entry there. -/
theorem of_drop_eq_cons {α : Type} {as rest : List α} {a : α} {i : Nat}
    (h : as.drop i = a :: rest) : as[i]? = some a ∧ as.drop (i + 1) = rest := by
  constructor
  · rw [← List.head?_drop, h, List.head?_cons]
  · rw [← List.drop_drop, h, List.drop_one, List.tail_cons]

/-- What holds of a list with one more entry. -/
theorem forall_mem_concat {α : Type} {p : α → Prop} {as : List α} {a : α} :
    (∀ b ∈ as ++ [a], p b) ↔ (∀ b ∈ as, p b) ∧ p a := by
  rw [List.forall_mem_append, List.forall_mem_singleton]

/-- The entries of a list with one more entry. -/
theorem of_getElem?_concat {α : Type} {as : List α} {a b : α} {k : Nat}
    (h : (as ++ [a])[k]? = some b) : as[k]? = some b ∨ k = as.length ∧ b = a := by
  rcases Nat.lt_or_ge k as.length with hk | hk
  · rw [List.getElem?_append_left hk] at h
    exact .inl h
  · rw [List.getElem?_append_right hk, List.getElem?_singleton] at h
    split at h
    · cases h
      exact .inr ⟨by omega, rfl⟩
    · cases h

namespace Step

variable {σ τ α β : Type}

/-- The step returns `a` from `s` and leaves the state `t`. -/
def Yields (x : Step σ α) (s : σ) (a : α) (t : σ) : Prop :=
  (x.run s).result = .ok a ∧ (x.run s).state = t

/-- The step returns from `s`, and what it reaches satisfies `post`. -/
def Ensures (x : Step σ α) (s : σ) (post : α → σ → Prop) : Prop :=
  ∃ a t, x.Yields s a t ∧ post a t

/-- Whatever the step reaches from `s` by returning satisfies `post`. -/
def Permits (x : Step σ α) (s : σ) (post : α → σ → Prop) : Prop :=
  ∀ a t, x.Yields s a t → post a t

theorem yields_iff_ensures {x : Step σ α} {s t : σ} {a : α} :
    x.Yields s a t ↔ x.Ensures s fun b u => b = a ∧ u = t := by
  constructor
  · intro h
    exact ⟨a, t, h, rfl, rfl⟩
  · intro hx
    rcases hx with ⟨_, _, h, rfl, rfl⟩
    exact h

/-- A step returns one value and one state. -/
theorem Yields.unique {x : Step σ α} {s t u : σ} {a b : α} (h : x.Yields s a t)
    (h' : x.Yields s b u) : a = b ∧ t = u := by
  constructor
  · exact Except.ok.inj (h.1.symm.trans h'.1)
  · exact h.2.symm.trans h'.2

theorem Ensures.mono {x : Step σ α} {s : σ} {post post' : α → σ → Prop}
    (h : x.Ensures s post) (imp : ∀ a t, post a t → post' a t) : x.Ensures s post' := by
  rcases h with ⟨a, t, hx, hp⟩
  exact ⟨a, t, hx, imp a t hp⟩

theorem Permits.mono {x : Step σ α} {s : σ} {post post' : α → σ → Prop}
    (h : x.Permits s post) (imp : ∀ a t, post a t → post' a t) : x.Permits s post' :=
  fun a t hx => imp a t (h a t hx)

/-! ## Sequencing -/

theorem yields_bind {x : Step σ α} {f : α → Step σ β} {s u : σ} {b : β} :
    (x >>= f).Yields s b u ↔ ∃ a t, x.Yields s a t ∧ (f a).Yields t b u := by
  constructor
  · intro hx
    rcases hx with ⟨hr, hs⟩
    obtain ⟨a, ha, hb⟩ := ok_of_bind_ok hr
    refine ⟨a, (x.run s).state, ⟨ha, rfl⟩, hb, ?_⟩
    rw [run_bind, Outcome.andThen, ha] at hs
    exact hs
  · intro hx
    rcases hx with ⟨a, t, ⟨ha, rfl⟩, hb, hu⟩
    constructor
    · rw [run_bind, Outcome.andThen, ha]
      exact hb
    · rw [run_bind, Outcome.andThen, ha]
      exact hu

/-- Reading the state first changes nothing. -/
theorem yields_read_bind {f : σ → Step σ β} {s u : σ} {b : β} :
    (read >>= f).Yields s b u ↔ (f s).Yields s b u :=
  Iff.rfl

@[simp] theorem ensures_bind {x : Step σ α} {f : α → Step σ β} {s : σ}
    {post : β → σ → Prop} :
    (x >>= f).Ensures s post ↔ x.Ensures s fun a t => (f a).Ensures t post := by
  constructor
  · intro hx
    rcases hx with ⟨b, u, h, hp⟩
    obtain ⟨a, t, hx, hf⟩ := yields_bind.1 h
    exact ⟨a, t, hx, b, u, hf, hp⟩
  · intro hx
    rcases hx with ⟨a, t, hx, b, u, hf, hp⟩
    exact ⟨b, u, yields_bind.2 ⟨a, t, hx, hf⟩, hp⟩

@[simp] theorem permits_bind {x : Step σ α} {f : α → Step σ β} {s : σ}
    {post : β → σ → Prop} :
    (x >>= f).Permits s post ↔ x.Permits s fun a t => (f a).Permits t post := by
  constructor
  · intro h a t hx b u hf
    exact h b u (yields_bind.2 ⟨a, t, hx, hf⟩)
  · intro h b u hb
    obtain ⟨a, t, hx, hf⟩ := yields_bind.1 hb
    exact h a t hx b u hf

/-- The state reached does not depend on what is made of the value. -/
theorem state_map (f : α → β) (x : Step σ α) (s : σ) :
    ((f <$> x).run s).state = (x.run s).state := by
  show ((x s).andThen fun a s => ⟨s, [], .ok (f a)⟩).state = (x s).state
  unfold Outcome.andThen
  split <;> rfl

@[simp] theorem ensures_map {x : Step σ α} {f : α → β} {s : σ} {post : β → σ → Prop} :
    (f <$> x).Ensures s post ↔ x.Ensures s fun a t => post (f a) t := by
  rw [← bind_pure_comp, ensures_bind]
  constructor
  · intro h
    apply h.mono
    intro a t ht
    rcases ht with ⟨_, _, ⟨hb, rfl⟩, hp⟩
    cases hb
    exact hp
  · intro h
    exact h.mono fun a t hp => ⟨f a, t, ⟨rfl, rfl⟩, hp⟩

@[simp] theorem permits_map {x : Step σ α} {f : α → β} {s : σ} {post : β → σ → Prop} :
    (f <$> x).Permits s post ↔ x.Permits s fun a t => post (f a) t := by
  rw [← bind_pure_comp, permits_bind]
  constructor
  · intro h a t hx
    exact h a t hx (f a) t ⟨rfl, rfl⟩
  · intro h a t hx _ _ hpure
    rcases hpure with ⟨hb, rfl⟩
    cases hb
    exact h a t hx

@[simp] theorem ensures_discard {x : Step σ α} {s : σ} {post : Unit → σ → Prop} :
    (discard x).Ensures s post ↔ x.Ensures s fun _ => post () := by
  have h : (discard x : Step σ Unit) = (fun _ => ()) <$> x := rfl
  rw [h, ensures_map]

@[simp] theorem permits_discard {x : Step σ α} {s : σ} {post : Unit → σ → Prop} :
    (discard x).Permits s post ↔ x.Permits s fun _ => post () := by
  have h : (discard x : Step σ Unit) = (fun _ => ()) <$> x := rfl
  rw [h, permits_map]

/-! ## Single steps -/

variable {s : σ} {post : α → σ → Prop} {post' : Unit → σ → Prop}

/-- A step whose outcome is known ensures just what holds of it. -/
theorem ensures_of_run {x : Step σ α} {t : σ} {journal : List Notice} {a : α}
    (h : x.run s = ⟨t, journal, .ok a⟩) : x.Ensures s post ↔ post a t := by
  have hx : x.Yields s a t := by simp [Yields, h]
  constructor
  · intro hens
    rcases hens with ⟨b, u, hb, hp⟩
    obtain ⟨rfl, rfl⟩ := hx.unique hb
    exact hp
  · intro hp
    exact ⟨a, t, hx, hp⟩

theorem permits_of_run {x : Step σ α} {t : σ} {journal : List Notice} {a : α}
    (h : x.run s = ⟨t, journal, .ok a⟩) : x.Permits s post ↔ post a t := by
  have hx : x.Yields s a t := by simp [Yields, h]
  constructor
  · intro hp
    exact hp a t hx
  · intro hp b u hb
    obtain ⟨rfl, rfl⟩ := hx.unique hb
    exact hp

/-- A step that stops returns nothing. -/
theorem not_yields_of_run {x : Step σ α} {t u : σ} {journal : List Notice} {stop : Stop}
    {a : α} (h : x.run s = ⟨t, journal, .error stop⟩) : ¬ x.Yields s a u := by
  intro hy
  rcases hy with ⟨hr, -⟩
  rw [h] at hr
  cases hr

@[simp] theorem ensures_pure {a : α} : (pure a : Step σ α).Ensures s post ↔ post a s :=
  ensures_of_run (run_pure a)

@[simp] theorem permits_pure {a : α} : (pure a : Step σ α).Permits s post ↔ post a s :=
  permits_of_run (run_pure a)

@[simp] theorem ensures_read {post : σ → σ → Prop} :
    (read : Step σ σ).Ensures s post ↔ post s s :=
  ensures_of_run run_read

@[simp] theorem permits_read {post : σ → σ → Prop} :
    (read : Step σ σ).Permits s post ↔ post s s :=
  permits_of_run run_read

@[simp] theorem ensures_write {t : σ} : (write t).Ensures s post' ↔ post' () t :=
  ensures_of_run (run_write t)

@[simp] theorem permits_write {t : σ} : (write t).Permits s post' ↔ post' () t :=
  permits_of_run (run_write t)

@[simp] theorem ensures_modify {f : σ → σ} : (modify f).Ensures s post' ↔ post' () (f s) :=
  ensures_of_run (run_modify f)

@[simp] theorem permits_modify {f : σ → σ} : (modify f).Permits s post' ↔ post' () (f s) :=
  permits_of_run (run_modify f)

@[simp] theorem ensures_note {n : Notice} :
    (note n : Step σ Unit).Ensures s post' ↔ post' () s :=
  ensures_of_run (run_note n)

@[simp] theorem permits_note {n : Notice} :
    (note n : Step σ Unit).Permits s post' ↔ post' () s :=
  permits_of_run (run_note n)

@[simp] theorem ensures_onlyIf_false {x : Step σ Unit} :
    (onlyIf false x).Ensures s post' ↔ post' () s :=
  ensures_of_run (run_onlyIf_false x)

@[simp] theorem ensures_onlyIf_true {x : Step σ Unit} :
    (onlyIf true x).Ensures s post' ↔ x.Ensures s post' :=
  Iff.rfl

@[simp] theorem permits_onlyIf {c : Bool} {x : Step σ Unit} :
    (onlyIf c x).Permits s post' ↔
      (c = true → x.Permits s post') ∧ (c = false → post' () s) := by
  cases c with
  | false => simp [onlyIf]
  | true => simp [onlyIf]

@[simp] theorem permits_fail {e : Error} : (fail e : Step σ α).Permits s post :=
  fun _ _ h => (not_yields_of_run (run_fail e) h).elim

/-- An update that is no fault. -/
theorem ensures_update {f : σ → Except Fault σ} :
    (update f).Ensures s post' ↔ ∃ t, f s = .ok t ∧ post' () t := by
  cases h : f s with
  | ok t => simpa using ensures_of_run (run_update_of_ok h)
  | error fault =>
    simp only [reduceCtorEq, false_and, exists_false, iff_false]
    intro hens
    rcases hens with ⟨_, _, hy, -⟩
    exact not_yields_of_run (run_update_of_error h) hy

@[simp] theorem permits_update {f : σ → Except Fault σ} :
    (update f).Permits s post' ↔ ∀ t, f s = .ok t → post' () t := by
  cases h : f s with
  | ok t => simpa using permits_of_run (run_update_of_ok h)
  | error fault =>
    simp only [reduceCtorEq, false_implies, implies_true, iff_true]
    exact fun _ _ hy => (not_yields_of_run (run_update_of_error h) hy).elim

theorem ensures_ofFault {e : Except Fault α} :
    (ofFault e : Step σ α).Ensures s post ↔ ∃ a, e = .ok a ∧ post a s := by
  cases e with
  | ok a => simpa using ensures_of_run (run_ofFault_ok a)
  | error fault =>
    simp only [reduceCtorEq, false_and, exists_false, iff_false]
    intro hens
    rcases hens with ⟨_, _, hy, -⟩
    exact not_yields_of_run (run_ofFault_error fault) hy

@[simp] theorem permits_ofFault {e : Except Fault α} :
    (ofFault e : Step σ α).Permits s post ↔ ∀ a, e = .ok a → post a s := by
  cases e with
  | ok a => simpa using permits_of_run (run_ofFault_ok a)
  | error fault =>
    simp only [reduceCtorEq, false_implies, implies_true, iff_true]
    exact fun _ _ hy => (not_yields_of_run (run_ofFault_error fault) hy).elim

theorem ensures_ofError {e : Except Error α} :
    (ofError e : Step σ α).Ensures s post ↔ ∃ a, e = .ok a ∧ post a s := by
  cases e with
  | ok a => simpa using ensures_of_run (run_ofError_ok a)
  | error error =>
    simp only [reduceCtorEq, false_and, exists_false, iff_false]
    intro hens
    rcases hens with ⟨_, _, hy, -⟩
    exact not_yields_of_run (run_ofError_error error) hy

@[simp] theorem permits_ofError {e : Except Error α} :
    (ofError e : Step σ α).Permits s post ↔ ∀ a, e = .ok a → post a s := by
  cases e with
  | ok a => simpa using permits_of_run (run_ofError_ok a)
  | error error =>
    simp only [reduceCtorEq, false_implies, implies_true, iff_true]
    exact fun _ _ hy => (not_yields_of_run (run_ofError_error error) hy).elim

/-! ## Parts of the state, and loops -/

@[simp] theorem ensures_zoom {get : τ → σ} {put : σ → τ → τ} {x : Step σ α} {t : τ}
    {post : α → τ → Prop} :
    (zoom get put x).Ensures t post ↔ x.Ensures (get t) fun a s => post a (put s t) := by
  constructor
  · intro hens
    rcases hens with ⟨a, _, ⟨hr, rfl⟩, hp⟩
    exact ⟨a, _, ⟨hr, rfl⟩, hp⟩
  · intro hens
    rcases hens with ⟨a, _, ⟨hr, rfl⟩, hp⟩
    exact ⟨a, _, ⟨hr, rfl⟩, hp⟩

@[simp] theorem permits_zoom {get : τ → σ} {put : σ → τ → τ} {x : Step σ α} {t : τ}
    {post : α → τ → Prop} :
    (zoom get put x).Permits t post ↔ x.Permits (get t) fun a s => post a (put s t) := by
  constructor
  · intro h a _ hx
    rcases hx with ⟨hr, rfl⟩
    exact h a _ ⟨hr, rfl⟩
  · intro h a _ hx
    rcases hx with ⟨hr, rfl⟩
    exact h a _ ⟨hr, rfl⟩

/-- A step on a state of its own leaves the state around it alone. -/
@[simp] theorem ensures_fresh {x : Step σ α} {t : τ} {post : α × σ → τ → Prop} :
    (fresh s x : Step τ (α × σ)).Ensures t post ↔ x.Ensures s fun a u => post (a, u) t := by
  have hrun : ((fresh s x : Step τ (α × σ)).run t).result =
      (x.run s).result.map fun a => (a, (x.run s).state) := rfl
  constructor
  · intro hens
    rcases hens with ⟨b, _, ⟨hr, rfl⟩, hp⟩
    cases hx : (x.run s).result with
    | error stop => rw [hrun, hx] at hr; cases hr
    | ok a =>
      rw [hrun, hx] at hr
      cases hr
      exact ⟨a, _, ⟨hx, rfl⟩, hp⟩
  · intro hens
    rcases hens with ⟨a, _, ⟨hr, rfl⟩, hp⟩
    exact ⟨(a, _), t, ⟨by rw [hrun, hr]; rfl, rfl⟩, hp⟩

@[simp] theorem permits_fresh {x : Step σ α} {t : τ} {post : α × σ → τ → Prop} :
    (fresh s x : Step τ (α × σ)).Permits t post ↔ x.Permits s fun a u => post (a, u) t := by
  constructor
  · intro h a u hx
    exact h (a, u) t (yields_iff_ensures.2 (ensures_fresh.2 ⟨a, u, hx, rfl, rfl⟩))
  · intro h b u hb
    obtain ⟨a, _, hx, rfl, rfl⟩ := ensures_fresh.1 (yields_iff_ensures.1 hb)
    exact h a _ hx

/-- A loop over two lists is a loop over the one and then over the other. -/
theorem forEach_append (f : α → Step σ Unit) (as bs : List α) :
    forEach f (as ++ bs) = forEach f as >>= fun _ => forEach f bs := by
  induction as with
  | nil => rw [List.nil_append, forEach, pure_bind]
  | cons a as ih => rw [List.cons_append, forEach, forEach, ih, bind_assoc]

/-- A loop ensures what each round keeps, said of the elements still to come. -/
theorem Ensures.forEach {f : α → Step σ Unit} (inv : List α → σ → Prop)
    (round : ∀ a rest s, inv (a :: rest) s → (f a).Ensures s fun _ => inv rest) :
    ∀ {l : List α} {s : σ}, inv l s → (forEach f l).Ensures s fun _ => inv [] := by
  intro l
  induction l with
  | nil =>
    intro s h
    exact ensures_pure.2 h
  | cons a rest ih =>
    intro s h
    exact ensures_bind.2 ((round a rest s h).mono fun _ _ ht => ih ht)

/-- A loop permits what each round keeps. -/
theorem Permits.forEach {f : α → Step σ Unit} (inv : σ → Prop)
    (round : ∀ a s, inv s → (f a).Permits s fun _ => inv) :
    ∀ {l : List α} {s : σ}, inv s → (forEach f l).Permits s fun _ => inv := by
  intro l
  induction l with
  | nil =>
    intro s h
    exact permits_pure.2 h
  | cons a rest ih =>
    intro s h
    exact permits_bind.2 ((round a s h).mono fun _ _ ht => ih ht)

end Step

end FrameSchedule
