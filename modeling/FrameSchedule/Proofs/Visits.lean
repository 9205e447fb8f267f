import FrameSchedule.Plan
import FrameSchedule.Proofs.Graphs

/-!
# What a walk does scope by scope

A scope of the walk is set apart behind what was gathered, starts a gathering behind it, or
joins it (`Merge.Visited`).  It joins only where no rule keeps it out.  What every visit keeps,
the walk over a frame keeps up to the close of its last gathering (`Merge.ofScopes_visits`).
-/

namespace FrameSchedule

namespace Merge

variable {g : Graph} {i : Nat} {m m' : Merge} {previous? next? : Option PlacedScope}
  {inv : Nat → Merge → Prop}

/-- What a visit of the scope at a position makes of a walk.  The scope is entered into the
ledger when what may not take it in has been closed. -/
inductive Visited (position : Nat) (previous? next? : Option PlacedScope) (t : SitedScope)
    (m : Merge) : Merge → Prop
  | apart {m₁ : Merge} (lists : UInt32) :
    (enter position previous? t.toPlacedScope).Yields m.close () m₁ →
    (∃ w, t.weight = .ok w ∧ w.lists = .ok lists) →
    Visited position previous? next? t m (m₁.pushSplit position t.toPlacedScope lists)
  | first {m₁ : Merge} (cost swapchains : UInt32) :
    (enter position previous? t.toPlacedScope).Yields m.close () m₁ →
    t.inSubpass previous? next? = false →
    (∃ w, t.weight = .ok w ∧ w.heavy = false) →
    Visited position previous? next? t m { m₁ with
      gathering? := some ⟨position, [t.toPlacedScope], cost, swapchains, t.queue, t.device⟩ }
  | join {m₁ : Merge} (cost swapchains : UInt32) {q : Gathering} :
    (enter position previous? t.toPlacedScope).Yields m () m₁ →
    m.gathering? = some q → t.inSubpass previous? next? = false → q.queue = t.queue →
    q.device = t.device → t.sync.hasWaits = false → previous?.any (·.sync.hasSignals) = false →
    (∃ w, t.weight = .ok w ∧ w.heavy = false) →
    Visited position previous? next? t m { m₁ with
      gathering? := some ⟨q.start, q.members ++ [t.toPlacedScope], cost, swapchains, q.queue,
        q.device⟩ }

/-- The ledger is what an entry makes of it after a scope has been entered, and all else is as
before. -/
theorem enter_permits_of {m : Merge} {position : Nat} {previous? : Option PlacedScope}
    {scope : PlacedScope} {post : Ledger → Prop} (h : ∀ l, m.ledger? = some l →
      (Ledger.enter position previous? scope).Permits l fun _ => post) :
    (Merge.enter position previous? scope).Permits m fun _ m' =>
      (∃ ledger?, m' = { m with ledger? := ledger? } ∧ ledger?.isSome = m.ledger?.isSome) ∧
        ∀ l, m'.ledger? = some l → post l := by
  unfold Merge.enter
  rw [Step.permits_bind, Step.permits_read]
  cases hl : m.ledger? with
  | none =>
    refine Step.permits_pure.2 ⟨⟨m.ledger?, rfl, by rw [hl]⟩, fun l hsome => ?_⟩
    rw [hl] at hsome
    cases hsome
  | some l =>
    rw [Step.permits_zoom]
    refine (h l hl).mono fun _ l' hl' => ⟨⟨some l', rfl, rfl⟩, fun l'' hl'' => ?_⟩
    cases hl''
    exact hl'

/-- Only the ledger is new after a scope has been entered. -/
theorem enter_permits (position : Nat) (previous? : Option PlacedScope) (s : PlacedScope)
    (m : Merge) :
    (enter position previous? s).Permits m fun _ m' =>
      ∃ ledger?, m' = { m with ledger? := ledger? } :=
  (enter_permits_of fun _ _ _ _ _ => trivial).mono fun _ _ h => h.1.imp fun _ h => h.1

theorem close_of_none (h : m.gathering? = none) : m.close = m := by
  simp [close, h]

theorem close_of_some {q : Gathering} (h : m.gathering? = some q) :
    m.close = { m with
      drafts := m.drafts ++ [⟨.primary, q.start, q.members, m.handle?⟩]
      gathering? := none } := by
  simp [close, h]

theorem gathering?_close (m : Merge) : m.close.gathering? = none := by
  unfold close
  split
  · assumption
  · rfl

theorem ledger?_close (m : Merge) : m.close.ledger? = m.ledger? := by
  unfold close
  split <;> rfl

/-- A visit makes of the ledger what an entry makes of it. -/
theorem Visited.ledger {position : Nat} {previous? next? : Option PlacedScope} {t : SitedScope}
    {m m' : Merge} (hvisited : Visited position previous? next? t m m') {post : Ledger → Prop}
    (h : ∀ l, m.ledger? = some l →
      (Ledger.enter position previous? t.toPlacedScope).Permits l fun _ => post) :
    m'.ledger?.isSome = m.ledger?.isSome ∧ ∀ l, m'.ledger? = some l → post l := by
  have hclosed := h
  rw [← ledger?_close m] at hclosed
  cases hvisited with
  | apart _ henter =>
    obtain ⟨⟨ledger?, rfl, hsome⟩, hpost⟩ := enter_permits_of hclosed () _ henter
    rw [ledger?_close] at hsome
    exact ⟨hsome, hpost⟩
  | first _ _ henter =>
    obtain ⟨⟨ledger?, rfl, hsome⟩, hpost⟩ := enter_permits_of hclosed () _ henter
    rw [ledger?_close] at hsome
    exact ⟨hsome, hpost⟩
  | join _ _ henter =>
    obtain ⟨⟨ledger?, rfl, hsome⟩, hpost⟩ := enter_permits_of h () _ henter
    exact ⟨hsome, hpost⟩

/-- A gathering stays open only before a scope that no rule keeps out. -/
theorem closeBefore_permits (previous? : Option PlacedScope) (t : SitedScope) (w : Weight)
    (isolate : Bool) (m : Merge) :
    (closeBefore previous? t w isolate).Permits m fun _ m' => m' = m.close ∨
      m' = m ∧ isolate = false ∧ ∃ q, m.gathering? = some q ∧ q.queue = t.queue ∧
        q.device = t.device ∧ t.sync.hasWaits = false ∧
          previous?.any (·.sync.hasSignals) = false := by
  unfold closeBefore
  rw [Step.permits_bind, Step.permits_read]
  cases hq : m.gathering? with
  | none => exact Step.permits_pure.2 (.inl (close_of_none hq).symm)
  | some q =>
    rw [Step.permits_bind, Step.permits_ofFault]
    intro boundary hboundary
    unfold closeAt
    rw [Step.permits_onlyIf, Step.permits_bind, Step.permits_note, Step.permits_modify]
    constructor
    · exact fun _ => .inl rfl
    · intro hnone
      unfold Gathering.boundary at hboundary
      cases hsum : Count.add q.swapchains w.swapchains with
      | error fault => rw [hsum] at hboundary; cases hboundary
      | ok n =>
        rw [hsum] at hboundary
        cases hboundary
        simp only [Boundary.any, Bool.or_eq_false_iff, decide_eq_false_iff_not, not_not] at hnone
        obtain ⟨⟨⟨⟨-, hqueue⟩, hdevice⟩, hwaits, hsignals⟩, hisolate⟩ := hnone
        exact .inr ⟨rfl, hisolate, q, rfl, hqueue, hdevice, hwaits, hsignals⟩

/-- **All that a visit does.** -/
theorem visit_permits (position : Nat) (previous? next? : Option PlacedScope) (t : SitedScope)
    (m : Merge) :
    (visit position previous? next? t).Permits m fun _ => Visited position previous? next? t m := by
  unfold visit
  rw [Step.permits_bind, Step.permits_ofFault]
  intro w hweight
  generalize hisolate : (t.inSubpass previous? next? || w.heavy) = isolate
  rw [Step.permits_bind]
  refine (closeBefore_permits previous? t w isolate m).mono fun _ m₁ h₁ => ?_
  rw [Step.permits_bind]
  intro _ m₂ henter
  obtain ⟨ledger?, rfl⟩ := enter_permits position previous? t.toPlacedScope m₁ () m₂ henter
  cases isolate with
  | true =>
    obtain rfl : m₁ = m.close := h₁.resolve_right fun hopen => Bool.false_ne_true hopen.2.1.symm
    rw [if_pos rfl, setApart, Step.permits_bind, Step.permits_ofFault]
    intro lists hlists
    rw [Step.permits_bind, Step.permits_note, Step.permits_modify]
    exact .apart lists henter ⟨w, hweight, hlists⟩
  | false =>
    obtain ⟨hsubpass, hlight⟩ := Bool.or_eq_false_iff.1 hisolate
    rw [if_neg Bool.false_ne_true, gather, Step.permits_bind, Step.permits_update]
    intro m₃ hm₃
    rw [Step.permits_note]
    obtain ⟨q', hq', rfl⟩ := exists_of_map_eq_ok hm₃
    unfold Gathering.join at hq'
    obtain ⟨n, -, rfl⟩ := exists_of_map_eq_ok hq'
    rcases h₁ with rfl | ⟨rfl, -, q, hq, hqueue, hdevice, hwaits, hsignals⟩
    · simp only [gatheringFor, gathering?_close, Option.getD_none, List.nil_append]
      exact .first _ n henter hsubpass ⟨w, hweight, hlight⟩
    · simp only [gatheringFor, hq, Option.getD_some]
      exact .join _ n henter hq hsubpass hqueue hdevice hwaits hsignals ⟨w, hweight, hlight⟩

/-! ## Walks -/

/-- What every visit of a scope with a profile keeps, the walk from a position on keeps. -/
theorem walk_visits {sited : SitedScope → Prop}
    (hvisit : ∀ i m m' t, i < g.scopes.length → t.toPlacedScope = g.scopeAt i → sited t →
      inv i m → Visited i (g.before i) g.scopes[i + 1]? t m m' → inv (i + 1) m')
    {ts : List SitedScope} (hts : ts.map (·.toPlacedScope) = g.scopes.drop i)
    (hsited : ∀ t ∈ ts, sited t) (h : inv i m) (hi : i ≤ g.scopes.length) :
    (walk i (g.before i) ts).Permits m fun _ m' =>
      ∃ m₁, inv g.scopes.length m₁ ∧ m' = m₁.close := by
  induction ts generalizing i m with
  | nil =>
    obtain rfl : i = g.scopes.length := Nat.le_antisymm hi (List.drop_eq_nil_iff.1 hts.symm)
    unfold walk
    rw [Step.permits_modify]
    exact ⟨m, h, rfl⟩
  | cons t ts ih =>
    obtain ⟨hlt, ht, hbefore, hdrop⟩ := Graph.of_scopes_drop hts.symm
    obtain ⟨hfirst, hrest⟩ := List.forall_mem_cons.1 hsited
    have hnext : ts.head?.map (·.toPlacedScope) = g.scopes[i + 1]? := by
      rw [← List.head?_map, ← hdrop, List.head?_drop]
    unfold walk
    rw [Step.permits_bind, ← hbefore, hnext]
    exact (visit_permits i (g.before i) g.scopes[i + 1]? t m).mono fun _ m' h' =>
      ih hdrop.symm hrest (hvisit i m m' t hlt ht.symm hfirst h h') hlt

/-- **What every visit keeps**, the walk over a frame keeps, -/
theorem ofScopes_visits_of (sited : SitedScope → Prop) (inv : Nat → Merge → Prop)
    (hvisit : ∀ i m m' t, i < g.scopes.length → t.toPlacedScope = g.scopeAt i → sited t →
      inv i m → Visited i (g.before i) g.scopes[i + 1]? t m m' → inv (i + 1) m')
    {ts : List SitedScope} (hts : ts.map (·.toPlacedScope) = g.scopes)
    (hsited : ∀ t ∈ ts, sited t) (h : inv 0 (initial ts)) {σ : Type} {s : σ} :
    (ofScopes ts : Step σ Merge).Permits s fun m _ =>
      ∃ m₁, inv g.scopes.length m₁ ∧ m = m₁.close := by
  unfold ofScopes
  rw [Step.permits_map, Step.permits_fresh]
  exact walk_visits hvisit hts hsited h (Nat.zero_le _)

/-- whatever the profiles of the scopes are. -/
theorem ofScopes_visits (inv : Nat → Merge → Prop)
    (hvisit : ∀ i m m' t, i < g.scopes.length → t.toPlacedScope = g.scopeAt i → inv i m →
      Visited i (g.before i) g.scopes[i + 1]? t m m' → inv (i + 1) m')
    {ts : List SitedScope} (hts : ts.map (·.toPlacedScope) = g.scopes) (h : inv 0 (initial ts))
    {σ : Type} {s : σ} :
    (ofScopes ts : Step σ Merge).Permits s fun m _ =>
      ∃ m₁, inv g.scopes.length m₁ ∧ m = m₁.close :=
  ofScopes_visits_of (fun _ => True) inv
    (fun i m m' t hi ht _ => hvisit i m m' t hi ht) hts (fun _ _ => trivial) h

end Merge

end FrameSchedule
