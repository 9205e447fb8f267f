import FrameSchedule.Proofs.Signals
import FrameSchedule.Proofs.Trackers

/-!
# When presentations are released

A presentation is released when its tracker is satisfied.  The handlers cut the frame into
parts, and send what their own scopes account for.  A tracker requires what all scopes of
the epochs up to its own account for, so the handlers before the cursor can satisfy it only
if they own every such scope that has signals (`Live.Tracks.lt_cursor_of_satisfied`).

Without refusals this says when the first tracker is satisfied, and bounds the others
(`Scheduler.released_exactly`).  A batch that is refused sends nothing; but trackers only
count, and a handler behind the presentation signals its tracker as well.  So a presentation
can be released without a batch it depends on, when one behind it makes up for its signals
(`Scheduler.released_without_batch`), and in no other way
(`Scheduler.released_after_offers`).
-/

namespace FrameSchedule

/-! ## What handlers own -/

/-- The sum of a measure over the scopes of a group. -/
def Group.sumOf (measure : Nat → Nat) (G : Group) : Nat :=
  ∑ j ∈ Finset.Ico G.start G.stop, measure j

theorem Group.sum_of_tile {a b : Nat} {gs : List Group} (measure : Nat → Nat)
    (h : Span.Tile a b (gs.map Group.span)) :
    (gs.map (sumOf measure)).sum = ∑ j ∈ Finset.Ico a b, measure j := by
  induction gs generalizing a with
  | nil =>
    obtain rfl : a = b := h
    simp
  | cons G gs ih =>
    rcases h with ⟨rfl, hlt, hrest⟩
    rw [List.map_cons, List.sum_cons, ih hrest]
    exact Finset.sum_Ico_consecutive measure (Nat.le_of_lt hlt) hrest.le

namespace Handler

variable {h : Handler} {j : Nat} {measure : Nat → Nat}

/-- The scope at a position is one of the handler's. -/
def Owns (h : Handler) (j : Nat) : Prop :=
  ∃ G ∈ h.groups, G.start ≤ j ∧ j < G.stop

/-- The sum of a measure over the scopes of a handler. -/
def sumOf (measure : Nat → Nat) (h : Handler) : Nat :=
  (h.groups.map (Group.sumOf measure)).sum

theorem Owns.sumOf_pos (howns : h.Owns j) (hpos : 0 < measure j) : 0 < h.sumOf measure := by
  rcases howns with ⟨G, hG, hle, hlt⟩
  have hscope : measure j ≤ G.sumOf measure :=
    Finset.single_le_sum (fun _ _ => Nat.zero_le _) (Finset.mem_Ico.2 ⟨hle, hlt⟩)
  have hgroup := List.single_le_sum (fun n _ => Nat.zero_le n) _
    (List.mem_map_of_mem (f := Group.sumOf measure) hG)
  exact Nat.lt_of_lt_of_le hpos (Nat.le_trans hscope hgroup)

theorem sumOf_congr {measure' : Nat → Nat} (heq : ∀ j, h.Owns j → measure j = measure' j) :
    h.sumOf measure = h.sumOf measure' := by
  refine congrArg List.sum (List.map_congr_left fun G hG => Finset.sum_congr rfl fun j hj => ?_)
  exact heq j ⟨G, hG, Finset.mem_Ico.1 hj⟩

/-- A tracker gets at most all signals. -/
theorem sentTo_le (k : Nat) (hs : List Handler) : sentTo k hs ≤ (hs.map (·.signals)).sum :=
  (List.filter_sublist.map _).sum_le_sum fun n _ => Nat.zero_le n

end Handler

namespace Plan

variable {p : Plan} {g : Graph} {planned : Chain} {H : Handler} {n j k position : Nat}

/-- The handlers before a position own the scopes before a position. -/
theorem Formed.exists_cut (formed : p.Formed) (tile : Span.Tile 0 n (p.groups.map Group.span))
    (c : Nat) : ∃ m ≤ n,
      (∀ measure, ((p.handlers.take c).map (Handler.sumOf measure)).sum =
        ∑ j ∈ Finset.range m, measure j) ∧
      ∀ (position : Nat) (H : Handler) (j : Nat), p.handlers[position]? = some H → H.Owns j →
        (j < m ↔ position < c) := by
  have hsplit : p.groups = (p.handlers.take c).flatMap (·.groups) ++
      (p.handlers.drop c).flatMap (·.groups) := by
    rw [← List.flatMap_append, List.take_append_drop, formed.flatMap_groups]
  rw [hsplit, List.map_append] at tile
  obtain ⟨m, hfirst, hrest⟩ := tile.of_append
  refine ⟨m, hrest.le, fun measure => ?_, fun position H j hH howns => ?_⟩
  · rw [Finset.range_eq_Ico, ← Group.sum_of_tile measure hfirst, List.flatMap, List.map_flatten,
      List.sum_flatten, List.map_map, List.map_map]
    rfl
  · rcases howns with ⟨G, hG, hle, hlt⟩
    by_cases hc : position < c
    · have hmem : H ∈ p.handlers.take c :=
        List.mem_of_getElem? ((List.getElem?_take_of_lt hc).trans hH)
      obtain ⟨-, -, hstop⟩ := hfirst.bounds
        (List.mem_map_of_mem (List.mem_flatMap.2 ⟨H, hmem, hG⟩))
      exact iff_of_true (Nat.lt_of_lt_of_le hlt hstop) hc
    · have hmem : H ∈ p.handlers.drop c := by
        refine List.mem_of_getElem? (i := position - c) ?_
        rw [List.getElem?_drop, Nat.add_sub_cancel' (Nat.le_of_not_lt hc), hH]
      obtain ⟨hstart, -, -⟩ := hrest.bounds
        (List.mem_map_of_mem (List.mem_flatMap.2 ⟨H, hmem, hG⟩))
      exact iff_of_false (Nat.not_lt.2 (Nat.le_trans hstart hle)) hc

/-- Every scope is owned. -/
theorem Formed.exists_owner (formed : p.Formed)
    (tile : Span.Tile 0 n (p.groups.map Group.span)) (hj : j < n) :
    ∃ (position : Nat) (H : Handler), p.handlers[position]? = some H ∧ H.Owns j := by
  obtain ⟨r, hr, hspan⟩ := tile.exists_span (Nat.zero_le j) hj
  obtain ⟨G, hG, rfl⟩ := List.mem_map.1 hr
  obtain ⟨position, H, hH, hmem⟩ := formed.exists_handler hG
  exact ⟨position, H, hH, G, hmem, hspan⟩

namespace Tracked

theorem signals_eq (tracked : p.Tracked g planned) (formed : p.Formed) (hH : H ∈ p.handlers) :
    H.signals = H.sumOf g.account := by
  rw [Handler.signals, Count.total_eq_sum, List.map_map, Handler.sumOf]
  refine congrArg List.sum (List.map_congr_left fun G hG => ?_)
  exact tracked.signals G (formed.mem_groups hH hG)

/-- The first tracker gets all signals. -/
theorem sentTo_zero (tracked : p.Tracked g planned) (formed : p.Formed) {hs : List Handler}
    (hsub : hs.Sublist p.handlers) : Handler.sentTo 0 hs = (hs.map (·.signals)).sum := by
  have hall : ∀ H ∈ hs, H.reaches 0 = true := by
    intro H hH
    have hfirst := formed.mem_groups (hsub.subset hH) List.mem_cons_self
    simp [Handler.reaches, reaches, tracked.handle _ hfirst]
  rw [Handler.sentTo, List.filter_eq_self.2 hall]

theorem lt_of_owns (tracked : p.Tracked g planned) (formed : p.Formed) (hH : H ∈ p.handlers)
    (howns : H.Owns j) : j < g.scopes.length := by
  rcases howns with ⟨G, hG, -, hlt⟩
  obtain ⟨-, -, hstop⟩ := tracked.tile.bounds (List.mem_map_of_mem (formed.mem_groups hH hG))
  exact Nat.lt_of_lt_of_le hlt hstop

end Tracked

end Plan

/-! ## Batches that were accepted -/

namespace Handler

variable {Λ : Type} {hs : List Handler} {rs : List (Receipt Λ)} {H : Handler} {r : Receipt Λ}

theorem mem_acceptedOf (h : H ∈ acceptedOf hs rs) : ∃ (position : Nat) (r : Receipt Λ),
    hs[position]? = some H ∧ rs[position]? = some r ∧ r.accepted = true := by
  obtain ⟨hr, hmem, rfl⟩ := List.mem_map.1 h
  obtain ⟨hzip, haccepted⟩ := List.mem_filter.1 hmem
  obtain ⟨position, hposition⟩ := List.mem_iff_getElem?.1 hzip
  obtain ⟨hfirst, hsecond⟩ := List.getElem?_zip_eq_some.1 hposition
  exact ⟨position, hr.2, hfirst, hsecond, haccepted⟩

/-- A handler whose batch was refused is missing from the sum of the accepted ones. -/
theorem sum_acceptedOf_add_le (measure : Handler → Nat) (hlength : hs.length = rs.length)
    {position : Nat} (hH : hs[position]? = some H) (hr : rs[position]? = some r)
    (hrefused : r.accepted = false) :
    ((acceptedOf hs rs).map measure).sum + measure H ≤ (hs.map measure).sum := by
  induction hs generalizing rs position with
  | nil => cases hH
  | cons H' hs ih =>
    cases rs with
    | nil => cases hr
    | cons r' rs =>
      have hrests : hs.length = rs.length := Nat.succ.inj hlength
      have hcons : acceptedOf (H' :: hs) (r' :: rs) =
          if r'.accepted then H' :: acceptedOf hs rs else acceptedOf hs rs := by
        simp only [acceptedOf, List.zip_cons_cons, List.filter_cons]
        split <;> rfl
      rw [hcons, List.map_cons, List.sum_cons]
      cases position with
      | zero =>
        cases hH
        cases hr
        rw [hrefused, if_neg Bool.false_ne_true, Nat.add_comm]
        refine Nat.add_le_add_left ?_ _
        exact ((acceptedOf_sublist hrests).map measure).sum_le_sum fun n _ => Nat.zero_le n
      | succ position =>
        have hrest := ih hrests hH hr
        split
        · rw [List.map_cons, List.sum_cons]
          omega
        · omega

end Handler

/-- The handler owns a scope that has signals and is one of `which`. -/
def Handler.AccountsFor (g : Graph) (which : Nat → Prop) (h : Handler) : Prop :=
  ∃ j, h.Owns j ∧ which j ∧ 0 < g.account j

namespace Live

variable {σ Λ : Type} {p : Plan} {g : Graph} {l : Live (Receipted σ Λ) Λ} {chain : Chain}
  {H : Handler} {u : Tracker} {position k i j : Nat}

/-- The backend has been handed a batch of the handler at a position. -/
def Offered (l : Live (Receipted σ Λ) Λ) (position : Nat) (H : Handler) : Prop :=
  ∃ r, l.backend.receipts[position]? = some r ∧ H.Offers r

/-- The backend has accepted a batch of the handler at a position. -/
def Accepted (l : Live (Receipted σ Λ) Λ) (position : Nat) (H : Handler) : Prop :=
  ∃ r, l.backend.receipts[position]? = some r ∧ H.Offers r ∧ r.accepted = true

theorem InOrder.offered_iff (h : l.InOrder p) (hH : p.handlers[position]? = some H) :
    l.Offered position H ↔ position < l.frame.cursor := by
  have hlength := h.receipts.length_eq
  rw [List.length_take_of_le h.le] at hlength
  constructor
  · intro hoffered
    rcases hoffered with ⟨r, hr, -⟩
    rw [hlength]
    exact (List.getElem?_eq_some_iff.1 hr).1
  · intro hbefore
    exact exists_of_getElem?_forall₂ h.receipts.flip ((List.getElem?_take_of_lt hbefore).trans hH)

/-- As long as no batch is refused, those that were handed over are accepted. -/
theorem InOrder.accepted_iff (h : l.InOrder p)
    (haccepted : ∀ r ∈ l.backend.receipts, r.accepted = true)
    (hH : p.handlers[position]? = some H) :
    l.Accepted position H ↔ position < l.frame.cursor := by
  rw [← h.offered_iff hH]
  constructor
  · intro hposition
    rcases hposition with ⟨r, hr, hoffers, -⟩
    exact ⟨r, hr, hoffers⟩
  · intro hposition
    rcases hposition with ⟨r, hr, hoffers⟩
    exact ⟨r, hr, hoffers, haccepted r (List.mem_of_getElem? hr)⟩

/-- A handler that counts as accepted is one whose batch was accepted. -/
theorem InOrder.exists_of_mem_acceptedOf (h : l.InOrder p)
    (hH : H ∈ Handler.acceptedOf (p.handlers.take l.frame.cursor) l.backend.receipts) :
    ∃ position, p.handlers[position]? = some H ∧ l.Accepted position H := by
  obtain ⟨position, r, hfirst, hr, haccepted⟩ := Handler.mem_acceptedOf hH
  rw [List.getElem?_take] at hfirst
  split at hfirst
  · rename_i hbefore
    obtain ⟨r', hr', hoffers⟩ := (h.offered_iff hfirst).2 hbefore
    obtain rfl : r = r' := Option.some_inj.1 (hr.symm.trans hr')
    exact ⟨position, hfirst, r, hr, hoffers, haccepted⟩
  · cases hfirst

/-- A frame that nobody else signals, of a plan with the trackers of the graph. -/
structure Tracks (g : Graph) (p : Plan) (shown : Chain) (l : Live (Receipted σ Λ) Λ) :
    Prop extends l.Kept p True where
  formed : p.Formed
  tracked : ∃ planned, p.chain? = some planned ∧ p.Tracked g planned
  current : l.frame.chain? = some shown

namespace Tracks

/-- There is a tracker for each epoch. -/
theorem exists_tracker (h : l.Tracks g p chain) (hk : k ≤ g.epoch (g.scopes.length - 1)) :
    ∃ u, chain.trackers[k]? = some u := by
  obtain ⟨planned, hplanned, tracked⟩ := h.tracked
  obtain ⟨planned', hplanned', -, hgain⟩ := h.gain h.formed h.current
  obtain rfl : planned = planned' := Option.some_inj.1 (hplanned.symm.trans hplanned')
  have hlt : k < chain.trackers.length := by
    rw [hgain.length, tracked.length]
    exact Nat.lt_succ_of_le hk
  exact ⟨_, List.getElem?_eq_getElem hlt⟩

theorem counts (h : l.Tracks g p chain) (hu : chain.trackers[k]? = some u) :
    u.required.toNat = g.sumThrough g.account g.scopes.length k ∧
      u.signalled.toNat = Handler.sentTo k
        (Handler.acceptedOf (p.handlers.take l.frame.cursor) l.backend.receipts) := by
  obtain ⟨planned, hplanned, tracked⟩ := h.tracked
  obtain ⟨planned', t, hplanned', ht, hrequired, hsignalled⟩ := h.signalled h.formed h.current hu
  obtain rfl : planned = planned' := Option.some_inj.1 (hplanned.symm.trans hplanned')
  exact ⟨hrequired ▸ tracked.required k t ht, hsignalled⟩

/-- The accepted handlers have sent no more than the scopes before the cursor account for. -/
theorem sentTo_le (h : l.Tracks g p chain) (k : Nat) :
    Handler.sentTo k (Handler.acceptedOf (p.handlers.take l.frame.cursor) l.backend.receipts) ≤
      ((p.handlers.take l.frame.cursor).map (Handler.sumOf g.account)).sum := by
  obtain ⟨planned, -, tracked⟩ := h.tracked
  have hsub := Handler.acceptedOf_sublist h.receipts.length_eq
  calc
    _ ≤ ((Handler.acceptedOf (p.handlers.take l.frame.cursor) l.backend.receipts).map
          (·.signals)).sum := Handler.sentTo_le k _
    _ ≤ ((p.handlers.take l.frame.cursor).map (·.signals)).sum :=
      (hsub.map _).sum_le_sum fun n _ => Nat.zero_le n
    _ = ((p.handlers.take l.frame.cursor).map (Handler.sumOf g.account)).sum :=
      congrArg List.sum (List.map_congr_left fun H hH =>
        tracked.signals_eq h.formed (List.mem_of_mem_take hH))

/-- **A satisfied tracker** has had to wait for every handler that owns a scope with
signals in the epochs up to its own. -/
theorem lt_cursor_of_satisfied (h : l.Tracks g p chain) (hu : chain.trackers[k]? = some u)
    (hsatisfied : u.satisfied = true) (hH : p.handlers[position]? = some H)
    (haccounts : H.AccountsFor g (g.epoch · ≤ k)) : position < l.frame.cursor := by
  obtain ⟨j, howns, hepoch, hpos⟩ := haccounts
  obtain ⟨planned, -, tracked⟩ := h.tracked
  obtain ⟨hrequired, hsignalled⟩ := h.counts hu
  obtain ⟨m, -, hsum, hcut⟩ := h.formed.exists_cut tracked.tile l.frame.cursor
  rw [Tracker.satisfied_iff, hrequired, hsignalled] at hsatisfied
  have hle := Nat.le_trans hsatisfied (h.sentTo_le k)
  rw [hsum] at hle
  have hj := tracked.lt_of_owns h.formed (List.mem_of_getElem? hH) howns
  exact (hcut position H j hH howns).1 (Graph.lt_of_sumThrough_le hle hj hepoch hpos)

/-- What a refused batch has not sent is missing, if the accepted handlers have sent no more
than their scopes measure. -/
theorem sentTo_add_le (h : l.Tracks g p chain) {measure : Nat → Nat}
    (hsent : ∀ (later : Nat) (H' : Handler), p.handlers[later]? = some H' →
      l.Accepted later H' → H'.signals = H'.sumOf measure)
    (hH : p.handlers[position]? = some H) (hbefore : position < l.frame.cursor)
    (hrefused : ¬ l.Accepted position H) (k : Nat) :
    Handler.sentTo k (Handler.acceptedOf (p.handlers.take l.frame.cursor) l.backend.receipts) +
      H.sumOf measure ≤ ∑ j ∈ Finset.range g.scopes.length, measure j := by
  obtain ⟨planned, -, tracked⟩ := h.tracked
  obtain ⟨m, hm, hsum, -⟩ := h.formed.exists_cut tracked.tile l.frame.cursor
  obtain ⟨r, hr, hoffers⟩ := (h.offered_iff hH).2 hbefore
  have hlost : r.accepted = false :=
    Bool.eq_false_iff.2 fun haccepted => hrefused ⟨r, hr, hoffers, haccepted⟩
  have hmissing := Handler.sum_acceptedOf_add_le (Handler.sumOf measure) h.receipts.length_eq
    ((List.getElem?_take_of_lt hbefore).trans hH) hr hlost
  have hmeasured : ∀ H' ∈ Handler.acceptedOf (p.handlers.take l.frame.cursor)
      l.backend.receipts, H'.signals = H'.sumOf measure := by
    intro H' hH'
    obtain ⟨later, hlater, haccepted⟩ := h.exists_of_mem_acceptedOf hH'
    exact hsent later H' hlater haccepted
  have hreached := Handler.sentTo_le k
    (Handler.acceptedOf (p.handlers.take l.frame.cursor) l.backend.receipts)
  have hall : ∑ j ∈ Finset.range m, measure j ≤ ∑ j ∈ Finset.range g.scopes.length, measure j :=
    Finset.sum_le_sum_of_subset (Finset.range_mono hm)
  rw [List.map_congr_left hmeasured] at hreached
  rw [hsum measure] at hmissing
  omega

/-- If a batch was refused that a satisfied tracker has to wait for, its signals were made
up for by a handler that owns a scope behind the presentation. -/
theorem exists_later (h : l.Tracks g p chain) (hi : i < g.scopes.length)
    (hpresents : (g.scopeAt i).sync.presents = true) (hu : chain.trackers[g.epoch i]? = some u)
    (hsatisfied : u.satisfied = true) (hH : p.handlers[position]? = some H)
    (haccounts : H.AccountsFor g (· ≤ i)) (hrefused : ¬ l.Accepted position H) :
    ∃ (later : Nat) (H' : Handler), p.handlers[later]? = some H' ∧
      H'.AccountsFor g (i < ·) ∧ l.Accepted later H' := by
  by_contra hnone
  obtain ⟨j, howns, hj, hpos⟩ := haccounts
  obtain ⟨planned, -, tracked⟩ := h.tracked
  have hbefore := h.lt_cursor_of_satisfied hu hsatisfied hH ⟨j, howns, Graph.epoch_mono hj, hpos⟩
  -- no accepted handler has signals from behind the presentation
  have hsent : ∀ (later : Nat) (H' : Handler), p.handlers[later]? = some H' →
      l.Accepted later H' → H'.signals =
        H'.sumOf fun j => if g.epoch j ≤ g.epoch i then g.account j else 0 := by
    intro later H' hlater haccepted
    rw [tracked.signals_eq h.formed (List.mem_of_getElem? hlater)]
    refine Handler.sumOf_congr fun j' howns' => ?_
    split
    · rfl
    · rename_i hbehind
      rw [Graph.epoch_le_iff hi hpresents] at hbehind
      refine Nat.eq_zero_of_not_pos fun hpos' => hnone ⟨later, H', hlater, ?_, haccepted⟩
      exact ⟨j', howns', Nat.lt_of_not_le hbehind, hpos'⟩
  have hmissing := h.sentTo_add_le hsent hH hbefore hrefused (g.epoch i)
  have hpositive : 0 < H.sumOf fun j => if g.epoch j ≤ g.epoch i then g.account j else 0 :=
    howns.sumOf_pos (by rwa [if_pos (Graph.epoch_mono hj)])
  obtain ⟨hrequired, hsignalled⟩ := h.counts hu
  rw [Tracker.satisfied_iff, hrequired, hsignalled, Graph.sumThrough] at hsatisfied
  omega

/-- Without refusals the first tracker has had what the scopes account for whose handlers
have retired. -/
theorem first_signalled (h : l.Tracks g p chain)
    (haccepted : ∀ r ∈ l.backend.receipts, r.accepted = true)
    (hu : chain.trackers[0]? = some u) :
    ∃ m ≤ g.scopes.length, u.signalled.toNat = ∑ j ∈ Finset.range m, g.account j ∧
      ∀ j < g.scopes.length, ∃ (position : Nat) (H : Handler),
        p.handlers[position]? = some H ∧ H.Owns j ∧ (j < m ↔ position < l.frame.cursor) := by
  obtain ⟨planned, -, tracked⟩ := h.tracked
  obtain ⟨-, hsignalled⟩ := h.counts hu
  obtain ⟨m, hm, hsum, hcut⟩ := h.formed.exists_cut tracked.tile l.frame.cursor
  have hsub := List.take_sublist l.frame.cursor p.handlers
  refine ⟨m, hm, ?_, fun j hj => ?_⟩
  · rw [hsignalled, Handler.acceptedOf_eq h.receipts.length_eq haccepted,
      tracked.sentTo_zero h.formed hsub, ← hsum]
    refine congrArg List.sum (List.map_congr_left fun H hH => ?_)
    exact tracked.signals_eq h.formed (hsub.subset hH)
  · obtain ⟨position, H, hH, howns⟩ := h.formed.exists_owner tracked.tile hj
    exact ⟨position, H, hH, howns, hcut position H j hH howns⟩

/-- The first tracker waits for no other handler. -/
theorem first_satisfied (h : l.Tracks g p chain)
    (haccepted : ∀ r ∈ l.backend.receipts, r.accepted = true)
    (hu : chain.trackers[0]? = some u)
    (hall : ∀ (position : Nat) (H : Handler), p.handlers[position]? = some H →
      H.AccountsFor g (g.epoch · = 0) → position < l.frame.cursor) : u.satisfied = true := by
  obtain ⟨hrequired, -⟩ := h.counts hu
  obtain ⟨m, hm, hsignalled, howned⟩ := h.first_signalled haccepted hu
  -- a scope of the first epoch whose handler has not retired has no signals
  have hrest : ∀ j ∈ Finset.range g.scopes.length, j ∉ Finset.range m →
      (if g.epoch j ≤ 0 then g.account j else 0) = 0 := by
    intro j hj hbehind
    obtain ⟨position, H, hH, howns, hiff⟩ := howned j (Finset.mem_range.1 hj)
    split
    · rename_i hepoch
      refine Nat.eq_zero_of_not_pos fun hpos => hbehind (Finset.mem_range.2 (hiff.2 ?_))
      exact hall position H hH ⟨j, howns, Nat.le_zero.1 hepoch, hpos⟩
    · rfl
  rw [Tracker.satisfied_iff, hrequired, hsignalled, Graph.sumThrough,
    ← Finset.sum_subset (Finset.range_mono hm) hrest]
  refine Finset.sum_le_sum fun j _ => ?_
  split
  · exact Nat.le_refl _
  · exact Nat.zero_le _

/-- If only the last scope presents anything, the first tracker has had exactly what it
requires when all handlers have submitted. -/
theorem first_exhausted (h : l.Tracks g p chain)
    (haccepted : ∀ r ∈ l.backend.receipts, r.accepted = true)
    (hu : chain.trackers[0]? = some u)
    (honly : ∀ j, j + 1 < g.scopes.length → (g.scopeAt j).sync.presents = false)
    (hall : l.frame.executed = p.handlers.map fun _ => true) : u.signalled = u.required := by
  obtain ⟨hrequired, -⟩ := h.counts hu
  obtain ⟨m, hm, hsignalled, howned⟩ := h.first_signalled haccepted hu
  have hend : m = g.scopes.length := by
    refine Nat.le_antisymm hm (Nat.le_of_not_lt fun hlt => ?_)
    obtain ⟨position, H, hH, -, hiff⟩ := howned m hlt
    refine Nat.lt_irrefl m (hiff.2 ?_)
    rw [h.cursor_eq hall]
    exact (List.getElem?_eq_some_iff.1 hH).1
  rw [← UInt32.toNat_inj, hrequired, hsignalled, hend, Graph.sumThrough]
  refine Finset.sum_congr rfl fun j hj => (if_pos ?_).symm
  exact Nat.le_of_eq (Graph.epoch_eq_zero honly (Finset.mem_range.1 hj))

end Tracks

end Live

/-! ## Frames of a scheduler -/

namespace Scheduler

variable {σ Λ : Type} {b : Backend σ Λ} {s t : Scheduler (Receipted σ Λ) Λ} {graph : Graph}
  {p : Plan}

/-- A frame with trackers that is only asked to record and to execute. -/
theorem through_tracks (hbackend : s.backend = Receipted.backend b)
    (hfresh : s.device.receipts = []) (hstart : (start graph).Yields s p t)
    (requests : List Request) :
    ∃ l, t.through (requests.map .request) = t.put l ∧
      ∀ chain, l.frame.chain? = some chain → l.Tracks graph p chain := by
  obtain ⟨l, hrun, h⟩ := through_requests hbackend hfresh hstart requests
  refine ⟨l, hrun, fun chain hchain => { h with
    formed := (start_permits graph s p t hstart).1
    tracked := ?_
    current := hchain }⟩
  obtain ⟨planned, hplanned, -⟩ := Option.map_eq_some_iff.1 ((h.chain trivial).symm.trans hchain)
  exact ⟨planned, hplanned, start_tracked graph s p t hstart planned hplanned⟩

/-- **A presentation is not released** before each handler that owns a scope with signals
up to it has been handed to the backend.  If the backend refused one of them, it has
accepted one that owns a scope with signals behind the presentation. -/
theorem released_after_offers (hbackend : s.backend = Receipted.backend b)
    (hfresh : s.device.receipts = []) (hstart : (start graph).Yields s p t)
    (requests : List Request) {i : Nat} {swapchain : SwapchainId}
    (hi : i < graph.scopes.length)
    (hpresented : swapchain ∈ (graph.scopeAt i).sync.swapchains) :
    ∃ l, t.through (requests.map .request) = t.put l ∧
      ∀ chain, l.frame.chain? = some chain →
        (swapchain, graph.epoch i) ∈ p.presentations ∧
          ∃ u, chain.trackers[graph.epoch i]? = some u ∧ (u.satisfied = true →
            ∀ (position : Nat) (H : Handler), p.handlers[position]? = some H →
              H.AccountsFor graph (· ≤ i) → l.Offered position H ∧ (l.Accepted position H ∨
                ∃ (later : Nat) (H' : Handler), p.handlers[later]? = some H' ∧
                  H'.AccountsFor graph (i < ·) ∧ l.Accepted later H')) := by
  obtain ⟨l, hrun, htracks⟩ := through_tracks hbackend hfresh hstart requests
  refine ⟨l, hrun, fun chain hchain => ?_⟩
  have h := htracks chain hchain
  obtain ⟨planned, -, tracked⟩ := h.tracked
  have hpresents : (graph.scopeAt i).sync.presents = true := by
    rw [Sync.presents, Bool.not_eq_true', List.isEmpty_eq_false_iff_exists_mem]
    exact ⟨swapchain, hpresented⟩
  have hmember : (swapchain, graph.epoch i) ∈ p.presentations := by
    rw [tracked.presentations, List.mem_flatMap]
    exact ⟨i, List.mem_range.2 hi, List.mem_map_of_mem hpresented⟩
  obtain ⟨u, hu⟩ := h.exists_tracker (k := graph.epoch i) (Graph.epoch_mono (by omega))
  refine ⟨hmember, u, hu, fun hsatisfied position H hH haccounts => ⟨?_, ?_⟩⟩
  · obtain ⟨j, howns, hj, hpos⟩ := haccounts
    exact (h.offered_iff hH).2 (h.lt_cursor_of_satisfied hu hsatisfied hH
      ⟨j, howns, Graph.epoch_mono hj, hpos⟩)
  · by_cases haccepted : l.Accepted position H
    · exact .inl haccepted
    · exact .inr (h.exists_later hi hpresents hu hsatisfied hH haccounts haccepted)

/-- A presentation, and a scope behind it that has signals too. -/
def followed : Graph :=
  ((Graph.addAll [
    { name := "a", sync := { waitSemaphores := [⟨1⟩], swapchains := [⟨1⟩] } },
    { name := "b", sync := { waitSemaphores := [⟨2⟩] } }]).run {}).state

theorem exists_start_followed :
    ∃ p t, (start followed).Yields refusing p t := by
  have built : followed.Built := Graph.Built.empty.addAll _ () _ ⟨rfl, rfl⟩
  obtain ⟨p, t, hstart, -⟩ := start_ensures (s := refusing) rfl rfl built
    ⟨by decide, by decide, by decide⟩ rfl (by unfold Config.Covers; decide)
  exact ⟨p, t, hstart⟩

/-- The open frame after the first batch was refused: its first tracker is satisfied, and
its first handler owns the first scope. -/
theorem followed_satisfied {p : Plan}
    {t : Scheduler (Receipted (Faulty Memory) MemoryList) MemoryList}
    {l : Live (Receipted (Faulty Memory) MemoryList) MemoryList}
    (hstart : (start followed).Yields refusing p t)
    (hrun : t.through [.request .record, .request (.recordGroup 1)] = t.put l) :
    l.backend.receipts.map (·.accepted) = [false, true] ∧
      ∃ chain u H, l.frame.chain? = some chain ∧ chain.trackers[0]? = some u ∧
        u.satisfied = true ∧ p.handlers[0]? = some H ∧ H.AccountsFor followed (· ≤ 0) := by
  rcases hstart with ⟨hresult, rfl⟩
  have hreceipts : l.backend.receipts.map (·.accepted) = [false, true] :=
    (congrArg (·.device.receipts.map (·.accepted)) hrun).symm.trans (by decide +kernel)
  have hchain : l.frame.chain?.any fun chain => chain.trackers[0]?.any (·.satisfied) :=
    (congrArg (·.frame?.any fun f => f.chain?.any fun chain =>
      chain.trackers[0]?.any (·.satisfied)) hrun).symm.trans (by decide +kernel)
  have howner : ((start followed).run refusing).result.toOption.any fun p =>
      p.handlers[0]?.any fun H => H.groups.any fun G => G.start ≤ 0 ∧ 0 < G.stop := by
    decide +kernel
  rw [hresult] at howner
  obtain ⟨chain, hchain, htracker⟩ := (Option.any_eq_true _ _).1 hchain
  obtain ⟨u, hu, hsatisfied⟩ := (Option.any_eq_true _ _).1 htracker
  obtain ⟨H, hH, hgroup⟩ := (Option.any_eq_true _ p.handlers[0]?).1 howner
  obtain ⟨G, hG, hscope⟩ := List.any_eq_true.1 hgroup
  exact ⟨hreceipts, chain, u, H, hchain, hu, hsatisfied, hH, 0,
    ⟨G, hG, of_decide_eq_true hscope⟩, Nat.le_refl 0, by decide +kernel⟩

theorem released_after_offers_followed :
    ∃ p t l chain u H, (start followed).Yields refusing p t ∧
      t.through [.request .record, .request (.recordGroup 1)] = t.put l ∧
        l.frame.chain? = some chain ∧ chain.trackers[0]? = some u ∧ u.satisfied = true ∧
          p.handlers[0]? = some H ∧ H.AccountsFor followed (· ≤ 0) ∧ l.Offered 0 H ∧
            (l.Accepted 0 H ∨ ∃ (later : Nat) (H' : Handler), p.handlers[later]? = some H' ∧
              H'.AccountsFor followed (0 < ·) ∧ l.Accepted later H') := by
  obtain ⟨p, t, hstart⟩ := exists_start_followed
  obtain ⟨l, hrun, hreleased⟩ := released_after_offers rfl rfl hstart [.record, .recordGroup 1]
    (by decide +kernel : 0 < followed.scopes.length)
    (by decide +kernel : ⟨1⟩ ∈ (followed.scopeAt 0).sync.swapchains)
  obtain ⟨-, chain, u, H, hchain, hu, hsatisfied, hH, haccounts⟩ := followed_satisfied hstart hrun
  obtain ⟨-, u', hu', hwaited⟩ := hreleased chain hchain
  obtain rfl : u = u' := Option.some_inj.1 (hu.symm.trans hu')
  obtain ⟨hoffered, haccepted⟩ := hwaited hsatisfied 0 H hH haccounts
  exact ⟨p, t, l, chain, u, H, hstart, hrun, hchain, hu, hsatisfied, hH, haccounts, hoffered,
    haccepted⟩

/-- The presentation is released although the batch with its scope was refused: the signals
of the batch behind it are counted in its place. -/
theorem released_without_batch :
    ∃ p t l chain u H, (start followed).Yields refusing p t ∧
      t.through [.request .record, .request (.recordGroup 1)] = t.put l ∧
        (⟨1⟩, 0) ∈ p.presentations ∧ l.frame.chain? = some chain ∧
          chain.trackers[0]? = some u ∧ u.satisfied = true ∧ p.handlers[0]? = some H ∧
            H.AccountsFor followed (· ≤ 0) ∧ ¬ l.Accepted 0 H := by
  obtain ⟨p, t, hstart⟩ := exists_start_followed
  obtain ⟨l, hrun, -⟩ := through_tracks rfl rfl hstart [.record, .recordGroup 1]
  obtain ⟨hreceipts, chain, u, H, hchain, hu, hsatisfied, hH, haccounts⟩ :=
    followed_satisfied hstart hrun
  have hpresented : ((start followed).run refusing).result.toOption.any fun p =>
      (⟨1⟩, 0) ∈ p.presentations := by decide +kernel
  rw [hstart.1] at hpresented
  refine ⟨p, t, l, chain, u, H, hstart, hrun, of_decide_eq_true hpresented, hchain, hu,
    hsatisfied, hH, haccounts, fun haccepted => ?_⟩
  rcases haccepted with ⟨r, hr, -, haccepted⟩
  have hfirst := congrArg (·[0]?) hreceipts
  simp only [List.getElem?_map, hr, Option.map_some, haccepted] at hfirst
  cases hfirst

/-- **Exact points of release.**  While no batch is refused, the first tracker is satisfied
just when the handlers that own a scope of the first epoch with signals have submitted, and
every tracker waits for those that own a scope with signals in the epochs up to its own.  A
frame that presents something only at its end has then signalled the first tracker exactly
as often as required. -/
theorem released_exactly (hbackend : s.backend = Receipted.backend b)
    (hfresh : s.device.receipts = []) (hstart : (start graph).Yields s p t)
    (requests : List Request) :
    ∃ l, t.through (requests.map .request) = t.put l ∧
      ((∀ r ∈ l.backend.receipts, r.accepted = true) →
        ∀ chain, l.frame.chain? = some chain →
          (∃ u, chain.trackers[0]? = some u ∧
            (u.satisfied = true ↔ ∀ (position : Nat) (H : Handler),
              p.handlers[position]? = some H → H.AccountsFor graph (graph.epoch · = 0) →
                l.Accepted position H) ∧
            ((∀ j < graph.scopes.length, (graph.scopeAt j).sync.presents = true ↔
                j + 1 = graph.scopes.length) →
              l.frame.executed = p.handlers.map (fun _ => true) → u.signalled = u.required)) ∧
          ∀ (k : Nat) (u : Tracker), chain.trackers[k]? = some u → u.satisfied = true →
            ∀ (position : Nat) (H : Handler), p.handlers[position]? = some H →
              H.AccountsFor graph (graph.epoch · ≤ k) → l.Accepted position H) := by
  obtain ⟨l, hrun, htracks⟩ := through_tracks hbackend hfresh hstart requests
  refine ⟨l, hrun, fun haccepted chain hchain => ?_⟩
  have h := htracks chain hchain
  have hwaits : ∀ (k : Nat) (u : Tracker), chain.trackers[k]? = some u → u.satisfied = true →
      ∀ (position : Nat) (H : Handler), p.handlers[position]? = some H →
        H.AccountsFor graph (graph.epoch · ≤ k) → l.Accepted position H :=
    fun k u hu hsatisfied position H hH haccounts => (h.accepted_iff haccepted hH).2
      (h.lt_cursor_of_satisfied hu hsatisfied hH haccounts)
  obtain ⟨u, hu⟩ := h.exists_tracker (Nat.zero_le _)
  refine ⟨⟨u, hu, ⟨fun hsatisfied position H hH haccounts => ?_, fun hall => ?_⟩,
    fun honly hexecuted => ?_⟩, hwaits⟩
  · obtain ⟨j, howns, hepoch, hpos⟩ := haccounts
    exact hwaits 0 u hu hsatisfied position H hH ⟨j, howns, Nat.le_of_eq hepoch, hpos⟩
  · exact h.first_satisfied haccepted hu fun position H hH haccounts =>
      (h.accepted_iff haccepted hH).1 (hall position H hH haccounts)
  · refine h.first_exhausted haccepted hu (fun j hj => ?_) hexecuted
    rw [Bool.eq_false_iff, ne_eq, honly j (Nat.lt_of_succ_lt hj)]
    omega

/-- The short frame, recorded as a whole. -/
theorem released_exactly_short :
    ∃ p t l chain u, (start .short).Yields receipting p t ∧
      t.through [.request .record] = t.put l ∧ (∀ r ∈ l.backend.receipts, r.accepted = true) ∧
        l.frame.chain? = some chain ∧ chain.trackers[0]? = some u ∧ u.satisfied = true ∧
          u.signalled = u.required ∧ ∀ (position : Nat) (H : Handler),
            p.handlers[position]? = some H →
              H.AccountsFor .short (Graph.short.epoch · = 0) → l.Accepted position H := by
  obtain ⟨p, t, hstart, -, -⟩ := start_ensures (s := receipting) rfl rfl Graph.short_built
    Graph.short_countable rfl Config.plain_covers
  obtain ⟨l, hrun, hexactly⟩ := released_exactly rfl rfl hstart [.record]
  obtain ⟨-, rfl⟩ := id hstart
  have haccepted : l.backend.receipts.all (·.accepted) :=
    (congrArg (·.device.receipts.all (·.accepted)) hrun).symm.trans (by decide +kernel)
  have hchain : l.frame.chain?.any fun chain => chain.trackers[0]?.any (·.satisfied) :=
    (congrArg (·.frame?.any fun f => f.chain?.any fun chain =>
      chain.trackers[0]?.any (·.satisfied)) hrun).symm.trans (by decide +kernel)
  have hexecuted := executed_of_through hstart hrun (by decide +kernel)
  obtain ⟨chain, hchain, htracker⟩ := (Option.any_eq_true _ _).1 hchain
  obtain ⟨u, hu, hsatisfied⟩ := (Option.any_eq_true _ _).1 htracker
  obtain ⟨⟨u', hu', hiff, hlast⟩, -⟩ := hexactly (List.all_eq_true.1 haccepted) chain hchain
  obtain rfl : u = u' := Option.some_inj.1 (hu.symm.trans hu')
  exact ⟨p, _, l, chain, u, hstart, hrun, List.all_eq_true.1 haccepted, hchain, hu, hsatisfied,
    hlast (by decide +kernel) hexecuted, hiff.1 hsatisfied⟩

end Scheduler

end FrameSchedule
