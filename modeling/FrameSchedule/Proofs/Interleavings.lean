import FrameSchedule.Proofs.Histories
import Mathlib.Algebra.Order.BigOperators.Group.List
import Mathlib.Algebra.Order.Ring.Nat
import Mathlib.Data.List.Chain
import Mathlib.Data.List.Perm.Basic

/-!
# Signals that are under way together

A signal looks up the trackers that it is for, and then goes from one to the next
(`Chain.signal_eq_forEach`).  Meanwhile others may open epochs, require signals of the last
tracker, or send signals of their own (`Traffic`).  The chain is locked while an epoch is opened,
while signals are required and while a signal looks up its trackers, so each of these is one
move; a signal to one tracker is another.

However all this is interleaved, and wherever a signal is broken off, later trackers require no
less and have been signalled no more than earlier ones, so they are satisfied in order
(`Traffic.after_in_order`).  What carries the second half is that of two neighbours the first has
had, beyond what the second has had, at least all that is about to reach the second
(`Chain.Ordered`).
-/

namespace FrameSchedule

/-! ## One signal -/

namespace Chain

/-- A signal to a tracker behind others. -/
theorem run_signalAt (count : UInt32) (pre : List Tracker) (t : Tracker) (ts : List Tracker)
    (total : UInt32) :
    (discard (signalAt pre.length count)).run ⟨pre ++ t :: ts, total⟩ =
      ⟨⟨pre ++ ((Tracker.signal count).run t).state :: ts, total⟩,
        ((Tracker.signal count).run t).journal, ((Tracker.signal count).run t).result⟩ := by
  have hget : (pre ++ t :: ts)[pre.length]? = some t := by simp
  have hput : ∀ u, putAt pre.length u ⟨pre ++ t :: ts, total⟩ = ⟨pre ++ u :: ts, total⟩ := by
    intro u
    simp [putAt]
  have hdiscard : (discard (signalAt pre.length count) : Step Chain Unit) =
      signalAt pre.length count >>= fun _ => pure () := rfl
  rw [hdiscard, signalAt, Step.run_bind, Step.run_bind, Step.run_read]
  simp only [Outcome.andThen, hget, Step.run_bind, Step.run_zoom, hput]
  cases ((Tracker.signal count).run t).result with
  | error stop => rfl
  | ok _ => simp

/-- **A signal** is a signal to each of the first trackers in turn. -/
theorem signal_eq_forEach (reach : Nat) (count : UInt32) (c : Chain) :
    (signal reach count).run c =
      (Step.forEach (fun k => discard (signalAt k count))
        (List.range (min reach c.trackers.length))).run c := by
  -- the trackers before the next one have been signalled
  have hrest : ∀ (ts pre : List Tracker) (total : UInt32),
      (Step.forEach (fun k => discard (signalAt k count))
          (List.range' pre.length (min reach ts.length))).run ⟨pre ++ ts, total⟩ =
        ⟨⟨pre ++ (signalFirst count reach ts).state, total⟩,
          (signalFirst count reach ts).journal, (signalFirst count reach ts).result⟩ := by
    induction reach with
    | zero =>
      intro ts pre total
      rw [Nat.zero_min]
      rfl
    | succ reach ih =>
      intro ts pre total
      cases ts with
      | nil => rfl
      | cons t ts =>
        rw [List.length_cons, Nat.succ_min_succ, List.range'_succ, Step.forEach, Step.run_bind,
          run_signalAt, signalFirst, Outcome.andThen]
        cases ((Tracker.signal count).run t).result with
        | error stop => rfl
        | ok _ =>
          have hih := ih ts (pre ++ [((Tracker.signal count).run t).state]) total
          rw [List.length_append, List.length_singleton, List.append_assoc] at hih
          simp only [List.singleton_append] at hih
          simp only [hih, List.append_assoc, List.singleton_append]
  rcases c with ⟨ts, total⟩
  have hall := hrest ts [] total
  rw [List.range_eq_range']
  exact hall.symm

end Chain

/-! ## Trackers in order -/

/-- A tracker that requires no more than another and has had no fewer signals. -/
structure Tracker.Ahead (t u : Tracker) : Prop where
  required : t.required ≤ u.required
  signalled : u.signalled ≤ t.signalled

namespace Tracker.Ahead

variable {t u v : Tracker}

theorem trans (h : t.Ahead u) (h' : u.Ahead v) : t.Ahead v where
  required := UInt32.le_trans h.required h'.required
  signalled := UInt32.le_trans h'.signalled h.signalled

instance : Trans Tracker.Ahead Tracker.Ahead Tracker.Ahead where
  trans := trans

theorem satisfied (h : t.Ahead u) (hu : u.satisfied) : t.satisfied := by
  have hrequired := UInt32.le_iff_toNat_le.1 h.required
  have hsignalled := UInt32.le_iff_toNat_le.1 h.signalled
  rw [Tracker.satisfied_iff] at hu ⊢
  omega

end Tracker.Ahead

namespace Chain

/-- The trackers of a tallied chain are in order, if `due k` is about to be signalled to the
tracker at `k`. -/
structure Ordered (due : Nat → Nat) (c : Chain) : Prop where
  tallied : c.Tallied
  required : ∀ k t u, c.trackers[k]? = some t → c.trackers[k + 1]? = some u →
    t.required.toNat ≤ u.required.toNat
  signalled : ∀ k t u, c.trackers[k]? = some t → c.trackers[k + 1]? = some u →
    u.signalled.toNat + due (k + 1) ≤ t.signalled.toNat

namespace Ordered

variable {due due' : Nat → Nat} {c d : Chain}

/-- Trackers stay in order if each gains no more than it was due, or the one before it gains. -/
theorem gain {gain : Nat → Nat} (h : c.Ordered due)
    (hgain : Tracker.Gain gain c.trackers d.trackers) (htotal : d.total = c.total)
    (hle : ∀ k, gain (k + 1) + due' (k + 1) ≤ due (k + 1) + gain k) : d.Ordered due' where
  tallied := by
    have htallied := h.tallied
    rw [Tallied, current?, ← List.getLast?_map] at htallied ⊢
    rw [htotal, hgain.map_required]
    exact htallied
  required k t u ht hu := by
    obtain ⟨t₀, ht₀⟩ := hgain.exists_before ht
    obtain ⟨u₀, hu₀⟩ := hgain.exists_before hu
    rw [hgain.required k t₀ t ht₀ ht, hgain.required (k + 1) u₀ u hu₀ hu]
    exact h.required k t₀ u₀ ht₀ hu₀
  signalled k t u ht hu := by
    obtain ⟨t₀, ht₀⟩ := hgain.exists_before ht
    obtain ⟨u₀, hu₀⟩ := hgain.exists_before hu
    have hold := h.signalled k t₀ u₀ ht₀ hu₀
    have hstep := hle k
    rw [hgain.signalled k t₀ t ht₀ ht, hgain.signalled (k + 1) u₀ u hu₀ hu]
    omega

theorem mono (h : c.Ordered due) (hle : ∀ k, due' (k + 1) ≤ due (k + 1)) : c.Ordered due' :=
  { h with signalled := fun k t u ht hu =>
      Nat.le_trans (Nat.add_le_add_left (hle k) _) (h.signalled k t u ht hu) }

/-- A new tracker is the last, if no signal is due to it. -/
theorem grow (h : c.Ordered due) (hnone : due c.trackers.length = 0) : c.grow.Ordered due := by
  -- the tracker before the new one was the last
  have hlast : ∀ (k : Nat) (t : Tracker), k + 1 = c.trackers.length →
      c.trackers[k]? = some t → t.required = c.total := by
    intro k t hk ht
    have hcurrent : c.current? = some t := by
      rw [current?, List.getLast?_eq_getElem?, ← hk, Nat.add_sub_cancel, ht]
    rw [h.tallied, hcurrent, Option.map_some, Option.getD_some]
  have hbefore : ∀ (k : Nat) (t u : Tracker), c.grow.trackers[k]? = some t →
      c.grow.trackers[k + 1]? = some u → c.trackers[k]? = some t := by
    intro k t u ht hu
    rcases of_getElem?_concat ht with hold | ⟨rfl, -⟩
    · exact hold
    · have hlt := (List.getElem?_eq_some_iff.1 hu).1
      rw [Chain.grow, List.length_append, List.length_singleton] at hlt
      omega
  refine ⟨grow_tallied c, fun k t u ht hu => ?_, fun k t u ht hu => ?_⟩
  · have ht := hbefore k t u ht hu
    rcases of_getElem?_concat hu with hu | ⟨hk, rfl⟩
    · exact h.required k t u ht hu
    · rw [hlast k t hk ht]
  · have ht := hbefore k t u ht hu
    rcases of_getElem?_concat hu with hu | ⟨hk, rfl⟩
    · exact h.signalled k t u ht hu
    · rw [hk, hnone]
      exact Nat.zero_le _

theorem require (h : c.Ordered due) (count : UInt32) :
    (Chain.require count).Leaves c
      (fun _ d => d.Ordered due ∧ d.trackers.length = c.trackers.length) fun _ d => d = c := by
  apply (h.tallied.require count).mono _ fun _ _ hd => hd.2.1
  intro _ d hd
  rcases hd with ⟨-, rfl⟩ | ⟨ts, t, u, hts, rfl, hrequired, hsignalled⟩
  · exact ⟨h, rfl⟩
  · -- each tracker has the place of one that had as many signals and required no more
    have hplace : ∀ (k : Nat) (v : Tracker), (ts ++ [u])[k]? = some v → ∃ w,
        c.trackers[k]? = some w ∧ w.signalled = v.signalled ∧
          w.required.toNat ≤ v.required.toNat ∧ (k < ts.length → w = v) := by
      intro k v hv
      rw [hts]
      rcases of_getElem?_concat hv with hold | ⟨rfl, rfl⟩
      · rw [List.getElem?_append_left (List.getElem?_eq_some_iff.1 hold).1]
        exact ⟨v, hold, rfl, Nat.le_refl _, fun _ => rfl⟩
      · exact ⟨t, List.getElem?_concat_length, hsignalled.symm, by omega,
          fun hlt => (Nat.lt_irrefl _ hlt).elim⟩
    refine ⟨⟨?_, fun k v w hv hw => ?_, fun k v w hv hw => ?_⟩, by rw [hts]; simp⟩
    · rw [Tallied, current?, List.getLast?_concat]
      rfl
    · obtain ⟨v₀, hv₀, -, -, hsame⟩ := hplace k v hv
      obtain ⟨w₀, hw₀, -, hle, -⟩ := hplace (k + 1) w hw
      have hk := (List.getElem?_eq_some_iff.1 hw).1
      rw [List.length_append, List.length_singleton] at hk
      rw [← hsame (by omega)]
      exact Nat.le_trans (h.required k v₀ w₀ hv₀ hw₀) hle
    · obtain ⟨v₀, hv₀, hv, -, -⟩ := hplace k v hv
      obtain ⟨w₀, hw₀, hw, -, -⟩ := hplace (k + 1) w hw
      rw [← hv, ← hw]
      exact h.signalled k v₀ w₀ hv₀ hw₀

theorem signal (h : c.Ordered due) (reach : Nat) (count : UInt32) :
    (Chain.signal reach count).Leaves c
      (fun _ d => d.Ordered due ∧ d.trackers.length = c.trackers.length)
      fun _ d => d.Ordered due ∧ d.trackers.length = c.trackers.length := by
  have hprefix : ∀ (n : Nat) (d : Chain), d.total = c.total →
      Tracker.Gain (fun k => if k < n then count.toNat else 0) c.trackers d.trackers →
        d.Ordered due ∧ d.trackers.length = c.trackers.length := by
    intro n d htotal hgain
    refine ⟨h.gain hgain htotal fun k => ?_, hgain.length⟩
    split <;> split <;> omega
  apply (Chain.signal_leaves reach count c).mono
  · exact fun _ d hd => hprefix reach d hd.1 hd.2
  · intro _ d hd
    obtain ⟨-, htotal, m, -, -, -, -, hgain⟩ := hd
    exact hprefix m d htotal hgain

/-- A signal that reaches the tracker it is due to is due to the next. -/
theorem signalAt {rest : Nat → Nat} {index : Nat} {count : UInt32}
    (h : c.Ordered fun k => rest k + if k = index then count.toNat else 0) :
    (Chain.signalAt index count).Leaves c
      (fun _ d => (d.Ordered fun k => rest k + if k = index + 1 then count.toNat else 0) ∧
        d.trackers.length = c.trackers.length)
      fun _ d => d = c := by
  apply (Chain.signalAt_leaves index count c).mono _ fun _ _ hd => hd.2
  intro _ d hd
  obtain ⟨htotal, hgain⟩ := hd
  refine ⟨h.gain hgain htotal fun k => ?_, hgain.length⟩
  simp only [Nat.add_right_cancel_iff]
  omega

end Ordered

end Chain

/-! ## Traffic -/

/-- A signal under way: it has reached the trackers before `next`, and goes on to those before
`stop`. -/
structure Errand where
  next : Nat
  stop : Nat
  count : UInt32
  deriving DecidableEq

/-- A desk, and the signals that are under way. -/
structure Traffic where
  desk : Desk := {}
  errands : List Errand := []
  deriving DecidableEq

/-- What the errand is about to signal to a tracker. -/
def Errand.owes (k : Nat) (e : Errand) : Nat :=
  if e.next = k ∧ k < e.stop then e.count.toNat else 0

theorem Errand.owes_le (k : Nat) (e : Errand) :
    e.owes k ≤ if k = e.next then e.count.toNat else 0 := by
  unfold owes
  split <;> split <;> omega

theorem Errand.owes_of_lt {e : Errand} (h : e.next < e.stop) (k : Nat) :
    e.owes k = if k = e.next then e.count.toNat else 0 := by
  unfold owes
  split <;> split <;> omega

namespace Traffic

/-- What is about to be signalled to a tracker. -/
def due (t : Traffic) (k : Nat) : Nat :=
  (t.errands.map (·.owes k)).sum

/-- What may happen next.  Signals under way are named by their places in the list. -/
inductive Move where
  | act (a : Desk.Act)
  | launch (reach : Nat) (count : UInt32)
  | launchBy (handle : Nat) (count : UInt32)
  | advance (errand : Nat)
  deriving DecidableEq

def onDesk {α : Type} (x : Step Desk α) : Step Traffic α :=
  x.zoom (·.desk) fun d t => { t with desk := d }

/-- Start a signal, which is for the trackers that there are now. -/
def launch (reach : Nat) (count : UInt32) : Step Traffic Unit :=
  Step.modify fun t =>
    { t with errands := t.errands ++ [⟨0, min reach t.desk.chain.trackers.length, count⟩] }

/-- Signal the next tracker of an errand, which is over if that faults. -/
def deliver (e : Errand) : Step Traffic Unit := do
  discard (onDesk (Desk.onChain (Chain.signalAt e.next e.count)))
  Step.modify fun t => { t with errands := t.errands ++ [{ e with next := e.next + 1 }] }

/-- Go on with an errand, unless it is done. -/
def advance (errand : Nat) : Step Traffic Unit := do
  match (← Step.read).errands[errand]? with
  | none => pure ()
  | some e =>
    Step.modify fun t => { t with errands := t.errands.eraseIdx errand }
    Step.onlyIf (e.next < e.stop) (deliver e)

def Move.step : Move → Step Traffic Unit
  | .act a => onDesk (Desk.act a)
  | .launch reach count => Traffic.launch reach count
  | .launchBy handle count => do
    match (← Step.read).desk.handles[handle]? with
    | none => pure ()
    | some h => Traffic.launch h.reach count
  | .advance errand => Traffic.advance errand

/-- What moves have made of an empty chain, whatever they ended in. -/
def after (moves : List Move) : Traffic :=
  moves.foldl (fun t m => (m.step.run t).state) {}

/-- The trackers are in order, and the signals under way are for trackers that there are. -/
structure Orderly (t : Traffic) : Prop where
  ordered : t.desk.chain.Ordered t.due
  stops : ∀ e ∈ t.errands, e.stop ≤ t.desk.chain.trackers.length

/-! ## Order -/

variable {t : Traffic}

/-- No signal is under way to a tracker that there is not. -/
theorem due_eq_zero {n k : Nat} (stops : ∀ e ∈ t.errands, e.stop ≤ n) (hk : n ≤ k) :
    t.due k = 0 := by
  apply List.sum_eq_zero
  intro owed howed
  obtain ⟨e, he, rfl⟩ := List.mem_map.1 howed
  have hstop := stops e he
  exact if_neg (by omega)

theorem due_concat (t : Traffic) (e : Errand) (k : Nat) :
    due { t with errands := t.errands ++ [e] } k = t.due k + e.owes k := by
  simp only [due, List.map_append, List.sum_append, List.map_singleton, List.sum_singleton]

/-- What is about to be signalled is what one errand owes and what the others do. -/
theorem due_eraseIdx {i : Nat} {e : Errand} (he : t.errands[i]? = some e) (k : Nat) :
    t.due k = due { t with errands := t.errands.eraseIdx i } k + e.owes k := by
  obtain ⟨hi, rfl⟩ := List.getElem?_eq_some_iff.1 he
  have hperm := (List.getElem_cons_eraseIdx_perm hi).map (·.owes k)
  rw [due, ← hperm.sum_eq, List.map_cons, List.sum_cons, Nat.add_comm]
  rfl

/-- An act at the desk keeps the trackers in order, whatever it ends in. -/
theorem act_leaves {due : Nat → Nat} {d : Desk} {n : Nat} (h : d.chain.Ordered due)
    (hlength : n ≤ d.chain.trackers.length) (hnone : ∀ k, n ≤ k → due k = 0) (a : Desk.Act) :
    (Desk.act a).Leaves d
      (fun _ d' => d'.chain.Ordered due ∧ n ≤ d'.chain.trackers.length)
      fun _ d' => d'.chain.Ordered due ∧ n ≤ d'.chain.trackers.length := by
  have hsame : ∀ c : Chain, c.Ordered due ∧ c.trackers.length = d.chain.trackers.length →
      c.Ordered due ∧ n ≤ c.trackers.length := fun c hc => ⟨hc.1, hc.2 ▸ hlength⟩
  have hsignal : ∀ reach count, (Desk.onChain (Chain.signal reach count)).Leaves d
      (fun _ d' => d'.chain.Ordered due ∧ n ≤ d'.chain.trackers.length)
      fun _ d' => d'.chain.Ordered due ∧ n ≤ d'.chain.trackers.length := by
    intro reach count
    rw [Desk.onChain, Step.leaves_zoom]
    exact (h.signal reach count).mono (fun _ => hsame) fun _ => hsame
  cases a with
  | createHandle =>
    refine ⟨h.grow (hnone _ hlength), ?_⟩
    show n ≤ (d.chain.trackers ++ [_]).length
    rw [List.length_append]
    exact Nat.le_add_right_of_le hlength
  | cloneHandle handle =>
    simp only [Desk.act, Desk.withHandle, Step.leaves_bind, Step.leaves_read]
    cases d.handles[handle]? with
    | none => exact ⟨h, hlength⟩
    | some original => exact ⟨h, hlength⟩
  | require count =>
    rw [Desk.act, Desk.onChain, Step.leaves_zoom]
    exact (h.require count).mono (fun _ => hsame) fun _ c hc => ⟨hc ▸ h, hc ▸ hlength⟩
  | signal reach count => exact hsignal reach count
  | signalBy handle count =>
    simp only [Desk.act, Desk.withHandle, Step.leaves_bind, Step.leaves_read]
    cases d.handles[handle]? with
    | none => exact ⟨h, hlength⟩
    | some original => exact hsignal original.reach count

namespace Orderly

theorem empty : Orderly {} where
  ordered := ⟨rfl, fun _ _ _ h _ => (by cases h), fun _ _ _ h _ => (by cases h)⟩
  stops _ h := by cases h

/-- A signal that starts is not yet due to any tracker but the first. -/
theorem launch (h : t.Orderly) (reach : Nat) (count : UInt32) :
    ((Traffic.launch reach count).run t).state.Orderly where
  ordered := by
    apply h.ordered.mono
    intro k
    have hnone : Errand.owes (k + 1) ⟨0, min reach t.desk.chain.trackers.length, count⟩ = 0 :=
      if_neg fun h => Nat.succ_ne_zero k h.1.symm
    refine Nat.le_of_eq ((due_concat t _ (k + 1)).trans ?_)
    rw [hnone, Nat.add_zero]
  stops := forall_mem_concat.2 ⟨h.stops, Nat.min_le_right _ _⟩

/-- An errand that goes on, is done, or is broken off. -/
theorem advance (h : t.Orderly) (errand : Nat) :
    (Traffic.advance errand).Leaves t (fun _ => Orderly) fun _ => Orderly := by
  simp only [Traffic.advance, Step.leaves_bind, Step.leaves_read]
  cases he : t.errands[errand]? with
  | none => exact h
  | some e =>
    have hdue := due_eraseIdx he
    have hstop := h.stops e (List.mem_of_getElem? he)
    have hrest : Orderly { t with errands := t.errands.eraseIdx errand } := by
      refine ⟨h.ordered.mono fun k => ?_, fun e' he' => h.stops e' (List.mem_of_mem_eraseIdx he')⟩
      exact Nat.le.intro (hdue (k + 1)).symm
    simp only [Step.leaves_bind, Step.leaves_modify, Step.leaves_onlyIf, decide_eq_true_eq,
      decide_eq_false_iff_not]
    refine ⟨fun hnext => ?_, fun _ => hrest⟩
    have hordered : t.desk.chain.Ordered fun k =>
        due { t with errands := t.errands.eraseIdx errand } k +
          if k = e.next then e.count.toNat else 0 := by
      refine h.ordered.mono fun k => Nat.le_of_eq ?_
      rw [hdue, Errand.owes_of_lt hnext]
    simp only [deliver, onDesk, Desk.onChain, Step.leaves_bind, Step.leaves_discard,
      Step.leaves_zoom, Step.leaves_modify]
    apply hordered.signalAt.mono
    · intro _ c hc
      refine ⟨hc.1.mono fun k => ?_, forall_mem_concat.2 ⟨fun e' he' => ?_, ?_⟩⟩
      · have hdue' := due_concat ⟨{ t.desk with chain := c }, t.errands.eraseIdx errand⟩
          { e with next := e.next + 1 } (k + 1)
        exact Nat.le_trans (Nat.le_of_eq hdue') (Nat.add_le_add_left (Errand.owes_le _ _) _)
      · rw [hc.2]
        exact hrest.stops e' he'
      · rw [hc.2]
        exact hstop
    · intro _ c hc
      rw [hc]
      exact hrest

/-- **A move**, whatever it ends in, keeps the trackers in order. -/
theorem step (h : t.Orderly) (m : Move) :
    m.step.Leaves t (fun _ => Orderly) fun _ => Orderly := by
  cases m with
  | act a =>
    have hnone : ∀ k, t.desk.chain.trackers.length ≤ k → t.due k = 0 :=
      fun k hk => due_eq_zero h.stops hk
    have hkeeps : ∀ d : Desk, d.chain.Ordered t.due ∧
        t.desk.chain.trackers.length ≤ d.chain.trackers.length → Orderly { t with desk := d } :=
      fun d hd => ⟨hd.1, fun e he => Nat.le_trans (h.stops e he) hd.2⟩
    rw [Move.step, onDesk, Step.leaves_zoom]
    exact (act_leaves h.ordered (Nat.le_refl _) hnone a).mono (fun _ => hkeeps) fun _ => hkeeps
  | launch reach count => exact h.launch reach count
  | launchBy handle count =>
    simp only [Move.step, Step.leaves_bind, Step.leaves_read]
    cases t.desk.handles[handle]? with
    | none => exact h
    | some original => exact h.launch original.reach count
  | advance errand => exact h.advance errand

end Orderly

theorem after_orderly (moves : List Move) : (after moves).Orderly :=
  List.foldlRecOn moves _ Orderly.empty fun _ h m _ => (h.step m).state

/-- **Trackers are satisfied in order.**  Whatever is asked for at a chain, in whatever order,
and however far signals have come that are under way at once, a later tracker requires no less
than an earlier one and has been signalled no more, and it is not satisfied before it. -/
theorem after_in_order (moves : List Move) :
    (after moves).desk.chain.trackers.Pairwise fun t u =>
      t.required ≤ u.required ∧ u.signalled ≤ t.signalled ∧ (u.satisfied → t.satisfied) := by
  have h := (after_orderly moves).ordered
  have hahead : (after moves).desk.chain.trackers.Pairwise Tracker.Ahead := by
    rw [← List.isChain_iff_pairwise, List.isChain_iff_getElem]
    intro k hk
    have ht := List.getElem?_eq_getElem (Nat.lt_of_succ_lt hk)
    have hu := List.getElem?_eq_getElem hk
    have hrequired := h.required k _ _ ht hu
    have hsignalled := h.signalled k _ _ ht hu
    exact ⟨UInt32.le_iff_toNat_le.2 hrequired, UInt32.le_iff_toNat_le.2 (by omega)⟩
  exact hahead.imp fun h => ⟨h.required, h.signalled, h.satisfied⟩

end Traffic

end FrameSchedule
