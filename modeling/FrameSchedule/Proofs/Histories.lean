import FrameSchedule.Proofs.Gains

/-!
# The history of a chain

What a chain has come to is told by its history: what was asked of it, the latest first
(`Desk.play`).  A tracker requires all that was required since the first tracker and before the
tracker after it, and has had the signals sent since it came that were meant for as many
trackers as reach it (`Desk.Booked`).

A handle goes on signalling the trackers that it has captured: what comes after them in the
chain makes no difference to it (`Handle.signal_front`).
-/

namespace FrameSchedule

/-! ## Requirements -/

namespace Chain

/-- The total is the requirement of the last tracker, and zero without one. -/
def Tallied (c : Chain) : Prop :=
  c.total = (c.current?.map (·.required)).getD 0

theorem grow_tallied (c : Chain) : c.grow.Tallied := by
  simp [Tallied, current?, grow]

theorem Tallied.total_eq {c : Chain} (h : c.Tallied) {ts : List Tracker} {t : Tracker}
    (hts : c.trackers = ts ++ [t]) : c.total = t.required := by
  rw [h, current?, hts, List.getLast?_concat, Option.map_some, Option.getD_some]

/-- A requirement of a tallied chain is added to the last tracker and to the total, or to
neither because it is more than the total can count. -/
theorem Tallied.require {c : Chain} (h : c.Tallied) (count : UInt32) :
    (Chain.require count).Leaves c
      (fun _ d => (c.trackers = [] ∧ d = c) ∨
        ∃ ts t u, c.trackers = ts ++ [t] ∧ d = ⟨ts ++ [u], u.required⟩ ∧
          u.required.toNat = t.required.toNat + count.toNat ∧ u.signalled = t.signalled)
      fun stop d => stop = .fault .addOverflow ∧ d = c ∧ c.trackers ≠ [] ∧
        Count.largest < c.total.toNat + count.toNat := by
  rw [Chain.require, Step.leaves_bind, Step.leaves_read]
  cases hlast : c.current? with
  | none => exact .inl ⟨List.getLast?_eq_none_iff.1 hlast, rfl⟩
  | some t =>
    obtain ⟨ts, hts⟩ := List.getLast?_eq_some_iff.1 hlast
    have htotal := h.total_eq hts
    simp only [Tracker.require, Step.leaves_bind, Step.leaves_zoom, Step.leaves_update]
    refine ⟨fun u hu => ?_, fun fault hfault => ?_⟩
    · obtain ⟨hrequired, hsignalled⟩ := Tracker.require?_eq_ok_iff.1 hu
      have hsum : Count.add c.total count = .ok u.required := by
        rw [htotal]
        exact Count.add_eq_ok_iff.2 hrequired
      have hadd : addTotal? count (putLast u c) = .ok ⟨ts ++ [u], u.required⟩ := by
        have hput : putLast u c = ⟨ts ++ [u], c.total⟩ := by
          rw [putLast, hts, List.dropLast_concat]
        rw [hput, addTotal?, hsum]
        rfl
      rw [hadd]
      refine ⟨fun d hd => ?_, fun _ hfault => by cases hfault⟩
      cases hd
      exact .inr ⟨ts, t, u, hts, rfl, hrequired, hsignalled⟩
    · obtain ⟨hlargest, rfl⟩ := Tracker.require?_eq_error_iff.1 hfault
      have hsame : putLast t c = c := by
        rw [putLast, hts, List.dropLast_concat, ← hts]
      have hsome : c.trackers ≠ [] := by
        rw [hts]
        exact List.concat_ne_nil t ts
      rw [htotal]
      exact ⟨rfl, hsame, hsome, hlargest⟩

/-! ## The trackers that a handle captures -/

/-- The chain of the first trackers. -/
def front (n : Nat) (c : Chain) : Chain :=
  { c with trackers := c.trackers.take n }

/-- The chain with others for its first trackers. -/
def putFront (n : Nat) (front c : Chain) : Chain :=
  { front with trackers := front.trackers ++ c.trackers.drop n }

theorem signalFirst_take (count : UInt32) (reach : Nat) (ts : List Tracker) :
    signalFirst count reach ts =
      ⟨(signalFirst count reach (ts.take reach)).state ++ ts.drop reach,
        (signalFirst count reach (ts.take reach)).journal,
        (signalFirst count reach (ts.take reach)).result⟩ := by
  induction reach generalizing ts with
  | zero => rfl
  | succ reach ih =>
    cases ts with
    | nil => rfl
    | cons t ts =>
      rw [List.take_succ_cons, List.drop_succ_cons, signalFirst, signalFirst]
      cases ((Tracker.signal count).run t).result with
      | error stop => simp only [List.cons_append, List.take_append_drop]
      | ok _ =>
        rw [ih ts]
        simp only [List.cons_append]

end Chain

/-- A handle signals as if there were no other trackers than those that it reaches. -/
theorem Handle.signal_front (h : Handle) (count : UInt32) :
    h.signal count = (h.signal count).zoom (Chain.front h.reach) (Chain.putFront h.reach) := by
  funext c
  have htake := Chain.signalFirst_take count h.reach c.trackers
  have hrun : ∀ c : Chain, h.signal count c =
      ⟨{ c with trackers := (Chain.signalFirst count h.reach c.trackers).state },
        (Chain.signalFirst count h.reach c.trackers).journal,
        (Chain.signalFirst count h.reach c.trackers).result⟩ := fun _ => rfl
  rw [Step.zoom, hrun, hrun, htake]
  rfl

/-! ## Acts and histories -/

/-- A chain, and the handles that have been given out. -/
structure Desk where
  chain : Chain := {}
  handles : List Handle := []
  deriving DecidableEq

namespace Desk

/-- What may be asked for.  Handles are named by the order in which they were given out. -/
inductive Act where
  | createHandle
  | cloneHandle (handle : Nat)
  | require (count : UInt32)
  | signal (reach : Nat) (count : UInt32)
  | signalBy (handle : Nat) (count : UInt32)
  deriving DecidableEq

def onChain {α : Type} (x : Step Chain α) : Step Desk α :=
  x.zoom (·.chain) fun c d => { d with chain := c }

/-- Give out a handle. -/
def give (h : Handle) : Step Desk Unit :=
  Step.modify fun d => { d with handles := d.handles ++ [h] }

/-- A step with a handle, if it has been given out. -/
def withHandle (handle : Nat) (f : Handle → Step Desk Unit) : Step Desk Unit := do
  match (← Step.read).handles[handle]? with
  | none => pure ()
  | some h => f h

def act : Act → Step Desk Unit
  | .createHandle => do give (← onChain Chain.createHandle)
  | .cloneHandle handle => withHandle handle give
  | .require count => onChain (Chain.require count)
  | .signal reach count => onChain (Chain.signal reach count)
  | .signalBy handle count => withHandle handle fun h => onChain (h.signal count)

/-- The acts of a history, the latest first. -/
def play : List Act → Step Desk Unit
  | [] => pure ()
  | a :: past => do
    play past
    act a

/-! ## What a history tells -/

/-- How many trackers there are. -/
def opened (past : List Act) : Nat :=
  past.count .createHandle

/-- How many trackers each handle has captured: a new one all, with its own, and a copy as many
as what it is a copy of. -/
def captures : List Act → List Nat
  | [] => []
  | .createHandle :: past => captures past ++ [opened past + 1]
  | .cloneHandle handle :: past => captures past ++ (captures past)[handle]?.toList
  | _ :: past => captures past

/-- The sum, over the acts of a history, of what each weighs after those before it. -/
def sumOver (weigh : Act → List Act → Nat) : List Act → Nat
  | [] => 0
  | a :: past => sumOver weigh past + weigh a past

/-- What an act requires of the tracker at a position: it comes after the first tracker, and
before the tracker after this one. -/
def requires (k : Nat) : Act → List Act → Nat
  | .require count, past => if 1 ≤ opened past ∧ opened past ≤ k + 1 then count.toNat else 0
  | _, _ => 0

/-- What an act signals to the tracker at a position: it comes after the tracker, and is meant
for more trackers than there are before it. -/
def signals (k : Nat) : Act → List Act → Nat
  | .signal reach count, past => if k < opened past ∧ k < reach then count.toNat else 0
  | .signalBy handle count, past =>
    if k < opened past ∧ k < (captures past)[handle]?.getD 0 then count.toNat else 0
  | _, _ => 0

/-- A handle has captured trackers that there are. -/
theorem le_opened_of_captures {past : List Act} {n : Nat} (h : n ∈ captures past) :
    n ≤ opened past := by
  induction past with
  | nil => cases h
  | cons a past ih =>
    have hkept : n ∈ captures past → n ≤ opened (a :: past) :=
      fun hmem => Nat.le_trans (ih hmem) List.count_le_count_cons
    cases a with
    | createHandle =>
      rcases List.mem_append.1 h with hmem | hmem
      · exact hkept hmem
      · rw [List.mem_singleton.1 hmem]
        exact Nat.le_of_eq List.count_cons_self.symm
    | cloneHandle handle =>
      rcases List.mem_append.1 h with hmem | hmem
      · exact hkept hmem
      · exact hkept (List.mem_of_getElem? (Option.mem_toList.1 hmem))
    | require count => exact hkept h
    | signal reach count => exact hkept h
    | signalBy handle count => exact hkept h

/-- A tracker that has not come yet has not been signalled. -/
theorem sumOver_signals_eq_zero {k : Nat} {past : List Act} (h : opened past ≤ k) :
    sumOver (signals k) past = 0 := by
  induction past with
  | nil => rfl
  | cons a past ih =>
    have hbefore : opened past ≤ k := Nat.le_trans List.count_le_count_cons h
    have hnone : signals k a past = 0 := by
      cases a <;> simp [signals, Nat.not_lt.2 hbefore]
    rw [sumOver, ih hbefore, hnone]

/-- The state of the desk is what its history tells. -/
structure Booked (past : List Act) (d : Desk) : Prop where
  opened : d.chain.trackers.length = opened past
  captured : d.handles.map (·.reach) = captures past
  required : ∀ k t, d.chain.trackers[k]? = some t →
    t.required.toNat = sumOver (requires k) past
  signalled : ∀ k t, d.chain.trackers[k]? = some t →
    t.signalled.toNat = sumOver (signals k) past
  tallied : d.chain.Tallied
  /-- The next tracker starts with all that has been required. -/
  total : ∀ k, Desk.opened past ≤ k + 1 → d.chain.total.toNat = sumOver (requires k) past

theorem booked_nil : Booked [] {} where
  opened := rfl
  captured := rfl
  required _ _ h := by cases h
  signalled _ _ h := by cases h
  tallied := rfl
  total _ _ := rfl

namespace Booked

variable {past : List Act} {d : Desk}

theorem createHandle (h : d.Booked past) :
    (act .createHandle).Permits d fun _ => Booked (.createHandle :: past) := by
  simp only [act, onChain, Chain.createHandle, give, Step.permits_bind, Step.permits_zoom,
    Step.permits_modify, Step.permits_read, Step.permits_pure]
  have hopened : Desk.opened (.createHandle :: past) = Desk.opened past + 1 :=
    List.count_cons_self
  have hlength : d.chain.grow.trackers.length = Desk.opened past + 1 := by
    rw [Chain.grow, List.length_append, List.length_singleton, h.opened]
  refine ⟨hlength.trans hopened.symm, ?_, fun k t ht => ?_, fun k t ht => ?_,
    Chain.grow_tallied _, fun k hk => h.total k (by omega)⟩
  · rw [List.map_append, h.captured, List.map_singleton, Chain.handle, hlength]
    rfl
  · rcases of_getElem?_concat ht with hold | ⟨rfl, rfl⟩
    · exact h.required k t hold
    · exact h.total _ (h.opened ▸ Nat.le_succ _)
  · rcases of_getElem?_concat ht with hold | ⟨rfl, rfl⟩
    · exact h.signalled k t hold
    · exact (sumOver_signals_eq_zero (Nat.le_of_eq h.opened.symm)).symm

theorem cloneHandle (h : d.Booked past) (handle : Nat) :
    (act (.cloneHandle handle)).Permits d fun _ => Booked (.cloneHandle handle :: past) := by
  have hcaptured : (captures past)[handle]? = (d.handles[handle]?).map (·.reach) := by
    rw [← h.captured, List.getElem?_map]
  simp only [act, withHandle, Step.permits_bind, Step.permits_read]
  cases hfound : d.handles[handle]? with
  | none =>
    refine Step.permits_pure.2 { h with captured := ?_ }
    rw [h.captured, captures, hcaptured, hfound, Option.map_none, Option.toList_none,
      List.append_nil]
  | some original =>
    refine Step.permits_modify.2 { h with captured := ?_ }
    rw [List.map_append, h.captured, captures, hcaptured, hfound]
    rfl

theorem require (h : d.Booked past) (count : UInt32) :
    (act (.require count)).Permits d fun _ => Booked (.require count :: past) := by
  have hopened := h.opened
  rw [act, onChain, Step.permits_zoom]
  intro _ c hc
  rcases (h.tallied.require count).of_yields hc with
    ⟨hnone, rfl⟩ | ⟨ts, t, u, hts, rfl, hrequired, hsignalled⟩
  · -- there is no tracker yet, so nothing is required
    rw [hnone, List.length_nil] at hopened
    have hzero : ∀ k, requires k (.require count) past = 0 := by
      simp [requires, ← hopened]
    refine { h with required := fun k t ht => ?_, total := fun k hk => ?_ }
    · rw [hnone] at ht
      cases ht
    · rw [sumOver, hzero, Nat.add_zero]
      exact h.total k hk
  · rw [hts, List.length_append, List.length_singleton] at hopened
    have hbefore : ∀ (k : Nat) (v : Tracker), ts[k]? = some v →
        d.chain.trackers[k]? = some v ∧ requires k (.require count) past = 0 := by
      intro k v hv
      have hk := (List.getElem?_eq_some_iff.1 hv).1
      rw [hts, List.getElem?_append_left hk]
      exact ⟨hv, if_neg (by omega)⟩
    have hlast : d.chain.trackers[ts.length]? = some t := by
      rw [hts]
      exact List.getElem?_concat_length
    have htotal := h.tallied.total_eq hts
    have hcounted : ∀ k, Desk.opened past ≤ k + 1 →
        requires k (.require count) past = count.toNat := by
      intro k hk
      exact if_pos ⟨by omega, hk⟩
    refine { h with
      opened := ?_, required := fun k v hv => ?_, signalled := fun k v hv => ?_
      tallied := ?_, total := fun k hk => ?_ }
    · rw [List.length_append, List.length_singleton]
      exact hopened
    · rw [sumOver]
      rcases of_getElem?_concat hv with hv | ⟨rfl, rfl⟩
      · obtain ⟨hold, hzero⟩ := hbefore k v hv
        rw [h.required k v hold, hzero, Nat.add_zero]
      · rw [hrequired, h.required _ t hlast, hcounted _ (Nat.le_of_eq hopened.symm)]
    · rcases of_getElem?_concat hv with hv | ⟨rfl, rfl⟩
      · exact h.signalled k v (hbefore k v hv).1
      · rw [hsignalled]
        exact h.signalled _ t hlast
    · rw [Chain.Tallied, Chain.current?, List.getLast?_concat]
      rfl
    · rw [sumOver, hcounted k hk, ← h.total k hk, htotal]
      exact hrequired

/-- A signal is counted by the trackers there are. -/
theorem signals (h : d.Booked past) {a : Act} {reach : Nat} {count : UInt32}
    (hopened : Desk.opened (a :: past) = Desk.opened past)
    (hcaptured : captures (a :: past) = captures past)
    (hrequires : ∀ k, requires k a past = 0)
    (hsignals : ∀ k, Desk.signals k a past =
      if k < Desk.opened past ∧ k < reach then count.toNat else 0) :
    (onChain (Chain.signal reach count)).Permits d fun _ => Booked (a :: past) := by
  rw [onChain, Step.permits_zoom]
  intro _ c hc
  obtain ⟨htotal, hgain⟩ := (Chain.signal_leaves reach count d.chain).of_yields hc
  have hlast : c.current?.map (·.required) = d.chain.current?.map (·.required) := by
    rw [Chain.current?, Chain.current?, ← List.getLast?_map, ← List.getLast?_map,
      hgain.map_required]
  refine ⟨?_, ?_, fun k u hu => ?_, fun k u hu => ?_, ?_, fun k hk => ?_⟩
  · rw [hgain.length, h.opened, hopened]
  · rw [hcaptured, h.captured]
  · obtain ⟨t, ht⟩ := hgain.exists_before hu
    rw [hgain.required k t u ht hu, h.required k t ht, sumOver, hrequires, Nat.add_zero]
  · obtain ⟨t, ht⟩ := hgain.exists_before hu
    have hk : k < Desk.opened past := h.opened ▸ (List.getElem?_eq_some_iff.1 ht).1
    rw [hgain.signalled k t u ht hu, h.signalled k t ht, sumOver, hsignals]
    simp only [hk, true_and]
  · rw [Chain.Tallied, hlast, htotal]
    exact h.tallied
  · rw [sumOver, hrequires, Nat.add_zero, htotal]
    exact h.total k (hopened ▸ hk)

theorem act (h : d.Booked past) (a : Act) :
    (act a).Permits d fun _ => Booked (a :: past) := by
  cases a with
  | createHandle => exact h.createHandle
  | cloneHandle handle => exact h.cloneHandle handle
  | require count => exact h.require count
  | signal reach count => exact h.signals rfl rfl (fun _ => rfl) fun _ => rfl
  | signalBy handle count =>
    have hcaptured : (captures past)[handle]? = (d.handles[handle]?).map (·.reach) := by
      rw [← h.captured, List.getElem?_map]
    simp only [Desk.act, withHandle, Step.permits_bind, Step.permits_read]
    cases hfound : d.handles[handle]? with
    | none =>
      have hzero : ∀ k, Desk.signals k (.signalBy handle count) past = 0 := by
        simp [Desk.signals, hcaptured, hfound]
      refine Step.permits_pure.2 { h with signalled := fun k t ht => ?_ }
      rw [sumOver, hzero, Nat.add_zero]
      exact h.signalled k t ht
    | some original =>
      refine h.signals rfl rfl (fun _ => rfl) fun k => ?_
      simp [Desk.signals, hcaptured, hfound]

end Booked

/-- A run of acts that all return is told by its history. -/
theorem play_permits (past : List Act) : (play past).Permits {} fun _ => Booked past := by
  induction past with
  | nil => exact Step.permits_pure.2 booked_nil
  | cons a past ih => exact Step.permits_bind.2 (ih.mono fun _ _ h => h.act a)

/-- **The ledger of a chain.**  Once acts in any order have all returned, there are as many
trackers as have been opened; each requires what was required after the first of them came and
before the one after it, and has had the signals that were sent after it came and meant for
more trackers than those before it.  The total is what the last one requires.  The signals of a
handle are those of a chain of just the trackers it reaches, whatever trackers came later. -/
theorem play_booked {past : List Act} {d : Desk} (h : (play past).Yields {} () d) :
    d.Booked past ∧ ∀ handle ∈ d.handles, handle.reach ≤ opened past ∧ ∀ count,
      handle.signal count =
        (handle.signal count).zoom (Chain.front handle.reach) (Chain.putFront handle.reach) := by
  have booked := play_permits past () d h
  refine ⟨booked, fun handle hmem => ⟨?_, handle.signal_front⟩⟩
  apply le_opened_of_captures
  rw [← booked.captured]
  exact List.mem_map_of_mem hmem

/-- Nothing is required and nobody signalled before there is a tracker.  The first handle and its
copy reach the first of two trackers. -/
theorem play_booked_copied :
    (play [.signal 5 1, .signalBy 2 1, .signalBy 0 2, .cloneHandle 0, .require 1, .createHandle,
        .require 2, .createHandle, .signal 3 5, .require 7]).Yields {} ()
      ⟨⟨[⟨2, 4⟩, ⟨3, 1⟩], 3⟩, [⟨1⟩, ⟨2⟩, ⟨1⟩]⟩ ∧
    Booked [.signal 5 1, .signalBy 2 1, .signalBy 0 2, .cloneHandle 0, .require 1, .createHandle,
        .require 2, .createHandle, .signal 3 5, .require 7]
      ⟨⟨[⟨2, 4⟩, ⟨3, 1⟩], 3⟩, [⟨1⟩, ⟨2⟩, ⟨1⟩]⟩ :=
  ⟨⟨rfl, rfl⟩, (play_booked ⟨rfl, rfl⟩).1⟩

end Desk

end FrameSchedule
