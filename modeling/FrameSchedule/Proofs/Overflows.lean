import FrameSchedule.Proofs.Interleavings

/-!
# Counts that overflow

A requirement is counted by the last tracker and then by the total; a signal is counted by one
tracker after the other.  Nothing is taken back when a count overflows, and nothing needs to be:
the last tracker requires the total, so what it can count the total can count, and of all trackers
the first has had the most signals, so if any cannot count a signal then the first cannot
(`Chain.Ordered.signalled_le`).  Both hold after everything that can happen to a chain, overflows
included, so an act that faults has changed nothing (`Traffic.act_faults_iff`).
-/

namespace FrameSchedule

/-! ## Signals -/

namespace Chain

/-- A signal that the first tracker cannot count. -/
def Exceeds (reach : Nat) (count : UInt32) (c : Chain) : Prop :=
  0 < reach ∧ ∃ t, c.trackers[0]? = some t ∧ Count.largest < t.signalled.toNat + count.toNat

namespace Ordered

variable {due : Nat → Nat} {c : Chain}

/-- The first tracker has had the most signals. -/
theorem signalled_le (h : c.Ordered due) {first : Tracker} (hfirst : c.trackers[0]? = some first)
    {k : Nat} {t : Tracker} (ht : c.trackers[k]? = some t) :
    t.signalled.toNat ≤ first.signalled.toNat := by
  induction k generalizing t with
  | zero =>
    cases hfirst.symm.trans ht
    exact Nat.le_refl _
  | succ k ih =>
    have hk := Nat.lt_of_succ_lt (List.getElem?_eq_some_iff.1 ht).1
    have hbefore := List.getElem?_eq_getElem hk
    have hneighbour := h.signalled k _ t hbefore ht
    exact Nat.le_trans (Nat.le_of_add_right_le hneighbour) (ih hbefore)

/-- A signal stops at the first tracker or not at all. -/
theorem signal_exceeds (h : c.Ordered due) (reach : Nat) (count : UInt32) :
    (Chain.signal reach count).Leaves c (fun _ _ => ¬ c.Exceeds reach count)
      fun stop d => stop = .fault .addOverflow ∧ d = c ∧ c.Exceeds reach count := by
  apply (signal_leaves reach count c).mono
  · intro _ d hd hexceeds
    obtain ⟨-, hgain⟩ := hd
    obtain ⟨hreach, first, hfirst, hlargest⟩ := hexceeds
    have hlength : 0 < d.trackers.length :=
      hgain.length.symm ▸ (List.getElem?_eq_some_iff.1 hfirst).1
    have hcounted := hgain.signalled 0 first _ hfirst (List.getElem?_eq_getElem hlength)
    rw [if_pos hreach] at hcounted
    have hword := Count.toNat_le_largest d.trackers[0].signalled
    omega
  · intro stop d hd
    obtain ⟨hoverflow, htotal, m, t, hm, ht, hlargest, hgain⟩ := hd
    have hlength := Nat.lt_of_le_of_lt (Nat.zero_le m) (List.getElem?_eq_some_iff.1 ht).1
    have hfirst := List.getElem?_eq_getElem hlength
    have hmost := h.signalled_le hfirst ht
    -- the first tracker has not counted the signal, which is one that it could not have counted
    have hzero : m = 0 := by
      by_contra hpos
      have hlength' : 0 < d.trackers.length := hgain.length.symm ▸ hlength
      have hcounted := hgain.signalled 0 _ _ hfirst (List.getElem?_eq_getElem hlength')
      rw [if_pos (Nat.pos_of_ne_zero hpos)] at hcounted
      have hword := Count.toNat_le_largest d.trackers[0].signalled
      omega
    have hsame : d.trackers = c.trackers :=
      hgain.eq_of_zero fun k => if_neg (hzero ▸ Nat.not_lt_zero k)
    refine ⟨hoverflow, ?_, hm.pos, _, hfirst, by omega⟩
    cases d
    cases c
    exact congr (congrArg Chain.mk hsame) htotal

end Ordered

end Chain

/-! ## Acts -/

namespace Desk

/-- An act asks for more than can be counted: by the total, which is counted if there is a tracker,
or by the first tracker, if the signal is meant for any. -/
def Exceeds (d : Desk) : Act → Prop
  | .require count => d.chain.trackers ≠ [] ∧ Count.largest < d.chain.total.toNat + count.toNat
  | .signal reach count => d.chain.Exceeds reach count
  | .signalBy handle count => ∃ h, d.handles[handle]? = some h ∧ d.chain.Exceeds h.reach count
  | .createHandle => False
  | .cloneHandle _ => False

/-- An act at a desk whose trackers are in order faults if it asks for too much, and then does
nothing. -/
theorem act_exceeds {due : Nat → Nat} {d : Desk} (h : d.chain.Ordered due) (a : Act) :
    (act a).Leaves d (fun _ _ => ¬ d.Exceeds a)
      fun stop d' => stop = .fault .addOverflow ∧ d' = d ∧ d.Exceeds a := by
  have hsignal : ∀ reach count, (onChain (Chain.signal reach count)).Leaves d
      (fun _ _ => ¬ d.chain.Exceeds reach count)
      fun stop d' => stop = .fault .addOverflow ∧ d' = d ∧ d.chain.Exceeds reach count := by
    intro reach count
    rw [onChain, Step.leaves_zoom]
    apply (h.signal_exceeds reach count).mono fun _ _ hfits => hfits
    intro stop c hc
    obtain ⟨hoverflow, rfl, hexceeds⟩ := hc
    exact ⟨hoverflow, rfl, hexceeds⟩
  cases a with
  | createHandle => exact id
  | cloneHandle handle =>
    simp only [act, withHandle, Step.leaves_bind, Step.leaves_read]
    cases d.handles[handle]? with
    | none => exact id
    | some original => exact id
  | require count =>
    rw [act, onChain, Step.leaves_zoom]
    apply (h.tallied.require count).mono
    · intro _ c hc hexceeds
      obtain ⟨hsome, hlargest⟩ := hexceeds
      rcases hc with ⟨hnone, -⟩ | ⟨ts, t, u, hts, -, hrequired, -⟩
      · exact hsome hnone
      · have hword := Count.toNat_le_largest u.required
        rw [h.tallied.total_eq hts] at hlargest
        omega
    · intro stop c hc
      obtain ⟨hoverflow, rfl, hsome, hlargest⟩ := hc
      exact ⟨hoverflow, rfl, hsome, hlargest⟩
  | signal reach count => exact hsignal reach count
  | signalBy handle count =>
    simp only [act, withHandle, Exceeds, Step.leaves_bind, Step.leaves_read]
    cases d.handles[handle]? with
    | none =>
      rintro ⟨_, hnone, -⟩
      cases hnone
    | some original =>
      apply (hsignal original.reach count).mono
      · rintro _ _ hfits ⟨_, hfound, hexceeds⟩
        cases hfound
        exact hfits hexceeds
      · intro stop d' hd'
        obtain ⟨hoverflow, hsame, hexceeds⟩ := hd'
        exact ⟨hoverflow, hsame, original, rfl, hexceeds⟩

end Desk

namespace Traffic

/-- **An overflow changes nothing.**  Whatever was asked for at a chain, in whatever order, with
whatever overflows and with however many signals under way: an act overflows just when it requires
more than the total can count, of a chain with trackers, or signals more than the first tracker
can count, if it is meant for any.  Then the chain and the handles stay as they were, and there
is no other way for an act to stop. -/
theorem act_faults_iff (moves : List Move) (a : Desk.Act) :
    (((Desk.act a).run (after moves).desk).result = .error (.fault .addOverflow) ↔
      (after moves).desk.Exceeds a) ∧
    ∀ stop, ((Desk.act a).run (after moves).desk).result = .error stop →
      stop = .fault .addOverflow ∧
        ((Desk.act a).run (after moves).desk).state = (after moves).desk := by
  apply (Desk.act_exceeds (after_orderly moves).ordered a).elim
  · intro _ hreturns hfits
    rw [hreturns]
    refine ⟨⟨fun h => ?_, fun h => (hfits h).elim⟩, fun stop h => ?_⟩
    · cases h
    · cases h
  · intro stop hstops hstop
    obtain ⟨rfl, hsame, hexceeds⟩ := hstop
    rw [hstops, hsame]
    refine ⟨⟨fun _ => hexceeds, fun _ => rfl⟩, fun stop h => ?_⟩
    cases h
    exact ⟨rfl, rfl⟩

/-- The second tracker could count one more signal, the first cannot.  An overflow comes before,
and a requirement that overflows comes after. -/
theorem act_faults_iff_again :
    (after [.act .createHandle, .act (.require 7), .act (.signal 1 4294967295),
        .act (.signalBy 0 1), .act .createHandle]).desk =
      ⟨⟨[⟨7, 4294967295⟩, ⟨7, 0⟩], 7⟩, [⟨1⟩, ⟨2⟩]⟩ ∧
    (⟨⟨[⟨7, 4294967295⟩, ⟨7, 0⟩], 7⟩, [⟨1⟩, ⟨2⟩]⟩ : Desk).Exceeds (.signalBy 1 1) :=
  ⟨rfl, (act_faults_iff [.act .createHandle, .act (.require 7), .act (.signal 1 4294967295),
    .act (.signalBy 0 1), .act .createHandle] (.signalBy 1 1)).1.1 rfl⟩

end Traffic

end FrameSchedule
