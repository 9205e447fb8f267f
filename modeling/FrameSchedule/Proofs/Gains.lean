import FrameSchedule.Chain
import FrameSchedule.Proofs.Stops

/-!
# What a signal does to trackers

A signal adds its count to the first trackers of a list, in order, and stops at the first that
cannot count it (`Chain.signalFirst_leaves`).  Requirements stay as they are (`Tracker.Gain`).
-/

namespace FrameSchedule

/-! ## Gains -/

/-- Every tracker has had as many further signals as `gain` says for its position. -/
structure Tracker.Gain (gain : Nat → Nat) (ts us : List Tracker) : Prop where
  length : us.length = ts.length
  required : ∀ (k : Nat) (t u : Tracker), ts[k]? = some t → us[k]? = some u →
    u.required = t.required
  signalled : ∀ (k : Nat) (t u : Tracker), ts[k]? = some t → us[k]? = some u →
    u.signalled.toNat = t.signalled.toNat + gain k

namespace Tracker.Gain

variable {gain gain' : Nat → Nat} {ts us vs : List Tracker}

theorem refl (hzero : ∀ k, gain k = 0) : Gain gain ts ts where
  length := rfl
  required k t u ht hu := by
    rw [ht, Option.some_inj] at hu
    rw [hu]
  signalled k t u ht hu := by
    rw [ht, Option.some_inj] at hu
    rw [hu, hzero, Nat.add_zero]

/-- There are as many trackers as before. -/
theorem exists_before (h : Gain gain ts us) {k : Nat} {u : Tracker} (hu : us[k]? = some u) :
    ∃ t, ts[k]? = some t := by
  have hlt := (List.getElem?_eq_some_iff.1 hu).1
  exact ⟨_, List.getElem?_eq_getElem (h.length ▸ hlt)⟩

theorem trans (h : Gain gain ts us) (h' : Gain gain' us vs) :
    Gain (fun k => gain k + gain' k) ts vs := by
  refine ⟨h'.length.trans h.length, fun k t v ht hv => ?_, fun k t v ht hv => ?_⟩
  · obtain ⟨u, hu⟩ := h'.exists_before hv
    rw [h'.required k u v hu hv, h.required k t u ht hu]
  · obtain ⟨u, hu⟩ := h'.exists_before hv
    rw [h'.signalled k u v hu hv, h.signalled k t u ht hu, Nat.add_assoc]

theorem congr (h : Gain gain ts us) (heq : ∀ k, gain k = gain' k) : Gain gain' ts us := by
  rwa [← funext heq]

theorem map_required (h : Gain gain ts us) : us.map (·.required) = ts.map (·.required) := by
  apply List.ext_getElem (by rw [List.length_map, List.length_map, h.length])
  intro k hk hk'
  rw [List.length_map] at hk hk'
  rw [List.getElem_map, List.getElem_map]
  exact h.required k _ _ (List.getElem?_eq_getElem hk') (List.getElem?_eq_getElem hk)

/-- Trackers that have had no further signals are the same. -/
theorem eq_of_zero (h : Gain gain ts us) (hzero : ∀ k, gain k = 0) : us = ts := by
  apply List.ext_getElem h.length
  intro k hk hk'
  have ht := List.getElem?_eq_getElem hk'
  have hu := List.getElem?_eq_getElem hk
  have hsignalled := h.signalled k _ _ ht hu
  rw [hzero, Nat.add_zero] at hsignalled
  rw [Tracker.mk.injEq]
  exact ⟨h.required k _ _ ht hu, UInt32.toNat_inj.1 hsignalled⟩

/-- The first tracker has had `gain' 0` signals, the others what `gain` says. -/
theorem cons {t u : Tracker} (hrequired : u.required = t.required)
    (hsignalled : u.signalled.toNat = t.signalled.toNat + gain' 0) (h : Gain gain ts us)
    (hrest : ∀ k, gain' (k + 1) = gain k) : Gain gain' (t :: ts) (u :: us) := by
  refine ⟨congrArg (· + 1) h.length, fun k t' u' ht hu => ?_, fun k t' u' ht hu => ?_⟩
  · cases k with
    | zero =>
      cases ht
      cases hu
      exact hrequired
    | succ k => exact h.required k t' u' ht hu
  · cases k with
    | zero =>
      cases ht
      cases hu
      exact hsignalled
    | succ k => rw [h.signalled k t' u' ht hu, hrest]

/-- One of the trackers has had `n` signals. -/
theorem set {i n : Nat} {t u : Tracker} (ht : ts[i]? = some t)
    (hrequired : u.required = t.required)
    (hsignalled : u.signalled.toNat = t.signalled.toNat + n) :
    Gain (fun k => if k = i then n else 0) ts (ts.set i u) := by
  have hcases : ∀ (k : Nat) (t' u' : Tracker), ts[k]? = some t' → (ts.set i u)[k]? = some u' →
      k = i ∧ t' = t ∧ u' = u ∨ k ≠ i ∧ u' = t' := by
    intro k t' u' ht' hu'
    rcases Decidable.em (k = i) with rfl | hne
    · rw [List.getElem?_set_self (List.getElem?_eq_some_iff.1 ht).1] at hu'
      exact .inl ⟨rfl, Option.some_inj.1 (ht'.symm.trans ht), (Option.some_inj.1 hu').symm⟩
    · rw [List.getElem?_set_ne (Ne.symm hne)] at hu'
      exact .inr ⟨hne, Option.some_inj.1 (hu'.symm.trans ht')⟩
  refine ⟨List.length_set, fun k t' u' ht' hu' => ?_, fun k t' u' ht' hu' => ?_⟩
  · rcases hcases k t' u' ht' hu' with ⟨-, rfl, rfl⟩ | ⟨-, rfl⟩
    · exact hrequired
    · rfl
  · rcases hcases k t' u' ht' hu' with ⟨hk, rfl, rfl⟩ | ⟨hne, rfl⟩
    · rw [if_pos hk, hsignalled]
    · rw [if_neg hne, Nat.add_zero]

end Tracker.Gain

/-! ## Signals -/

/-- A signal is counted, or it is more than can be counted. -/
theorem Tracker.signal_leaves (count : UInt32) (t : Tracker) :
    (Tracker.signal count).Leaves t
      (fun _ u => u.required = t.required ∧
        u.signalled.toNat = t.signalled.toNat + count.toNat)
      fun stop u => stop = .fault .addOverflow ∧ u = t ∧
        Count.largest < t.signalled.toNat + count.toNat := by
  simp only [Tracker.signal, Step.leaves_bind, Step.leaves_update, Step.leaves_read,
    Step.leaves_onlyIf, Step.leaves_note]
  constructor
  · intro u hu
    obtain ⟨hsignalled, hrequired⟩ := Tracker.signal?_eq_ok_iff.1 hu
    exact ⟨fun _ => ⟨hrequired, hsignalled⟩, fun _ => ⟨hrequired, hsignalled⟩⟩
  · intro fault hfault
    obtain ⟨hlargest, rfl⟩ := Tracker.signal?_eq_error_iff.1 hfault
    exact ⟨rfl, trivial, hlargest⟩

namespace Chain

/-- **A signal** is counted by the first trackers, as far as they can count it. -/
theorem signalFirst_leaves (count : UInt32) (reach : Nat) (ts : List Tracker) :
    Step.Leaves (signalFirst count reach) ts
      (fun (_ : Unit) us => Tracker.Gain (fun k => if k < reach then count.toNat else 0) ts us)
      fun stop us => stop = .fault .addOverflow ∧ ∃ m t, m < reach ∧ ts[m]? = some t ∧
        Count.largest < t.signalled.toNat + count.toNat ∧
          Tracker.Gain (fun k => if k < m then count.toNat else 0) ts us := by
  induction reach generalizing ts with
  | zero => exact .refl fun k => if_neg (Nat.not_lt_zero k)
  | succ reach ih =>
    cases ts with
    | nil => exact ⟨rfl, by simp, by simp⟩
    | cons t ts =>
      have hrun : Step.run (signalFirst count (reach + 1)) (t :: ts) =
          signalFirst count (reach + 1) (t :: ts) := rfl
      unfold Step.Leaves
      rw [hrun, signalFirst]
      apply (Tracker.signal_leaves count t).elim
      · intro _ hresult hfirst
        -- the signals to the others, behind a first one that was counted
        have hbehind : ∀ (n : Nat) (us : List Tracker),
            Tracker.Gain (fun k => if k < n then count.toNat else 0) ts us →
              Tracker.Gain (fun k => if k < n + 1 then count.toNat else 0) (t :: ts)
                (((Tracker.signal count).run t).state :: us) := by
          intro n us hus
          refine .cons hfirst.1 ?_ hus fun k => ?_
          · rw [if_pos (Nat.succ_pos n)]
            exact hfirst.2
          · simp only [Nat.add_lt_add_iff_right]
        simp only [hresult]
        apply (ih ts).elim
        · intro _ hrest hgain
          have hrest' : (signalFirst count reach ts).result = .ok () := hrest
          rw [hrest']
          exact hbehind reach _ hgain
        · intro stop hrest hstop
          have hrest' : (signalFirst count reach ts).result = .error stop := hrest
          obtain ⟨rfl, m, u, hm, hu, hlargest, hgain⟩ := hstop
          rw [hrest']
          exact ⟨rfl, m + 1, u, Nat.succ_lt_succ hm, hu, hlargest, hbehind m _ hgain⟩
      · intro stop hresult hfirst
        obtain ⟨rfl, hsame, hlargest⟩ := hfirst
        simp only [hresult]
        refine ⟨trivial, 0, t, Nat.succ_pos reach, rfl, hlargest, ?_⟩
        rw [hsame]
        exact .refl fun k => if_neg (Nat.not_lt_zero k)

/-- A signal changes nothing but the counts of signals, and stops at a tracker that cannot count
it. -/
theorem signal_leaves (reach : Nat) (count : UInt32) (c : Chain) :
    (signal reach count).Leaves c
      (fun _ d => d.total = c.total ∧
        Tracker.Gain (fun k => if k < reach then count.toNat else 0) c.trackers d.trackers)
      fun stop d => stop = .fault .addOverflow ∧ d.total = c.total ∧ ∃ m t, m < reach ∧
        c.trackers[m]? = some t ∧ Count.largest < t.signalled.toNat + count.toNat ∧
          Tracker.Gain (fun k => if k < m then count.toNat else 0) c.trackers d.trackers := by
  have hfirst := signalFirst_leaves count reach c.trackers
  refine Step.leaves_zoom.2 (hfirst.mono (fun _ us hus => ⟨rfl, hus⟩) fun stop us hstop => ?_)
  obtain ⟨hoverflow, hus⟩ := hstop
  exact ⟨hoverflow, rfl, hus⟩

/-- A signal to one tracker changes nothing but its count of signals. -/
theorem signalAt_leaves (index : Nat) (count : UInt32) (c : Chain) :
    (signalAt index count).Leaves c
      (fun _ d => d.total = c.total ∧
        Tracker.Gain (fun k => if k = index then count.toNat else 0) c.trackers d.trackers)
      fun stop d => stop = .fault .addOverflow ∧ d = c := by
  rw [signalAt, Step.leaves_bind, Step.leaves_read]
  cases ht : c.trackers[index]? with
  | none =>
    refine ⟨rfl, rfl, fun k t u ht' hu => ?_, fun k t u ht' hu => ?_⟩
    · rw [Option.some_inj.1 (ht'.symm.trans hu)]
    · have hne : k ≠ index := by
        rintro rfl
        cases ht.symm.trans ht'
      rw [if_neg hne, Nat.add_zero, Option.some_inj.1 (ht'.symm.trans hu)]
  | some t =>
    simp only [Step.leaves_bind, Step.leaves_zoom, Step.leaves_pure]
    apply (Tracker.signal_leaves count t).mono
    · exact fun _ u hu => ⟨rfl, .set ht hu.1 hu.2⟩
    · intro stop u hstop
      obtain ⟨hoverflow, rfl, -⟩ := hstop
      obtain ⟨hlt, rfl⟩ := List.getElem?_eq_some_iff.1 ht
      rw [putAt, List.set_getElem_self]
      exact ⟨hoverflow, rfl⟩

end Chain

end FrameSchedule
