import FrameSchedule.Count
import FrameSchedule.Step

/-!
# Trackers

A tracker counts signals against a requirement and is satisfied while it has had at
least as many.  A count that would pass the largest word faults and stays as it was.
-/

namespace FrameSchedule

/-- A requirement and the signals counted against it. -/
structure Tracker where
  required : UInt32 := 0
  signalled : UInt32 := 0
  deriving DecidableEq, Inhabited

namespace Tracker

/-- As many signals as required, or more. -/
def satisfied (t : Tracker) : Bool :=
  t.required ≤ t.signalled

/-- The tracker with `count` more signals required, if they can be counted. -/
def require? (t : Tracker) (count : UInt32) : Except Fault Tracker :=
  (Count.add t.required count).map fun required => { t with required := required }

/-- The tracker after `count` more signals, if they can be counted. -/
def signal? (t : Tracker) (count : UInt32) : Except Fault Tracker :=
  (Count.add t.signalled count).map fun signalled => { t with signalled := signalled }

/-- Require `count` further signals. -/
def require (count : UInt32) : Step Tracker Unit :=
  Step.update (·.require? count)

/-- Count `count` signals; more of them than required are worth a warning. -/
def signal (count : UInt32) : Step Tracker Unit := do
  Step.update (·.signal? count)
  let t ← Step.read
  Step.onlyIf (t.required < t.signalled) (Step.note (.overSignalled t.signalled t.required))

/-! ## Equations -/

theorem satisfied_iff {t : Tracker} : t.satisfied ↔ t.required.toNat ≤ t.signalled.toNat := by
  simp [satisfied, UInt32.le_iff_toNat_le]

theorem require?_eq_ok_iff {t u : Tracker} {count : UInt32} :
    t.require? count = .ok u ↔
      u.required.toNat = t.required.toNat + count.toNat ∧ u.signalled = t.signalled := by
  rcases u with ⟨required, signalled⟩
  unfold require?
  cases h : Count.add t.required count with
  | ok sum =>
    have h := Count.add_eq_ok_iff.1 h
    simp [Except.map, ← UInt32.toNat_inj, h, eq_comm]
  | error f =>
    have h := (Count.add_eq_error_iff.1 h).1
    have := Count.toNat_le_largest required
    simp [Except.map]
    omega

theorem require?_eq_error_iff {t : Tracker} {count : UInt32} {fault : Fault} :
    t.require? count = .error fault ↔
      Count.largest < t.required.toNat + count.toNat ∧ fault = .addOverflow := by
  rw [← Count.add_eq_error_iff, require?]
  cases Count.add t.required count <;> simp [Except.map]

theorem signal?_eq_ok_iff {t u : Tracker} {count : UInt32} :
    t.signal? count = .ok u ↔
      u.signalled.toNat = t.signalled.toNat + count.toNat ∧ u.required = t.required := by
  rcases u with ⟨required, signalled⟩
  unfold signal?
  cases h : Count.add t.signalled count with
  | ok sum =>
    have h := Count.add_eq_ok_iff.1 h
    simp [Except.map, ← UInt32.toNat_inj, h, and_comm, eq_comm]
  | error f =>
    have h := (Count.add_eq_error_iff.1 h).1
    have := Count.toNat_le_largest signalled
    simp [Except.map]
    omega

theorem signal?_eq_error_iff {t : Tracker} {count : UInt32} {fault : Fault} :
    t.signal? count = .error fault ↔
      Count.largest < t.signalled.toNat + count.toNat ∧ fault = .addOverflow := by
  rw [← Count.add_eq_error_iff, signal?]
  cases Count.add t.signalled count <;> simp [Except.map]

end Tracker

end FrameSchedule
