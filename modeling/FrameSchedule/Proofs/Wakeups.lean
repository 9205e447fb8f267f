import FrameSchedule.Proofs.Gains
import FrameSchedule.Tracker.Waiting

/-!
# No wakeup is lost

A signal that satisfies a tracker decides to wake the waiters while it holds the lock, and wakes
them after it has let go of it.  In between others may signal, require more, come to wait or
look again.

Whoever is parked at a satisfied tracker has parked before the signal that satisfied it, and the
notice of that signal is still to be sent (`WaitRoom.Attended`).  A requirement in between takes
the satisfaction away, and then it takes another signal, with a notice of its own, to bring it
back.  So no wakeup is lost, and nobody leaves unless the tracker is satisfied
(`WaitRoom.no_wakeup_lost`).  If the tracker stays satisfied, the notices that are to be sent and
a second look of each woken waiter are all that it takes for everybody to leave
(`WaitRoom.settle_after`).
-/

namespace FrameSchedule

/-- A requirement is added, or it is more than can be counted. -/
theorem Tracker.require_leaves (count : UInt32) (t : Tracker) :
    (Tracker.require count).Leaves t
      (fun _ u => t.required ≤ u.required ∧ u.signalled = t.signalled) fun _ u => u = t := by
  rw [Tracker.require, Step.leaves_update]
  refine ⟨fun u hu => ?_, fun _ _ => rfl⟩
  obtain ⟨hrequired, hsignalled⟩ := Tracker.require?_eq_ok_iff.1 hu
  exact ⟨UInt32.le_iff_toNat_le.2 (by omega), hsignalled⟩

/-- More required and nothing signalled satisfies no tracker. -/
theorem Tracker.satisfied_of_required {t u : Tracker} (hrequired : t.required ≤ u.required)
    (hsignalled : u.signalled = t.signalled) (hu : u.satisfied) : t.satisfied := by
  have hle := UInt32.le_iff_toNat_le.1 hrequired
  rw [Tracker.satisfied_iff] at hu ⊢
  rw [hsignalled] at hu
  omega

namespace WaitRoom

variable {r r' : WaitRoom} {m : Move} {arrived : Nat}

/-! ## Moves -/

/-- What a move makes of a room, whatever it ends in. -/
def next (r : WaitRoom) (m : Move) : WaitRoom :=
  ((move m).run r).state

/-- What moves have made of a new tracker that nobody waits for. -/
def after (required : UInt32) (moves : List Move) : WaitRoom :=
  moves.foldl next { tracker := { required } }

/-- All that can come of a move. -/
inductive Moved (r : WaitRoom) : Move → WaitRoom → Prop
  /-- Without a notice, a tracker is satisfied only if it has been before. -/
  | required {t : Tracker} (count : UInt32) :
    (t.satisfied → r.tracker.satisfied) → Moved r (.require count) { r with tracker := t }
  | signalled {t : Tracker} (count : UInt32) :
    (t.satisfied → r.tracker.satisfied) → Moved r (.signal count) { r with tracker := t }
  | decided {t : Tracker} (count : UInt32) :
    t.satisfied → Moved r (.signal count) { r with tracker := t, pending := r.pending + 1 }
  | unsent : r.pending = 0 → Moved r .notify r
  | sent : r.pending ≠ 0 →
    Moved r .notify
      { r with pending := r.pending - 1, woken := r.woken + r.parked, parked := 0 }
  | passed : r.tracker.satisfied → Moved r .arrive { r with released := r.released + 1 }
  | parked : r.tracker.satisfied = false → Moved r .arrive { r with parked := r.parked + 1 }
  | unwoken : r.woken = 0 → Moved r .recheck r
  | released : r.woken ≠ 0 → r.tracker.satisfied →
    Moved r .recheck { r with woken := r.woken - 1, released := r.released + 1 }
  | parkedAgain : r.woken ≠ 0 → r.tracker.satisfied = false →
    Moved r .recheck { r with woken := r.woken - 1, parked := r.parked + 1 }

theorem next_moved (r : WaitRoom) (m : Move) : Moved r m (r.next m) := by
  cases m with
  | require count =>
    have h : (move (.require count)).Leaves r (fun _ => Moved r (.require count))
        fun _ => Moved r (.require count) := by
      rw [move, Step.leaves_zoom]
      refine (Tracker.require_leaves count r.tracker).mono (fun _ t ht => ?_) fun _ t ht => ?_
      · exact .required count (Tracker.satisfied_of_required ht.1 ht.2)
      · exact .required count (ht ▸ id)
    exact h.state
  | signal count =>
    have h : (move (.signal count)).Leaves r (fun _ => Moved r (.signal count))
        fun _ => Moved r (.signal count) := by
      -- the decision to notify compares the tracker after the count with the one before it
      have hall : ∀ t : Tracker, Moved r (.signal count)
          { r with
            tracker := t
            pending := if !r.tracker.satisfied && t.satisfied then r.pending + 1
              else r.pending } := by
        intro t
        split
        · rename_i hturned
          exact .decided count (Bool.and_eq_true_iff.1 hturned).2
        · rename_i hkept
          refine .signalled count fun ht => ?_
          simpa [ht] using hkept
      rw [move, onTracker, Step.leaves_zoom]
      exact (Tracker.signal_leaves count r.tracker).mono (fun _ t _ => hall t) fun _ t _ => hall t
    exact h.state
  | notify =>
    show Moved r .notify (sendNotice r)
    unfold sendNotice
    split
    · exact .unsent ‹_›
    · exact .sent ‹_›
  | arrive =>
    show Moved r .arrive (look r)
    unfold look
    split
    · exact .passed ‹_›
    · exact .parked (Bool.eq_false_iff.2 ‹_›)
  | recheck =>
    show Moved r .recheck (lookAgain r)
    unfold lookAgain look
    split
    · exact .unwoken ‹_›
    · split
      · exact .released ‹_› ‹_›
      · exact .parkedAgain ‹_› (Bool.eq_false_iff.2 ‹_›)

/-- Nobody leaves but by a look at a satisfied tracker. -/
theorem Moved.leaves (h : Moved r m r') : r'.released = r.released ∨
    r'.released = r.released + 1 ∧ r.tracker.satisfied ∧ r'.tracker = r.tracker := by
  cases h with
  | passed hsatisfied => exact .inr ⟨rfl, hsatisfied, rfl⟩
  | released _ hsatisfied => exact .inr ⟨rfl, hsatisfied, rfl⟩
  | _ => exact .inl rfl

/-! ## Waiters that are attended to -/

/-- Of `arrived` waiters each is parked, woken or gone, and nobody is parked at a satisfied
tracker unless a notice is to be sent. -/
structure Attended (arrived : Nat) (r : WaitRoom) : Prop where
  noticed : r.tracker.satisfied → r.parked = 0 ∨ 0 < r.pending
  all : r.parked + r.woken + r.released = arrived

namespace Attended

/-- **One move.** -/
theorem moved (h : r.Attended arrived) (hmoved : Moved r m r') :
    r'.Attended (arrived + [m].count .arrive) := by
  have hall := h.all
  cases hmoved with
  | required _ hkept => exact ⟨fun ht => h.noticed (hkept ht), hall⟩
  | signalled _ hkept => exact ⟨fun ht => h.noticed (hkept ht), hall⟩
  | decided => exact ⟨fun _ => .inr (Nat.succ_pos _), hall⟩
  | unsent => exact h
  | sent => exact ⟨fun _ => .inl rfl, by simpa [Nat.add_comm] using hall⟩
  | passed => exact ⟨h.noticed, congrArg (· + 1) hall⟩
  | parked hnot =>
    refine ⟨fun hsatisfied => ?_, ?_⟩
    · exact absurd (hnot.symm.trans hsatisfied) Bool.false_ne_true
    · rw [List.count_singleton_self, ← hall, Nat.add_right_comm r.parked,
        Nat.add_right_comm _ 1]
  | unwoken => exact h
  | released hwoken _ =>
    refine ⟨h.noticed, ?_⟩
    show r.parked + (r.woken - 1) + (r.released + 1) = arrived
    omega
  | parkedAgain hwoken hnot =>
    refine ⟨fun hsatisfied => ?_, ?_⟩
    · exact absurd (hnot.symm.trans hsatisfied) Bool.false_ne_true
    · show r.parked + 1 + (r.woken - 1) + r.released = arrived
      omega

/-- **A run of moves.** -/
theorem foldl (h : r.Attended arrived) (moves : List Move) :
    (moves.foldl next r).Attended (arrived + moves.count .arrive) := by
  induction moves generalizing r arrived with
  | nil => exact h
  | cons m moves ih =>
    have hrest := ih (h.moved (next_moved r m))
    rw [Nat.add_assoc, ← List.count_append] at hrest
    exact hrest

end Attended

theorem after_attended (required : UInt32) (moves : List Move) :
    (after required moves).Attended (moves.count .arrive) := by
  have hfresh : Attended 0 { tracker := { required } } := ⟨fun _ => .inl rfl, rfl⟩
  have hmoves := hfresh.foldl moves
  rw [Nat.zero_add] at hmoves
  exact hmoves

/-- **No wakeup is lost.**  Whatever signallers and waiters do, and however their steps are
interleaved: nobody sleeps at a satisfied tracker without a notice that is still to be sent,
nobody leaves in a step in which the tracker is not satisfied, and of those who have come all
others are parked or woken. -/
theorem no_wakeup_lost (required : UInt32) (moves : List Move) :
    ((after required moves).tracker.satisfied →
        (after required moves).parked = 0 ∨ 0 < (after required moves).pending) ∧
      (∀ m, (after required (moves ++ [m])).released = (after required moves).released ∨
        (after required (moves ++ [m])).released = (after required moves).released + 1 ∧
          (after required moves).tracker.satisfied ∧
            (after required (moves ++ [m])).tracker = (after required moves).tracker) ∧
      (after required moves).parked + (after required moves).woken +
        (after required moves).released = moves.count .arrive := by
  have h := after_attended required moves
  refine ⟨h.noticed, fun m => ?_, h.all⟩
  have hlast : after required (moves ++ [m]) = (after required moves).next m := by
    rw [after, List.foldl_append]
    rfl
  rw [hlast]
  exact (next_moved (after required moves) m).leaves

/-! ## Rooms that settle -/

/-- Notices that are sent one after the other wake all who are parked. -/
theorem repeat_sendNotice {n : Nat} (hlt : n < r.pending) :
    Nat.repeat sendNotice (n + 1) r =
      { r with pending := r.pending - (n + 1), woken := r.woken + r.parked, parked := 0 } := by
  induction n with
  | zero => exact if_neg (Nat.ne_of_gt hlt)
  | succ n ih =>
    rw [Nat.repeat, ih (Nat.lt_of_succ_lt hlt), sendNotice, if_neg (Nat.sub_ne_zero_of_lt hlt)]
    rfl

/-- Woken waiters leave one after the other while the tracker is satisfied. -/
theorem repeat_lookAgain (hsatisfied : r.tracker.satisfied) {n : Nat} (hle : n ≤ r.woken) :
    Nat.repeat lookAgain n r =
      { r with woken := r.woken - n, released := r.released + n } := by
  induction n with
  | zero => rfl
  | succ n ih =>
    rw [Nat.repeat, ih (Nat.le_of_succ_le hle), lookAgain, if_neg (Nat.sub_ne_zero_of_lt hle),
      look, if_pos hsatisfied]
    rfl

/-- At a satisfied tracker everybody leaves. -/
theorem Attended.settle (h : r.Attended arrived) (hsatisfied : r.tracker.satisfied) :
    r.settle = { tracker := r.tracker, released := arrived } := by
  rcases r with ⟨tracker, parked, woken, pending, released⟩
  have hall : released + (woken + parked) = arrived := by
    have hsum : parked + woken + released = arrived := h.all
    omega
  have hsent : Nat.repeat sendNotice pending ⟨tracker, parked, woken, pending, released⟩ =
      ⟨tracker, 0, woken + parked, 0, released⟩ := by
    cases pending with
    | zero =>
      obtain rfl : parked = 0 := (h.noticed hsatisfied).resolve_right (Nat.lt_irrefl 0)
      rfl
    | succ n =>
      rw [repeat_sendNotice (Nat.lt_succ_self n), Nat.sub_self]
  have hlooked := repeat_lookAgain (r := ⟨tracker, 0, woken + parked, 0, released⟩) hsatisfied
    (Nat.le_refl _)
  unfold WaitRoom.settle
  rw [hsent, hlooked, Nat.sub_self, hall]

/-- **A satisfied tracker lets everybody go**: when the notices are sent and the woken have
looked again, all who have come have left. -/
theorem settle_after {required : UInt32} {moves : List Move}
    (hsatisfied : (after required moves).tracker.satisfied) :
    (after required moves).settle =
      { tracker := (after required moves).tracker, released := moves.count .arrive } :=
  (after_attended required moves).settle hsatisfied

/-- The same move several times. -/
theorem foldl_replicate (m : Move) (n : Nat) (r : WaitRoom) :
    (List.replicate n m).foldl next r = Nat.repeat (·.next m) n r := by
  induction n with
  | zero => rfl
  | succ n ih =>
    rw [List.replicate_succ', List.foldl_append, ih]
    rfl

/-- **A turn is a run of moves**, so what is said of all runs holds after every turn. -/
theorem exists_moves_turn (m : Move) (r : WaitRoom) :
    ∃ moves, ((turn m).run r).state = (m :: moves).foldl next r := by
  let r₁ := r.next m
  let looks := (Nat.repeat sendNotice r₁.pending r₁).woken
  refine ⟨List.replicate r₁.pending .notify ++ List.replicate looks .recheck, ?_⟩
  rw [List.foldl_cons, List.foldl_append, foldl_replicate, foldl_replicate]
  rfl

end WaitRoom

end FrameSchedule
