import FrameSchedule.Error

/-!
# Counting in 32-bit words

Counts are 32-bit words.  `add`, `sub` and `ceilDiv` fault where the exact result is
not a word; `satAdd` and `satMul` stop at the largest word instead.  Each operation
is pinned to natural-number arithmetic by one lemma.
-/

namespace FrameSchedule.Count

/-- The largest count. -/
def largest : Nat :=
  UInt32.size - 1

/-- The word of a natural number, a fault when it is none. -/
def ofNat (n : Nat) : Except Fault UInt32 :=
  if n ≤ largest then .ok (UInt32.ofNat n) else .error .addOverflow

/-- The word of a natural number, the largest word when it is none. -/
def clamp (n : Nat) : UInt32 :=
  UInt32.ofNat (min n largest)

def add (a b : UInt32) : Except Fault UInt32 :=
  ofNat (a.toNat + b.toNat)

def sub (a b : UInt32) : Except Fault UInt32 :=
  if b ≤ a then .ok (a - b) else .error .subtractOverflow

def satAdd (a b : UInt32) : UInt32 :=
  clamp (a.toNat + b.toNat)

def satMul (a b : UInt32) : UInt32 :=
  clamp (a.toNat * b.toNat)

/-- The quotient, rounded up. -/
def ceilDiv (a b : UInt32) : Except Fault UInt32 :=
  if b = 0 then .error .divideByZero
  else .ok (UInt32.ofNat ((a.toNat + b.toNat - 1) / b.toNat))

/-- The sum of a list, a fault as soon as a partial sum is no word. -/
def sum (ns : List UInt32) : Except Fault UInt32 :=
  ns.foldlM add 0

/-- The sum of a list as a natural number. -/
def total : List UInt32 → Nat
  | [] => 0
  | n :: ns => n.toNat + total ns

/-! ## Bridges to the natural numbers -/

theorem toNat_le_largest (a : UInt32) : a.toNat ≤ largest := by
  have := a.toNat_lt
  simp only [largest, UInt32.size]
  omega

theorem pos_of_ne_zero {w : UInt32} (h : w ≠ 0) : 0 < w.toNat :=
  Nat.pos_of_ne_zero fun hzero => h (UInt32.toNat_inj.1 hzero)

theorem ofNat_eq_zero_iff {n : Nat} (h : n < UInt32.size) : UInt32.ofNat n = 0 ↔ n = 0 := by
  rw [UInt32.ofNat_eq_iff_mod_eq_toNat, Nat.mod_eq_of_lt h, UInt32.toNat_zero]

theorem toNat_ofNat_of_le {n : Nat} (h : n ≤ largest) : (UInt32.ofNat n).toNat = n := by
  rw [UInt32.toNat_ofNat']
  simp only [largest, UInt32.size] at h
  omega

theorem ofNat_eq_ok_iff {n : Nat} {w : UInt32} : ofNat n = .ok w ↔ w.toNat = n := by
  unfold ofNat
  constructor
  · intro h
    split at h
    · rename_i hn
      cases h
      exact toNat_ofNat_of_le hn
    · cases h
  · rintro rfl
    rw [if_pos (toNat_le_largest w), UInt32.ofNat_toNat]

theorem ofNat_eq_error_iff {n : Nat} {f : Fault} :
    ofNat n = .error f ↔ largest < n ∧ f = .addOverflow := by
  unfold ofNat
  split
  · simp; omega
  · simp [eq_comm]; omega

theorem toNat_clamp (n : Nat) : (clamp n).toNat = min n largest :=
  toNat_ofNat_of_le (Nat.min_le_right n largest)

theorem add_eq_ok_iff {a b c : UInt32} : add a b = .ok c ↔ c.toNat = a.toNat + b.toNat :=
  ofNat_eq_ok_iff

theorem add_eq_error_iff {a b : UInt32} {f : Fault} :
    add a b = .error f ↔ largest < a.toNat + b.toNat ∧ f = .addOverflow :=
  ofNat_eq_error_iff

theorem sub_eq_ok_iff {a b c : UInt32} :
    sub a b = .ok c ↔ b.toNat ≤ a.toNat ∧ c.toNat = a.toNat - b.toNat := by
  unfold sub
  constructor
  · intro h
    split at h
    · rename_i hba
      cases h
      exact ⟨UInt32.le_iff_toNat_le.1 hba, UInt32.toNat_sub_of_le a b hba⟩
    · cases h
  · rintro ⟨hba, hc⟩
    have hba : b ≤ a := UInt32.le_iff_toNat_le.2 hba
    rw [if_pos hba]
    congr 1
    apply UInt32.toNat_inj.1
    rw [UInt32.toNat_sub_of_le a b hba, hc]

theorem toNat_satAdd (a b : UInt32) : (satAdd a b).toNat = min (a.toNat + b.toNat) largest :=
  toNat_clamp _

theorem toNat_satMul (a b : UInt32) : (satMul a b).toNat = min (a.toNat * b.toNat) largest :=
  toNat_clamp _

/-- A quotient rounded up is at most its dividend. -/
theorem ceilDiv_le {a b : Nat} (hb : 0 < b) : (a + b - 1) / b ≤ a :=
  (Nat.le_mul_iff_le_left hb).1 (Nat.le_mul_of_pos_right a hb)

theorem ceilDiv_eq_ok_iff {a b c : UInt32} :
    ceilDiv a b = .ok c ↔ b ≠ 0 ∧ c.toNat = (a.toNat + b.toNat - 1) / b.toNat := by
  unfold ceilDiv
  split
  · simp_all
  · rename_i hb
    have hle := Nat.le_trans (ceilDiv_le (pos_of_ne_zero hb)) (toNat_le_largest a)
    constructor
    · intro h
      cases h
      exact ⟨hb, toNat_ofNat_of_le hle⟩
    · rintro ⟨-, hc⟩
      congr 1
      exact UInt32.toNat_inj.1 (by rw [toNat_ofNat_of_le hle, hc])

theorem exists_ceilDiv {a b : UInt32} (hb : b ≠ 0) :
    ∃ w, ceilDiv a b = .ok w ∧ w.toNat = (a.toNat + b.toNat - 1) / b.toNat :=
  ⟨_, if_neg hb, (ceilDiv_eq_ok_iff.1 (if_neg hb)).2⟩

theorem foldlM_add_eq_ok_iff {ns : List UInt32} {a n : UInt32} :
    ns.foldlM add a = .ok n ↔ n.toNat = a.toNat + total ns := by
  induction ns generalizing a with
  | nil => simp [total, pure, Except.pure, eq_comm, ← UInt32.toNat_inj]
  | cons b ns ih =>
    rw [List.foldlM_cons, total]
    cases h : add a b with
    | ok c =>
      have hc := add_eq_ok_iff.1 h
      simp only [bind, Except.bind, ih, hc]
      omega
    | error f =>
      have hf := (add_eq_error_iff.1 h).1
      have hn := toNat_le_largest n
      simp only [bind, Except.bind, reduceCtorEq, false_iff]
      omega

theorem sum_eq_ok_iff {ns : List UInt32} {n : UInt32} :
    sum ns = .ok n ↔ n.toNat = total ns := by
  simp [sum, foldlM_add_eq_ok_iff]

end FrameSchedule.Count
