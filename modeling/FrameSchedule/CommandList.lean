import FrameSchedule.Policy
import FrameSchedule.Identifier

/-!
# Command lists

What a backend is told about a list before it is recorded, the items of one scope
that go into it, and how the lists of a submission make up a render pass.

`ItemRange.slice` cuts the items of a scope into `count` parts of nearly one size:
the part with index `i` runs from `cut i` to `cut (i + 1)`, so neighbouring parts
share their border.
-/

namespace FrameSchedule

/-- The items from `start` up to, and not with, `stop`. -/
structure ItemRange where
  start : UInt32
  stop : UInt32
  deriving DecidableEq, Inhabited

def ItemRange.text (r : ItemRange) : String :=
  toString r.start.toNat ++ ".." ++ toString r.stop.toNat

/-- All items of a scope. -/
def ItemRange.whole (items : UInt32) : ItemRange :=
  ⟨0, items⟩

/-- The border before part `i` of `count`, computed in 64-bit words. -/
def ItemRange.cut (items : UInt32) (i count : Nat) : UInt32 :=
  (items.toUInt64 * UInt64.ofNat i / UInt64.ofNat count).toUInt32

/-- Part `i` of `count` nearly equal parts. -/
def ItemRange.slice (items : UInt32) (i count : Nat) : ItemRange :=
  ⟨cut items i count, cut items (i + 1) count⟩

/-- No 64-bit word overflows on the way to a border. -/
theorem ItemRange.toNat_cut {items : UInt32} {i count : Nat} (hi : i ≤ count)
    (hcount : count < UInt32.size) : (cut items i count).toNat = items.toNat * i / count := by
  have hitems := items.toNat_lt
  simp only [UInt32.size] at hcount
  have hmul : items.toNat * i ≤ 4294967295 * 4294967295 :=
    Nat.mul_le_mul (by omega) (by omega)
  have hle : items.toNat * i / count ≤ items.toNat :=
    Nat.div_le_of_le_mul (Nat.mul_comm count _ ▸ Nat.mul_le_mul_left _ hi)
  simp only [cut, UInt64.toNat_toUInt32, UInt64.toNat_div, UInt64.toNat_mul,
    UInt32.toNat_toUInt64, UInt64.toNat_ofNat']
  rw [Nat.mod_eq_of_lt (a := i) (by omega), Nat.mod_eq_of_lt (a := count) (by omega),
    Nat.mod_eq_of_lt (a := items.toNat * i) (by omega), Nat.mod_eq_of_lt (by omega)]

/-- What a command list is begun with. -/
structure ListSpec where
  label : String
  level : Level
  queue : QueueClass
  device : DeviceIndex
  /-- Position of the group in the frame. -/
  group : Nat
  /-- Position of the list in its group. -/
  index : Nat
  deriving DecidableEq, Inhabited

/-- How the lists of a submission make up render passes. -/
inductive Layout where
  /-- Every scope has a render pass of its own. -/
  | perScope
  /-- One render pass with `count` subpasses. -/
  | subpasses (count : UInt32)
  deriving DecidableEq, Inhabited

def Layout.text : Layout → String
  | .perScope => "PerScope"
  | .subpasses count => "Subpasses \x7b count: " ++ toString count.toNat ++ " \x7d"

end FrameSchedule
