import FrameSchedule.Count

/-!
# Limits of a device

How much one command list of a device takes, and what a scope costs there.  A scope
with many items gets a larger threshold, so that it is never split into more than
`listsMax` lists for its items alone.
-/

namespace FrameSchedule

/-- What a device allows. -/
structure Limits where
  /-- The least cost for which a command list of its own pays. -/
  costMin : UInt32 := 250
  /-- The most lists that the items of one scope are split into. -/
  listsMax : UInt32 := 16
  itemCost : UInt32 := 1
  attachmentCost : UInt32 := 8
  /-- The most swapchains that one list presents. -/
  swapchainsMax : UInt32 := 8
  deriving DecidableEq, Inhabited

namespace Limits

/-- The first flaw of the limits. -/
def flaw? (l : Limits) : Option LimitFlaw :=
  if l.costMin = 0 then some .costThreshold
  else if l.listsMax = 0 then some .listsPerScope
  else if l.swapchainsMax = 0 then some .swapchainsPerList
  else none

/-- Refuse limits that no schedule meets. -/
def check (l : Limits) (device : DeviceIndex) : Except Error Unit :=
  match l.flaw? with
  | some flaw => .error (.invalidLimits device flaw)
  | none => .ok ()

/-- The cost that one command list takes of a scope with so many items. -/
def threshold (l : Limits) (items : UInt32) : Except Fault UInt32 :=
  (Count.ceilDiv items l.listsMax).map (max l.costMin)

/-- The cost of a scope. -/
def cost (l : Limits) (items attachments : UInt32) : UInt32 :=
  Count.satAdd (Count.satMul items l.itemCost) (Count.satMul attachments l.attachmentCost)

theorem flaw?_eq_none_iff {l : Limits} :
    l.flaw? = none ↔ l.costMin ≠ 0 ∧ l.listsMax ≠ 0 ∧ l.swapchainsMax ≠ 0 := by
  unfold flaw?
  grind

end Limits

/-- The limits of a device and what it can do. -/
structure DeviceProfile where
  limits : Limits := {}
  /-- Fences can be signalled from the CPU, so presentations can be tracked. -/
  tracking : Bool := false
  deriving DecidableEq, Inhabited

end FrameSchedule
