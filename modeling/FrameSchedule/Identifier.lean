/-!
# Identifiers

Devices, execution groups and scopes are numbered by 32-bit words, the
synchronization primitives by 64-bit words.  Each kind of number is a type of its
own, so a fence is never compared with a semaphore of the same number.
-/

namespace FrameSchedule

/-- The number of a device. -/
structure DeviceIndex where
  word : UInt32
  deriving DecidableEq, Inhabited

/-- The number of an execution group: scopes with one group number are the
subpasses of one render pass. -/
structure GroupId where
  word : UInt32
  deriving DecidableEq, Inhabited

/-- The number of a scope: its position in the frame. -/
structure ScopeId where
  word : UInt32
  deriving DecidableEq, Inhabited

/-- A semaphore between two submissions. -/
structure SemaphoreId where
  word : UInt64
  deriving DecidableEq, Inhabited

/-- A fence between two submissions. -/
structure FenceId where
  word : UInt64
  deriving DecidableEq, Inhabited

/-- A swapchain that a scope presents. -/
structure SwapchainId where
  word : UInt64
  deriving DecidableEq, Inhabited

/-- A device is written with a number sign. -/
def DeviceIndex.text (d : DeviceIndex) : String :=
  "#" ++ toString d.word.toNat

/-- A group is written as the word `group` and its number. -/
def GroupId.text (g : GroupId) : String :=
  "group" ++ toString g.word.toNat

/-- A swapchain is written with its type's name around the number. -/
def SwapchainId.text (s : SwapchainId) : String :=
  "SwapchainId(" ++ toString s.word.toNat ++ ")"

/-- Group numbers from here on are handed out to scopes that name no group. -/
def GroupId.implicitBase : Nat :=
  UInt32.size / 2

end FrameSchedule
