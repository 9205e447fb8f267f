import FrameSchedule.Identifier

/-!
# Errors and faults

A call that is refused answers with an `Error`: the caller asked for something the
scheduler does not do in its present state, or the backend declined.  A call whose
precondition is broken ends in a `Fault` at the point where the breach is noticed.
Both stop the call, and both have one fixed wording.
-/

namespace FrameSchedule

/-- What is wrong with the limits of a device. -/
inductive LimitFlaw where
  | costThreshold
  | listsPerScope
  | swapchainsPerList
  deriving DecidableEq

def LimitFlaw.message : LimitFlaw → String
  | .costThreshold => "command list cost threshold must be non-zero"
  | .listsPerScope => "command lists per scope must be non-zero"
  | .swapchainsPerList => "at least one swapchain per command list is required"

/-- Why a call was refused. -/
inductive Error where
  | invalidLimits (device : DeviceIndex) (flaw : LimitFlaw)
  | missingLimits (device : DeviceIndex)
  | notInitialized
  | frameInProgress
  | noFrame
  | alreadyRecorded
  | invalidGroup (index : Nat)
  | recordingFailed (reason : String)
  | submissionFailed (reason : String)
  deriving DecidableEq

def Error.message : Error → String
  | .invalidLimits device flaw =>
    "invalid platform limits for device " ++ device.text ++ ": " ++ flaw.message
  | .missingLimits device => "no platform limits registered for device " ++ device.text
  | .notInitialized => "executer has not been initialized"
  | .frameInProgress => "a frame is already in progress"
  | .noFrame => "no frame in progress"
  | .alreadyRecorded => "the current frame has already been recorded"
  | .invalidGroup index =>
    "execute group " ++ toString index ++ " does not exist in this frame"
  | .recordingFailed reason => "command list recording failed: " ++ reason
  | .submissionFailed reason => "queue submission failed: " ++ reason

/-- A broken precondition. -/
inductive Fault where
  | addOverflow
  | subtractOverflow
  | divideByZero
  /-- A scope asks for a group number that is handed out by the graph. -/
  | reservedGroup (group : GroupId)
  /-- A scope asks for a group that other scopes separate from it. -/
  | scatteredGroup (group : GroupId) (scope : String)
  /-- A scope that belongs to no graph has no group. -/
  | unplacedScope
  | emptyGroup (index : Nat)
  | sharedSecondary (index : Nat)
  | noLists (index : Nat)
  | splitGroup (group : GroupId)
  | unhandledGroup (group : GroupId)
  | listOutOfRange (list : Nat) (label : String)
  | listRecordedTwice (list : Nat) (label : String)
  /-- The backend gave up in the middle of a call. -/
  | backend (reason : String)
  deriving DecidableEq

def Fault.message : Fault → String
  | .addOverflow => "attempt to add with overflow"
  | .subtractOverflow => "attempt to subtract with overflow"
  | .divideByZero => "attempt to divide by zero"
  | .reservedGroup group => group.text ++ " is reserved for implicit groups"
  | .scatteredGroup group scope =>
    "scopes of " ++ group.text ++ " must be contiguous (scope '" ++ scope ++ "')"
  | .unplacedScope => "scope must be added to a FrameGraph before it is scheduled"
  | .emptyGroup index => "execute group " ++ toString index ++ " has no scopes"
  | .sharedSecondary index => "secondary group " ++ toString index ++ " must hold one scope"
  | .noLists index => "secondary group " ++ toString index ++ " has no command lists"
  | .splitGroup group => group.text ++ " is split across non-contiguous execute groups"
  | .unhandledGroup group => "no execute group handler registered for " ++ group.text
  | .listOutOfRange list label =>
    "command list " ++ toString list ++ " out of range for group '" ++ label ++ "'"
  | .listRecordedTwice list label =>
    "command list " ++ toString list ++ " of group '" ++ label ++ "' recorded twice"
  | .backend reason => reason

/-- Why a call did not return a value. -/
inductive Stop where
  | error (e : Error)
  | fault (f : Fault)
  deriving DecidableEq

end FrameSchedule
