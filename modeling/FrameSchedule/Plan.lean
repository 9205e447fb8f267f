import FrameSchedule.Graph
import FrameSchedule.Plan.Merge

/-!
# Plans

The plan of a frame: its groups, the handlers that submit them, and, if presentations
are tracked, the chain of trackers and which tracker each presentation waits for.
A plan does not change while the frame is recorded; the chain in it is the state from
which the frame starts.
-/

namespace FrameSchedule

/-- What is to be recorded and submitted in a frame. -/
structure Plan where
  groups : List Group := []
  handlers : List Handler := []
  chain? : Option Chain := none
  /-- The swapchains presented, each with the position of its tracker. -/
  presentations : List (SwapchainId × Nat) := []
  deriving DecidableEq

namespace Plan

/-- The signals of a group.  Without a ledger there are none. -/
def signalsOf (ledger? : Option Ledger) (d : Draft) : Except Fault UInt32 :=
  match ledger? with
  | some ledger => ledger.accounts d.start d.members
  | none => .ok 0

/-- Make groups of drafts, numbered in order. -/
def groupsOf (job : JobPolicy) (ledger? : Option Ledger) (drafts : List Draft) :
    Except Fault (List Group) :=
  drafts.zipIdx.mapM fun d => do Group.ofDraft d.2 job (← signalsOf ledger? d.1) d.1

/-- Number the groups and gather them into handlers. -/
def ofDrafts (job : JobPolicy) (ledger? : Option Ledger) (drafts : List Draft) :
    Except Fault Plan := do
  let groups ← groupsOf job ledger? drafts
  let handlers ← Handler.ofGroups groups
  return {
    groups, handlers
    chain? := ledger?.map (·.chain)
    presentations := (ledger?.map (·.presentations)).getD [] }

/-- The plan of a frame under a policy.  All devices in use must be configured. -/
def ofGraph {σ : Type} (config : Config) (policy : SchedulePolicy) (graph : Graph) :
    Step σ Plan := do
  let sited ← Step.ofError (config.site graph.scopes)
  match policy with
  | .parallel =>
    let merge ← Merge.ofScopes sited
    Step.ofFault (ofDrafts policy.job merge.ledger? merge.drafts)
  | .lockstep => Step.ofFault (ofDrafts policy.job none (lockstep 0 none graph.scopes))

/-- The group signals the tracker at a position. -/
def reaches (position : Nat) (g : Group) : Bool :=
  g.handle?.any (position < ·.reach)

/-- All signals that the frame sends to the tracker at a position. -/
def reachable (p : Plan) (position : Nat) : Except Fault UInt32 :=
  Count.sum ((p.groups.filter (reaches position)).map (·.signals))

/-- The trackers that require more than all signals of the frame: each with its
position, the signals that reach it and the signals it requires. -/
def unreachable (p : Plan) : Except Fault (List (Nat × UInt32 × UInt32)) := do
  let trackers := (p.chain?.map (·.trackers)).getD []
  let sums ← trackers.zipIdx.mapM fun t => do
    return (t.2, ← p.reachable t.2, t.1.required)
  return sums.filter fun s => s.2.1 < s.2.2

/-- The handler of a group number. -/
def handlerIndex? (p : Plan) (id : GroupId) : Option Nat :=
  p.handlers.findIdx? (·.id = id)

/-- All command lists of the frame, in order. -/
def tasks (p : Plan) : List (Group × Nat) :=
  p.groups.flatMap (·.tasks)

end Plan

end FrameSchedule
