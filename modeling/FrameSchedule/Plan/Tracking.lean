import FrameSchedule.Chain
import FrameSchedule.Scope

/-!
# Accounts of presentations

While a frame is walked, a ledger keeps account of what each presentation has to wait
for.  The scopes up to a presentation form an epoch with a tracker of its own.  A
tracker requires one signal for each primitive that a scope of the epoch waits for,
and one for each fence that the epoch signals and does not wait for: such a fence is
credited to the scope that signals it first.
-/

namespace FrameSchedule

/-- What an epoch has done with a fence. -/
structure FenceUse where
  fence : FenceId
  waited : Bool
  /-- Position of the scope that signalled the fence before anyone waited. -/
  signaller? : Option Nat
  deriving DecidableEq

/-- The scope whose signal is left to the presentation, if nobody waited. -/
def FenceUse.credit? (u : FenceUse) : Option Nat :=
  if u.waited then none else u.signaller?

/-- The account of a walk. -/
structure Ledger where
  chain : Chain
  /-- The handle of the present epoch. -/
  handle : Handle
  /-- The fences of the present epoch, in the order of first use. -/
  fences : List FenceUse := []
  /-- How many of them are signalled and not waited for. -/
  unwaited : UInt32 := 0
  /-- The position of a scope, once for each fence credited to it. -/
  credits : List Nat := []
  /-- The swapchains presented, each with the position of its tracker. -/
  presentations : List (SwapchainId × Nat) := []
  deriving DecidableEq

namespace Ledger

/-- A step on the chain. -/
def onChain {α : Type} (x : Step Chain α) : Step Ledger α :=
  x.zoom (·.chain) fun c l => { l with chain := c }

/-- A ledger in its first epoch. -/
def opening : Ledger :=
  let chain := ({} : Chain).grow
  { chain, handle := chain.handle }

/-- Begin an epoch. -/
def newEpoch : Step Ledger Unit := do
  let handle ← onChain Chain.createHandle
  Step.modify fun l => { l with handle := handle }

/-- A scope signals a fence: it counts when the epoch has not used the fence. -/
def signalFence (scope : Nat) (fence : FenceId) : Step Ledger Unit :=
  Step.update fun l =>
    if l.fences.any (·.fence = fence) then .ok l
    else (Count.add l.unwaited 1).map fun unwaited =>
      { l with fences := l.fences ++ [⟨fence, false, some scope⟩], unwaited := unwaited }

/-- Mark a fence as waited for. -/
def markWaited (fence : FenceId) (u : FenceUse) : FenceUse :=
  if u.fence = fence then { u with waited := true } else u

/-- A scope waits for a fence: a signal of the epoch is then taken. -/
def waitFence (fence : FenceId) : Step Ledger Unit :=
  Step.update fun l =>
    match l.fences.find? (·.fence = fence) with
    | none => .ok { l with fences := l.fences ++ [⟨fence, true, none⟩] }
    | some use =>
      if use.waited then .ok l
      else (Count.sub l.unwaited 1).map fun unwaited =>
        { l with fences := l.fences.map (markWaited fence), unwaited := unwaited }

/-- Credit the fences that are left over to their signallers, and forget all fences. -/
def credit (l : Ledger) : Ledger :=
  { l with credits := l.credits ++ l.fences.filterMap (·.credit?), unwaited := 0, fences := [] }

/-- A swapchain waits for the tracker of the present epoch. -/
def attach (l : Ledger) (swapchain : SwapchainId) : Ledger :=
  { l with presentations := l.presentations ++ [(swapchain, l.chain.trackers.length - 1)] }

/-- A scope presents a swapchain: the fences that are left over are required and
credited, and the epoch's tracker is the one to wait for. -/
def present (scope : String) (swapchain : SwapchainId) : Step Ledger Unit := do
  let l ← Step.read
  onChain (Chain.require l.unwaited)
  Step.modify credit
  let l ← Step.read
  match l.chain.current? with
  | none => return
  | some tracker =>
    Step.note (.presenting swapchain scope tracker.required)
    Step.write (l.attach swapchain)

/-- Enter the scope at a position, behind the scope `previous?`. -/
def enter (position : Nat) (previous? : Option PlacedScope) (scope : PlacedScope) :
    Step Ledger Unit := do
  Step.onlyIf (previous?.any (·.sync.presents)) newEpoch
  Step.forEach (signalFence position) scope.sync.signalFences
  Step.forEach waitFence scope.sync.waitFences
  onChain (Chain.require scope.sync.waitCount)
  Step.forEach (present scope.name) scope.sync.swapchains

/-- The signals that the scope at a position accounts for: one for each primitive it
waits for and one for each fence credited to it. -/
def account (l : Ledger) (position : Nat) (scope : PlacedScope) : Except Fault UInt32 := do
  Count.add scope.sync.waitCount (← Count.ofNat (l.credits.count position))

/-- The signals that scopes in a row account for, the first of them at `start`. -/
def accounts (l : Ledger) (start : Nat) (members : List PlacedScope) : Except Fault UInt32 := do
  Count.sum (← (members.zipIdx start).mapM fun m => l.account m.2 m.1)

end Ledger

end FrameSchedule
