import FrameSchedule.Identifier

/-!
# Synchronization

What a scope, or a submission, waits for and signals, and which swapchains it
presents.  `Sync.union` joins two such lists of wishes: what both name is kept once,
at its first place.
-/

namespace FrameSchedule

/-- The synchronization primitives of a piece of work. -/
structure Sync where
  waitSemaphores : List SemaphoreId := []
  signalSemaphores : List SemaphoreId := []
  waitFences : List FenceId := []
  signalFences : List FenceId := []
  swapchains : List SwapchainId := []
  deriving DecidableEq, Inhabited

namespace Sync

/-- The work has to wait before it starts. -/
def hasWaits (s : Sync) : Bool :=
  !s.waitSemaphores.isEmpty || !s.waitFences.isEmpty

/-- The work signals something when it is done. -/
def hasSignals (s : Sync) : Bool :=
  !s.signalSemaphores.isEmpty || !s.signalFences.isEmpty

/-- The work presents something. -/
def presents (s : Sync) : Bool :=
  !s.swapchains.isEmpty

/-- The number of primitives waited for, as a word. -/
def waitCount (s : Sync) : UInt32 :=
  UInt32.ofNat (s.waitSemaphores.length + s.waitFences.length)

/-- The number of swapchains presented, as a word. -/
def swapchainCount (s : Sync) : UInt32 :=
  UInt32.ofNat s.swapchains.length

/-- Append to a list what it does not hold yet. -/
def addNew {α : Type} [DecidableEq α] (xs : List α) : List α → List α
  | [] => xs
  | y :: ys => if y ∈ xs then addNew xs ys else addNew (xs ++ [y]) ys

def union (a b : Sync) : Sync where
  waitSemaphores := addNew a.waitSemaphores b.waitSemaphores
  signalSemaphores := addNew a.signalSemaphores b.signalSemaphores
  waitFences := addNew a.waitFences b.waitFences
  signalFences := addNew a.signalFences b.signalFences
  swapchains := addNew a.swapchains b.swapchains

/-- Everything that some piece of work of a list asks for, once. -/
def unionAll (ss : List Sync) : Sync :=
  ss.foldl union {}

section Lists

variable {α : Type} [DecidableEq α]

theorem nodup_addNew {xs : List α} (h : xs.Nodup) (ys : List α) : (addNew xs ys).Nodup := by
  induction ys generalizing xs with
  | nil => exact h
  | cons y ys ih =>
    rw [addNew]
    split
    · exact ih h
    · rename_i hy
      exact ih (List.nodup_append.2 ⟨h, by simp, by grind⟩)

theorem eraseDups_concat (xs : List α) (y : α) :
    (xs ++ [y]).eraseDups = if y ∈ xs then xs.eraseDups else xs.eraseDups ++ [y] := by
  rw [List.eraseDups_append]
  by_cases hy : y ∈ xs
  · simp [hy, List.removeAll]
  · simp [hy, List.removeAll, List.eraseDups_cons]

/-- What is new at the end of a list is what is not repeated there. -/
theorem addNew_eraseDups (xs ys : List α) : addNew xs.eraseDups ys = (xs ++ ys).eraseDups := by
  induction ys generalizing xs with
  | nil => rw [addNew, List.append_nil]
  | cons y ys ih =>
    have hnext := ih (xs ++ [y])
    rw [eraseDups_concat, List.append_assoc, List.singleton_append] at hnext
    rw [addNew, ← hnext]
    simp only [List.mem_eraseDups]
    split <;> rfl

/-- A field of a union has what the field has in the parts, in order, and nothing twice. -/
theorem unionAll_field {f : Sync → List α} (hnone : f {} = [])
    (hunion : ∀ a b, f (a.union b) = addNew (f a) (f b)) (ss : List Sync) :
    f (unionAll ss) = (ss.flatMap f).eraseDups := by
  have hfold : ∀ (a : Sync) (xs : List α), f a = xs.eraseDups →
      f (ss.foldl union a) = (xs ++ ss.flatMap f).eraseDups := by
    induction ss with
    | nil =>
      intro a xs ha
      rw [List.foldl_nil, List.flatMap_nil, List.append_nil, ha]
    | cons s ss ih =>
      intro a xs ha
      rw [List.foldl_cons, List.flatMap_cons, ← List.append_assoc]
      apply ih
      rw [hunion, ha, addNew_eraseDups]
  have hall := hfold {} [] (by rw [hnone, List.eraseDups_nil])
  rwa [List.nil_append] at hall

end Lists

end Sync

end FrameSchedule
