import Ostep.Library.Machine

namespace Ostep.Library.Fifo

variable {α : Type}

inductive Call (α : Type) where
  | push (value : α)
  | pop
  deriving Repr, DecidableEq

inductive Reply (α : Type) where
  | pushed (success : Bool)
  | popped (value : Option α)
  deriving Repr, DecidableEq

/-- A bounded queue takes values at its back and gives them from its front. -/
def step (capacity : Nat) (queue : List α) : Call α → List α × Reply α
  | .push value => if queue.length < capacity then (queue ++ [value], .pushed true) else (queue, .pushed false)
  | .pop => (queue.tail, .popped queue.head?)

def machine (capacity : Nat) : Machine (List α) (Call α) (Reply α) where
  step queue call := some ((step capacity queue call).1, [(step capacity queue call).2])

/-- A step keeps the queue within its capacity. -/
theorem length_step_le {capacity : Nat} {queue : List α} (bounded : queue.length ≤ capacity) (call : Call α) :
    (step capacity queue call).1.length ≤ capacity := by
  cases call with
  | push value =>
      rw [step]
      split
      · next room => rwa [List.length_append, List.length_singleton, Nat.succ_le_iff]
      · exact bounded
  | pop =>
      rw [step, List.length_tail]
      omega

/-- Every schedule runs on a queue within its capacity. -/
theorem run_exists (capacity : Nat) (schedule : List (Call α)) :
    ∃ queue replies, (machine capacity).run [] schedule = some (queue, replies) ∧ queue.length ≤ capacity :=
  (machine capacity).run_exists_along (fun _ _ => True) (fun _ queue => queue.length ≤ capacity)
    (fun _ _ call bounded _ => ⟨_, _, rfl, length_step_le bounded call⟩) (Nat.zero_le capacity)
    ((machine capacity).along_true [] schedule)

end Ostep.Library.Fifo
