/-
This file models the barrier built from two semaphores, and the threads that call it once.
Each semaphore operation and each access to the count is one step.
-/

import Mathlib.Logic.Function.Basic
import Ostep.Library.Machine

namespace Ostep.Barrier

open Library

/-- The fields of the barrier. The semaphores hold their values. -/
structure Shared where
  count : Nat
  numThreads : Nat
  lock : Nat
  barrier : Nat
  deriving Repr, DecidableEq

/-- The next access of a thread. -/
inductive Pc where
  | waitLock
  | readCount
  | writeCount (count : Nat)
  | testCount
  | postBarrier
  | postLock
  | waitBarrier
  | passBarrier
  | returned
  deriving Repr, DecidableEq

inductive Event (Thread : Type) where
  | counted (thread : Thread)
  | returned (thread : Thread)
  deriving Repr, DecidableEq

variable {Thread : Type}

/-- One access of a thread. A wait blocks while its semaphore is zero. -/
def access (shared : Shared) (thread : Thread) : Pc → Option (Shared × Pc × List (Event Thread))
  | .waitLock => if 0 < shared.lock then some ({ shared with lock := shared.lock - 1 }, .readCount, []) else none
  | .readCount => some (shared, .writeCount shared.count, [])
  | .writeCount count => some ({ shared with count := count + 1 }, .testCount, [.counted thread])
  | .testCount => some (shared, if shared.count = shared.numThreads then .postBarrier else .postLock, [])
  | .postBarrier => some ({ shared with barrier := shared.barrier + 1 }, .postLock, [])
  | .postLock => some ({ shared with lock := shared.lock + 1 }, .waitBarrier, [])
  | .waitBarrier =>
      if 0 < shared.barrier then some ({ shared with barrier := shared.barrier - 1 }, .passBarrier, []) else none
  | .passBarrier => some ({ shared with barrier := shared.barrier + 1 }, .returned, [.returned thread])
  | .returned => none

structure State (Thread : Type) where
  shared : Shared
  threads : Thread → Pc

variable [DecidableEq Thread]

/-- The threads interleave their accesses. -/
def machine : Machine (State Thread) Thread (Event Thread) where
  step state thread :=
    (access state.shared thread (state.threads thread)).map fun (shared, next, events) =>
      (⟨shared, Function.update state.threads thread next⟩, events)

/-- The state after `barrier_init`, before any thread runs. -/
def barrierInit (numThreads : Nat) : State Thread where
  shared := ⟨0, numThreads, 1, 0⟩
  threads := fun _ => .waitLock

end Ostep.Barrier
