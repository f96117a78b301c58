/-
This file models the pool that counts its free resources with a semaphore and keeps its table under a mutex.
Each semaphore operation and each critical section is one step.
-/

import Mathlib.Data.Fintype.Card
import Mathlib.Data.List.FinRange
import Mathlib.Logic.Function.Basic
import Ostep.Library.Machine

namespace Ostep.ResourcePool

open Library

abbrev Word := BitVec 32

/-- The constant `RP_CAP`. -/
abbrev rpCap : Nat := 8

abbrev Slot := Fin rpCap

structure Pool where
  ids : Slot → Word
  inUse : Slot → Bool
  closed : Bool
  mutexFree : Bool
  available : Nat

/-- A wait blocks while there is no permit. -/
def semWait (pool : Pool) : Option Pool :=
  if 0 < pool.available then some { pool with available := pool.available - 1 } else none

def semPost (pool : Pool) : Pool := { pool with available := pool.available + 1 }

/-- The scan of `rp_acquire` stops at the first unused slot. -/
def findFree (pool : Pool) : Option Slot := (List.finRange rpCap).find? fun i => !pool.inUse i

/-- The scan of `rp_release` stops at the first slot with the id. -/
def findId (pool : Pool) (id : Word) : Option Slot := (List.finRange rpCap).find? fun i => id = pool.ids i

/-- The critical section of `rp_acquire` gives an id unless the pool is closed.
A scan without an unused slot falls through to slot 0. -/
def acquireSection (pool : Pool) : Pool × Option Word :=
  if pool.closed then (pool, none)
  else
    match findFree pool with
    | some i => ({ pool with inUse := Function.update pool.inUse i true }, some (pool.ids i))
    | none => (pool, some (pool.ids 0))

/-- The critical section of `rp_release` reports whether the id is known.
With an unknown id it returns while it holds the mutex. -/
def releaseSection (pool : Pool) (id : Word) : Pool × Bool :=
  match findId pool id with
  | some i => ({ pool with inUse := Function.update pool.inUse i false }, true)
  | none => ({ pool with mutexFree := false }, false)

def closeSection (pool : Pool) : Pool := { pool with closed := true }

/-- The next step of a thread inside a call. -/
inductive Pc where
  | outside
  | waitPermit
  | lockAcquire
  | giveBack
  | lockRelease (id : Word)
  | postPermit
  | lockClose
  deriving Repr, DecidableEq

/-- A thread holds the ids of its successful acquires until their slots are cleared. -/
structure Client where
  pc : Pc
  held : List Word

inductive Event (Thread : Type) where
  | acquired (thread : Thread) (id : Word)
  | refused (thread : Thread)
  | released (thread : Thread) (id : Word)
  | closed (thread : Thread)
  | returned (thread : Thread) (code : Int)
  deriving Repr, DecidableEq

variable {Thread : Type}

/-- The next semaphore operation or critical section of a call. A section waits for the mutex. -/
def access (pool : Pool) (thread : Thread) (client : Client) : Option (Pool × Client × List (Event Thread)) :=
  match client.pc with
  | .outside => none
  | .waitPermit => (semWait pool).map fun pool => (pool, { client with pc := .lockAcquire }, [])
  | .lockAcquire =>
      if pool.mutexFree then
        match acquireSection pool with
        | (after, some id) =>
            some (after, ⟨.outside, id :: client.held⟩, [.acquired thread id, .returned thread 0])
        | (after, none) => some (after, { client with pc := .giveBack }, [.refused thread])
      else none
  | .giveBack => some (semPost pool, { client with pc := .outside }, [.returned thread (-2)])
  | .lockRelease id =>
      if pool.mutexFree then
        match releaseSection pool id with
        | (after, true) =>
            some (after, ⟨.postPermit, client.held.filter (· ≠ id)⟩, [.released thread id])
        | (after, false) => some (after, { client with pc := .outside }, [.returned thread (-1)])
      else none
  | .postPermit => some (semPost pool, { client with pc := .outside }, [.returned thread 0])
  | .lockClose =>
      if pool.mutexFree then some (closeSection pool, { client with pc := .outside }, [.closed thread])
      else none

structure State (Thread : Type) where
  pool : Pool
  threads : Thread → Client

/-- Threads call the functions in any order. -/
inductive Action (Thread : Type) where
  | acquire (thread : Thread) (nonNull : Bool)
  | release (thread : Thread) (nonNull : Bool) (id : Word)
  | close (thread : Thread) (nonNull : Bool)
  | go (thread : Thread)
  deriving Repr, DecidableEq

variable [DecidableEq Thread]

/-- A thread outside of all calls starts one. A null pointer ends the call at once. -/
def enter (state : State Thread) (thread : Thread) (nonNull : Bool) (first : Pc) (failed : List (Event Thread)) :
    Option (State Thread × List (Event Thread)) :=
  if (state.threads thread).pc = .outside then
    if nonNull then
      some ({ state with
        threads := Function.update state.threads thread { state.threads thread with pc := first } }, [])
    else some (state, failed)
  else none

/-- The threads interleave their semaphore operations and critical sections. -/
def machine : Machine (State Thread) (Action Thread) (Event Thread) where
  step state
    | .acquire thread nonNull => enter state thread nonNull .waitPermit [.returned thread (-1)]
    | .release thread nonNull id => enter state thread nonNull (.lockRelease id) [.returned thread (-1)]
    | .close thread nonNull => enter state thread nonNull .lockClose []
    | .go thread =>
        (access state.pool thread (state.threads thread)).map fun (pool, client, events) =>
          (⟨pool, Function.update state.threads thread client⟩, events)

/-- The open pool with all slots unused. -/
def emptyPool (ids : Slot → Word) : Pool := ⟨ids, fun _ => false, false, true, rpCap⟩

def initial (ids : Slot → Word) : State Thread := ⟨emptyPool ids, fun _ => ⟨.outside, []⟩⟩

/-- A thread releases only ids that it holds. -/
def ReleasesHeld (state : State Thread) : Action Thread → Prop
  | .release thread _ id => id ∈ (state.threads thread).held
  | _ => True

instance (state : State Thread) : (action : Action Thread) → Decidable (ReleasesHeld state action)
  | .release thread _ id => inferInstanceAs (Decidable (id ∈ (state.threads thread).held))
  | .acquire _ _ | .close _ _ | .go _ => inferInstanceAs (Decidable True)

/-- The number of slots that are in use. -/
def used (pool : Pool) : Nat := (Finset.univ.filter fun i => pool.inUse i = true).card

/-- The thread has taken a permit and neither marked a slot nor given the permit back,
or it has cleared a slot and not posted its permit. -/
def Client.pending (client : Client) : Nat := match client.pc with
  | .lockAcquire | .giveBack | .postPermit => 1
  | _ => 0

/-- A call of one thread alone. -/
inductive Call where
  | acquire
  | release (id : Word)
  | close
  deriving Repr, DecidableEq

inductive Result where
  | acquired (id : Word)
  | code (code : Int)
  deriving Repr, DecidableEq

def rpAcquire (pool : Pool) : Option (Pool × Result) :=
  (semWait pool).bind fun taken =>
    if taken.mutexFree then
      match acquireSection taken with
      | (after, some id) => some (after, .acquired id)
      | (after, none) => some (semPost after, .code (-2))
    else none

def rpRelease (pool : Pool) (id : Word) : Option (Pool × Result) :=
  if pool.mutexFree then
    match releaseSection pool id with
    | (after, true) => some (semPost after, .code 0)
    | (after, false) => some (after, .code (-1))
  else none

def rpClose (pool : Pool) : Option Pool := if pool.mutexFree then some (closeSection pool) else none

/-- One thread makes its calls in order. A call that blocks does not complete. -/
def calls : Machine Pool Call Result where
  step pool
    | .acquire => (rpAcquire pool).map fun (after, result) => (after, [result])
    | .release id => (rpRelease pool id).map fun (after, result) => (after, [result])
    | .close => (rpClose pool).map fun after => (after, [])

/-- The slot with the id is in use. -/
def InUse (pool : Pool) (id : Word) : Prop := ∃ i, pool.ids i = id ∧ pool.inUse i = true

instance (pool : Pool) (id : Word) : Decidable (InUse pool id) :=
  inferInstanceAs (Decidable (∃ i, pool.ids i = id ∧ pool.inUse i = true))

/-- The number of slots that are not in use. -/
def unused (pool : Pool) : Nat := (Finset.univ.filter fun i => pool.inUse i = false).card

/-- A completed call leaves the mutex free and one permit for each unused slot.
A release of an id that is not in use leaves permits and table, and an acquire gives an id that is not in use. -/
def CallConforms (pool : Pool) (call : Call) : Prop :=
  ∀ after results, calls.step pool call = some (after, results) →
    after.mutexFree = true ∧ after.available = unused after ∧
    (∀ id, call = .release id → ¬InUse pool id → after.available = pool.available ∧ after.inUse = pool.inUse) ∧
    ∀ id, .acquired id ∈ results → ¬InUse pool id

/-- The call releases no id that is not in use. -/
def ReleasesInUse (pool : Pool) : Call → Prop
  | .release id => InUse pool id
  | _ => True

instance (pool : Pool) : (call : Call) → Decidable (ReleasesInUse pool call)
  | .release id => inferInstanceAs (Decidable (InUse pool id))
  | .acquire | .close => inferInstanceAs (Decidable True)

end Ostep.ResourcePool
