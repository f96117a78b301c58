/-
This file models the approximate counter, whose increments gather in local values, and the simple counter.
Each lock, unlock, read and write of the approximate counter is one step.
The `int` fields wrap around.
-/

import Mathlib.Data.BitVec
import Mathlib.Logic.Function.Basic
import Ostep.Library.Machine

namespace Ostep.Counter

open Library

abbrev Word := BitVec 32

/-- The global update threshold. -/
def threshold : Word := 10000

/-- The values of the approximate counter. -/
structure Approx (Id : Type) where
  value : Word
  localValue : Id → Word

/-- The global lock and the local locks. -/
inductive Lock (Id : Type) where
  | glock
  | llock (id : Id)
  deriving Repr, DecidableEq

/-- The next access of a thread inside `counter_increment` or `counter_get`. Local variables hold what was read.
C leaves the order of the two reads of the global update open. -/
inductive Pc (Id : Type) where
  | outside
  | lockLocal (id : Id)
  | readLocal (id : Id)
  | writeLocal (id : Id) (read : Word)
  | testLocal (id : Id)
  | lockGlobal (id : Id)
  | readOperands (id : Id)
  | readBatch (id : Id) (value : Word)
  | readValue (id : Id) (batch : Word)
  | writeValue (id : Id) (value batch : Word)
  | unlockGlobal (id : Id) (batch : Word)
  | resetLocal (id : Id) (batch : Word)
  | unlockLocal (id : Id)
  | lockGet
  | readGet
  | unlockGet (tmp : Word)
  deriving Repr, DecidableEq

/-- The critical sections of the global lock report their batches and results, and each increment reports its end. -/
inductive Event (Thread : Type) where
  | flushed (batch : Word)
  | incremented (thread : Thread)
  | got (thread : Thread) (tmp : Word)
  deriving Repr, DecidableEq

variable {Id Thread : Type} [DecidableEq Id]

/-- One access of a thread. A thread waits for a mutex that has an owner. -/
def access (counter : Approx Id) (owner : Lock Id → Option Thread) (thread : Thread) (valueFirst : Bool) :
    Pc Id → Option (Approx Id × (Lock Id → Option Thread) × Pc Id × List (Event Thread))
  | .outside => none
  | .lockLocal id =>
      if owner (.llock id) = none then
        some (counter, Function.update owner (.llock id) (some thread), .readLocal id, [])
      else none
  | .readLocal id => some (counter, owner, .writeLocal id (counter.localValue id), [])
  | .writeLocal id read =>
      some ({ counter with localValue := Function.update counter.localValue id (read + 1) }, owner, .testLocal id, [])
  | .testLocal id =>
      if threshold.sle (counter.localValue id) then some (counter, owner, .lockGlobal id, [])
      else some (counter, owner, .unlockLocal id, [])
  | .lockGlobal id =>
      if owner .glock = none then
        some (counter, Function.update owner .glock (some thread), .readOperands id, [])
      else none
  | .readOperands id =>
      if valueFirst then some (counter, owner, .readBatch id counter.value, [])
      else some (counter, owner, .readValue id (counter.localValue id), [])
  | .readBatch id value => some (counter, owner, .writeValue id value (counter.localValue id), [])
  | .readValue id batch => some (counter, owner, .writeValue id counter.value batch, [])
  | .writeValue id value batch =>
      some ({ counter with value := value + batch }, owner, .unlockGlobal id batch, [.flushed batch])
  | .unlockGlobal id batch => some (counter, Function.update owner .glock none, .resetLocal id batch, [])
  | .resetLocal id _ =>
      some ({ counter with localValue := Function.update counter.localValue id 0 }, owner, .unlockLocal id, [])
  | .unlockLocal id => some (counter, Function.update owner (.llock id) none, .outside, [.incremented thread])
  | .lockGet =>
      if owner .glock = none then some (counter, Function.update owner .glock (some thread), .readGet, [])
      else none
  | .readGet => some (counter, owner, .unlockGet counter.value, [])
  | .unlockGet tmp => some (counter, Function.update owner .glock none, .outside, [.got thread tmp])

/-- A mutex has at most one owner. -/
structure State (Id Thread : Type) where
  counter : Approx Id
  owner : Lock Id → Option Thread
  threads : Thread → Pc Id

/-- Threads call the functions in any order, with any thread id. -/
inductive Action (Id Thread : Type) where
  | increment (thread : Thread) (id : Id)
  | get (thread : Thread)
  | go (thread : Thread) (valueFirst : Bool)
  deriving Repr, DecidableEq

variable [DecidableEq Thread]

/-- A thread outside of all calls starts one. -/
def enter (state : State Id Thread) (thread : Thread) (first : Pc Id) :
    Option (State Id Thread × List (Event Thread)) :=
  if state.threads thread = .outside then
    some ({ state with threads := Function.update state.threads thread first }, [])
  else none

/-- The threads interleave their accesses. -/
def machine : Machine (State Id Thread) (Action Id Thread) (Event Thread) where
  step state
    | .increment thread id => enter state thread (.lockLocal id)
    | .get thread => enter state thread .lockGet
    | .go thread valueFirst =>
        (access state.counter state.owner thread valueFirst (state.threads thread)).map
          fun (counter, owner, next, events) => (⟨counter, owner, Function.update state.threads thread next⟩, events)

/-- All mutexes are free, and no thread is inside a call. -/
def initial (counter : Approx Id) : State Id Thread := ⟨counter, fun _ => none, fun _ => .outside⟩

/-- The thread is between its acquire and its release of a local lock. -/
def Pc.HoldsLocal : Pc Id → Prop
  | .outside | .lockLocal _ | .lockGet | .readGet | .unlockGet _ => False
  | _ => True

/-- The number of completed increments. -/
def completed (trace : List (Event Thread)) : Nat :=
  trace.countP fun
    | .incremented _ => true
    | _ => false

/-- The batches that were added to the global value, in the order of their critical sections. -/
def flushed (trace : List (Event Thread)) : List Word :=
  trace.filterMap fun
    | .flushed batch => some batch
    | _ => none

/-- The approximate counter sets its value, and leaves the local values as `malloc` returns them. -/
def counterInit (memory : Id → Word) : Approx Id := ⟨0, memory⟩

/-- One increment alone. -/
def counterIncrement (counter : Approx Id) (id : Id) : Approx Id :=
  let increased := Function.update counter.localValue id (counter.localValue id + 1)
  if threshold.sle (increased id) then ⟨counter.value + increased id, Function.update increased id 0⟩
  else ⟨counter.value, increased⟩

def counterGet (counter : Approx Id) : Word := counter.value

/-- The simple counter. -/
structure Simple where
  value : Word

def simpleInit : Simple := ⟨0⟩

/-- The simple counter ignores the thread id. -/
def simpleIncrement (counter : Simple) (_id : Id) : Simple := ⟨counter.value + 1⟩

def simpleGet (counter : Simple) : Word := counter.value

/-- After the same calls the approximate counter is at most the simple one,
falls short of it by a bounded number, and agrees with it when every id has flushed all its increments. -/
def Tracks {n : Nat} (memory : Fin n → Word) : Prop :=
  ∀ ids : List (Fin n), ids.length < 2 ^ 31 →
    (counterGet (ids.foldl counterIncrement (counterInit memory))).toInt ≤
        (simpleGet (ids.foldl simpleIncrement simpleInit)).toInt ∧
      (simpleGet (ids.foldl simpleIncrement simpleInit)).toInt -
        (counterGet (ids.foldl counterIncrement (counterInit memory))).toInt ≤ n * (threshold.toInt - 1) ∧
      ((∀ id, threshold.toNat ∣ ids.count id) →
        counterGet (ids.foldl counterIncrement (counterInit memory)) =
          simpleGet (ids.foldl simpleIncrement simpleInit))

end Ostep.Counter
