/-
This file models the blocking queue with its mutex and its two condition variables.
Each access inside a critical section is one step.
The misspelled operands `&mu` and `tail` are read as `&q->mu` and `q->tail`.
-/

import Mathlib.Data.Fintype.Basic
import Ostep.Library.Machine
import Ostep.Library.Circle

namespace Ostep.BoundedQueue

open Library

abbrev Word := BitVec 32

/-- The constant `BQ_CAPACITY`. -/
def bqCapacity : Nat := 8

structure Queue where
  data : Nat → Word
  head : Nat
  tail : Nat
  count : Nat
  closed : Bool

/-- Pushers wait on `not_full` and poppers wait on `not_empty`. -/
inductive Side where
  | push
  | pop
  deriving Repr, DecidableEq

def Side.other : Side → Side
  | .push => .pop
  | .pop => .push

inductive Call where
  | push (value : Word)
  | pop
  deriving Repr, DecidableEq

def Call.side : Call → Side
  | .push _ => .push
  | .pop => .pop

/-- The test of the waiting loop. -/
def Call.waits (queue : Queue) : Call → Bool
  | .push _ => queue.count = bqCapacity && !queue.closed
  | .pop => queue.count = 0 && !queue.closed

/-- The test after the waiting loop. -/
def Call.refused (queue : Queue) : Call → Bool
  | .push _ => queue.closed
  | .pop => queue.closed && queue.count = 0

/-- A push advances the head, and a pop advances the tail. -/
def Side.advance (queue : Queue) : Side → Queue
  | .push => { queue with head := (queue.head + 1) % bqCapacity }
  | .pop => { queue with tail := (queue.tail + 1) % bqCapacity }

def Side.recount (queue : Queue) : Side → Queue
  | .push => { queue with count := queue.count + 1 }
  | .pop => { queue with count := queue.count - 1 }

/-- Every critical section that does not wait has one outcome. -/
inductive Outcome where
  | pushed (value : Word)
  | popped (value : Word)
  | refused (side : Side)
  | closed
  deriving Repr, DecidableEq

/-- The result of the call. -/
def Outcome.code : Outcome → Int
  | .refused _ => -2
  | _ => 0

def Side.moved (value : Word) : Side → Outcome
  | .push => .pushed value
  | .pop => .popped value

/-- The next access of a thread. A parked thread waits to be woken, and an awakened one to take the mutex again. -/
inductive Pc where
  | outside
  | locking (call : Call)
  | testing (call : Call)
  | parked (call : Call)
  | awakened (call : Call)
  | transferring (call : Call)
  | advancing (side : Side) (value : Word)
  | counting (side : Side) (value : Word)
  | signalling (side : Side) (value : Word)
  | unlocking (outcome : Outcome)
  | closeLocking
  | closing
  | broadcasting (side : Side)
  deriving Repr, DecidableEq

/-- The thread waits on the condition variable of the side. -/
def Pc.ParkedOn (side : Side) : Pc → Prop
  | .parked call => call.side = side
  | _ => False

instance (side : Side) : (pc : Pc) → Decidable (pc.ParkedOn side)
  | .parked call => inferInstanceAs (Decidable (call.side = side))
  | .outside | .locking _ | .testing _ | .awakened _ | .transferring _ | .advancing _ _ | .counting _ _
  | .signalling _ _ | .unlocking _ | .closeLocking | .closing | .broadcasting _ =>
      inferInstanceAs (Decidable False)

/-- A wake-up on the condition variable of the side. -/
def Pc.wake (side : Side) : Pc → Pc
  | .parked call => if call.side = side then .awakened call else .parked call
  | pc => pc

inductive Event (Thread : Type) where
  | critical (thread : Thread) (outcome : Outcome)
  | returned (thread : Thread) (code : Int)
  deriving Repr, DecidableEq

variable {Thread : Type}

/-- The accesses that leave the other threads as they are. A wait parks and releases the mutex in one step. -/
def access (queue : Queue) (owner : Option Thread) (thread : Thread) :
    Pc → Option (Queue × Option Thread × Pc × List (Event Thread))
  | .locking call | .awakened call =>
      if owner = none then some (queue, some thread, .testing call, []) else none
  | .testing call =>
      if call.waits queue then some (queue, none, .parked call, [])
      else if call.refused queue then
        some (queue, owner, .unlocking (.refused call.side), [.critical thread (.refused call.side)])
      else some (queue, owner, .transferring call, [])
  | .transferring (.push value) =>
      some ({ queue with data := Function.update queue.data queue.head value }, owner, .advancing .push value,
        [.critical thread (.pushed value)])
  | .transferring .pop =>
      some (queue, owner, .advancing .pop (queue.data queue.tail),
        [.critical thread (.popped (queue.data queue.tail))])
  | .advancing side value => some (side.advance queue, owner, .counting side value, [])
  | .counting side value => some (side.recount queue, owner, .signalling side value, [])
  | .unlocking outcome => some (queue, none, .outside, [.returned thread outcome.code])
  | .closeLocking => if owner = none then some (queue, some thread, .closing, []) else none
  | .closing => some ({ queue with closed := true }, owner, .broadcasting .push, [.critical thread .closed])
  | .outside | .parked _ | .signalling _ _ | .broadcasting _ => none

/-- The mutex has at most one owner. -/
structure State (Thread : Type) where
  queue : Queue
  owner : Option Thread
  threads : Thread → Pc

variable [DecidableEq Thread] [Fintype Thread]

/-- A signal wakes one parked thread of the side. It wakes nobody only if nobody is parked. -/
def signal (threads : Thread → Pc) (side : Side) : Option Thread → Option (Thread → Pc)
  | some woken =>
      if (threads woken).ParkedOn side then
        some (Function.update threads woken ((threads woken).wake side))
      else none
  | none => if ∀ thread, ¬(threads thread).ParkedOn side then some threads else none

/-- The last accesses of `bq_close` follow in order. -/
def afterBroadcast : Side → Pc
  | .push => .broadcasting .pop
  | .pop => .unlocking .closed

/-- The next access of a thread. The scheduler picks the thread that a signal wakes. -/
def goStep (state : State Thread) (thread : Thread) (woken : Option Thread) :
    Option (State Thread × List (Event Thread)) :=
  match state.threads thread with
  | .signalling side value =>
      (signal state.threads side.other woken).map fun threads =>
        ({ state with threads := Function.update threads thread (.unlocking (side.moved value)) }, [])
  | .broadcasting side =>
      some ({ state with
        threads := Function.update (fun other => (state.threads other).wake side) thread (afterBroadcast side) }, [])
  | pc =>
      (access state.queue state.owner thread pc).map fun (queue, owner, next, events) =>
        (⟨queue, owner, Function.update state.threads thread next⟩, events)

/-- Threads call the functions in any order. A call with a null pointer returns at once. -/
inductive Action (Thread : Type) where
  | call (thread : Thread) (nonNull : Bool) (call : Call)
  | close (thread : Thread) (nonNull : Bool)
  | go (thread : Thread) (woken : Option Thread)
  | spurious (thread : Thread) (side : Side)

/-- A thread outside of all calls starts one. -/
def enter (state : State Thread) (thread : Thread) (nonNull : Bool) (first : Pc) :
    Option (State Thread × List (Event Thread)) :=
  if state.threads thread = .outside then
    if nonNull then some ({ state with threads := Function.update state.threads thread first }, [])
    else some (state, [.returned thread (-1)])
  else none

/-- The threads interleave their accesses. -/
def machine : Machine (State Thread) (Action Thread) (Event Thread) where
  step state
    | .call thread nonNull call => enter state thread nonNull (.locking call)
    | .close thread nonNull => enter state thread nonNull .closeLocking
    | .go thread woken => goStep state thread woken
    | .spurious thread side =>
        (signal state.threads side (some thread)).map fun threads => ({ state with threads }, [])

/-- The queue starts empty and open with any contents of its array. -/
def initial (data : Nat → Word) : State Thread where
  queue := ⟨data, 0, 0, 0, false⟩
  owner := none
  threads := fun _ => .outside

/-- The outcomes in the order of their critical sections. -/
def outcomes (trace : List (Event Thread)) : List Outcome :=
  trace.filterMap fun
    | .critical _ outcome => some outcome
    | .returned _ _ => none

/-- The values of the successful pushes. -/
def pushed (history : List Outcome) : List Word :=
  history.filterMap fun
    | .pushed value => some value
    | _ => none

/-- The values of the successful pops. -/
def popped (history : List Outcome) : List Word :=
  history.filterMap fun
    | .popped value => some value
    | _ => none

/-- The thread is inside a call of `bq_push`. -/
def Pc.Pushes : Pc → Prop
  | .locking call | .testing call | .parked call | .awakened call | .transferring call => call.side = .push
  | .advancing side _ | .counting side _ | .signalling side _ => side = .push
  | .unlocking outcome => outcome = .refused .push ∨ ∃ value, outcome = .pushed value
  | _ => False

/-- The thread was woken on the condition variable of the side and has not run since. -/
def Pc.awakenedOn (side : Side) : Pc → Nat
  | .awakened call => if call.side = side then 1 else 0
  | _ => 0

end Ostep.BoundedQueue
