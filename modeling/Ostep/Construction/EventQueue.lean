/-
This file models the event queue that an interrupt handler fills and a task drains.
The handler runs to completion between any two accesses of the task.
-/

import Mathlib.Logic.Function.Basic
import Ostep.Library.Machine
import Ostep.Library.Ring

namespace Ostep.EventQueue

open Library

abbrev Word := BitVec 32

/-- The constant `EVT_Q_CAP`. -/
def evtQCap : Word := 64

/-- The constant `EVT_Q_MASK`. -/
def evtQMask : Word := evtQCap - 1

inductive EventType where
  | linkUp
  | linkDown
  | cmdDone
  | error
  deriving Repr, DecidableEq

structure Event where
  type : EventType
  data : Word
  deriving Repr, DecidableEq

/-- The counters run freely, and their low bits select an entry. -/
structure EventQ where
  head : Word
  tail : Word
  entries : Word → Event

/-- The task and the handler report their results, and the task reports its loads of the head. -/
inductive Report where
  | accepted (event : Event)
  | refused
  | loadedHead
  | delivered (event : Event)
  | missed
  deriving Repr, DecidableEq

/-- The handler runs without interruption. -/
def eventQPushFromIsr (q : EventQ) (event : Event) : EventQ × Bool :=
  if q.head - q.tail = evtQCap then (q, false)
  else
    ({ q with
      entries := Function.update q.entries (q.head &&& evtQMask) event
      head := q.head + 1 }, true)

/-- The next access of the task. C leaves the order of the two loads of the test open. -/
inductive Pc where
  | idle
  | loadHead
  | loadTail
  | testTail (head : Word)
  | testHead (tail : Word)
  | loadIndex
  | copy (tail : Word)
  | advance (event : Event)
  deriving Repr, DecidableEq

/-- The test of the pop on its two loaded counters. -/
def tested (head tail : Word) : Pc × List Report := if head = tail then (.idle, [.missed]) else (.loadIndex, [])

/-- One access of `event_q_pop_from_task`. -/
def popStep (q : EventQ) : Pc → Option (EventQ × Pc × List Report)
  | .idle => none
  | .loadHead => some (q, .testTail q.head, [.loadedHead])
  | .loadTail => some (q, .testHead q.tail, [])
  | .testTail head => some (q, tested head q.tail)
  | .testHead tail => some (q, (tested q.head tail).1, .loadedHead :: (tested q.head tail).2)
  | .loadIndex => some (q, .copy q.tail, [])
  | .copy tail => some (q, .advance (q.entries (tail &&& evtQMask)), [])
  | .advance event => some ({ q with tail := q.tail + 1 }, .idle, [.delivered event])

structure State where
  q : EventQ
  task : Pc

inductive Action where
  | push (event : Event)
  | call (headFirst : Bool)
  | pop
  deriving Repr, DecidableEq

/-- The handler interrupts the task between any two accesses. -/
def machine : Machine State Action Report where
  step state
    | .push event =>
        let (q, pushed) := eventQPushFromIsr state.q event
        some ({ state with q }, [if pushed then .accepted event else .refused])
    | .call headFirst =>
        if state.task = .idle then
          some ({ state with task := if headFirst then .loadHead else .loadTail }, [])
        else none
    | .pop => (popStep state.q state.task).map fun (q, task, reports) => (⟨q, task⟩, reports)

/-- Both counters start at the same value. -/
def initial (start : Word) (entries : Word → Event) : State where
  q := ⟨start, start, entries⟩
  task := .idle

/-- The events of the successful pushes. -/
def accepted (trace : List Report) : List Event :=
  trace.filterMap fun
    | .accepted event => some event
    | _ => none

/-- The events of the successful pops. Each one releases its entry by advancing the tail. -/
def delivered (trace : List Report) : List Event :=
  trace.filterMap fun
    | .delivered event => some event
    | _ => none

/-- At the last load of the head every accepted event had been delivered. -/
def LoadedEmpty (trace : List Report) : Prop :=
  ∃ before after, trace = before ++ .loadedHead :: after ∧ .loadedHead ∉ after ∧ accepted before = delivered before

end Ostep.EventQueue
