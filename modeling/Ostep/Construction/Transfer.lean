/-
This file models `transfer_value` and the interleaving of its lock, read, write and unlock steps.
The parameters `from` and `to` are called `source` and `target`.
-/

import Mathlib.Logic.Function.Basic
import Ostep.Library.Balance
import Ostep.Library.Machine

namespace Ostep.Transfer

open Library

abbrev Addr := BitVec 64

abbrev Value := BitVec 64

structure Call where
  source : Addr
  target : Addr
  amount : Value
  deriving Repr, DecidableEq

/-- A call returns before it locks anything when its arguments are invalid or equal. -/
def earlyReturn (call : Call) : Option Int :=
  if call.source = 0 ∨ call.target = 0 then some (-1)
  else if call.amount.sle 0 then some (-2)
  else if call.source = call.target then some 0
  else none

/-- The lock order follows the ids and falls back to the addresses. The ids never change. -/
def lockOrder (ids : Addr → BitVec 32) (call : Call) : Addr × Addr :=
  if ids call.source < ids call.target then (call.source, call.target)
  else if ids call.source > ids call.target then (call.target, call.source)
  else if call.source < call.target then (call.source, call.target)
  else (call.target, call.source)

def first (ids : Addr → BitVec 32) (call : Call) : Addr := (lockOrder ids call).1

def second (ids : Addr → BitVec 32) (call : Call) : Addr := (lockOrder ids call).2

/-- The next access of a thread. A local variable holds the value that was read. -/
inductive Pc where
  | idle
  | lockFirst (call : Call)
  | lockSecond (call : Call)
  | test (call : Call)
  | readSource (call : Call)
  | writeSource (call : Call) (value : Value)
  | readTarget (call : Call)
  | writeTarget (call : Call) (value : Value)
  | unlockSecond (call : Call) (code : Int)
  | unlockFirst (call : Call) (code : Int)
  deriving Repr, DecidableEq

/-- A thread makes its calls in order. -/
structure Worker where
  pc : Pc
  calls : List Call
  deriving Repr, DecidableEq

/-- A mutex has at most one owner. -/
structure State (Thread : Type) where
  values : Addr → Value
  owner : Addr → Option Thread
  workers : Thread → Worker

inductive Event (Thread : Type) where
  | wrote (thread : Thread) (address : Addr)
  | returned (thread : Thread) (call : Call) (code : Int)
  deriving Repr, DecidableEq

variable {Thread : Type} [DecidableEq Thread]

/-- The thread continues at another access. -/
def State.goto (state : State Thread) (thread : Thread) (pc : Pc) : State Thread :=
  { state with
    workers := Function.update state.workers thread { state.workers thread with pc } }

/-- One access of one thread. A thread waits for a mutex that has an owner. -/
def step (ids : Addr → BitVec 32) (state : State Thread) (thread : Thread) :
    Option (State Thread × List (Event Thread)) :=
  match (state.workers thread).pc with
  | .idle =>
      match (state.workers thread).calls with
      | [] => none
      | call :: rest =>
          match earlyReturn call with
          | some code =>
              some ({ state with workers := Function.update state.workers thread ⟨.idle, rest⟩ },
                [.returned thread call code])
          | none =>
              some ({ state with workers := Function.update state.workers thread ⟨.lockFirst call, rest⟩ }, [])
  | .lockFirst call =>
      if state.owner (first ids call) = none then
        some ({ state.goto thread (.lockSecond call) with
          owner := Function.update state.owner (first ids call) (some thread) }, [])
      else none
  | .lockSecond call =>
      if state.owner (second ids call) = none then
        some ({ state.goto thread (.test call) with
          owner := Function.update state.owner (second ids call) (some thread) }, [])
      else none
  | .test call =>
      if (state.values call.source).slt call.amount then some (state.goto thread (.unlockSecond call (-3)), [])
      else some (state.goto thread (.readSource call), [])
  | .readSource call => some (state.goto thread (.writeSource call (state.values call.source)), [])
  | .writeSource call value =>
      some ({ state.goto thread (.readTarget call) with
        values := Function.update state.values call.source (value - call.amount) },
        [.wrote thread call.source])
  | .readTarget call => some (state.goto thread (.writeTarget call (state.values call.target)), [])
  | .writeTarget call value =>
      some ({ state.goto thread (.unlockSecond call 0) with
        values := Function.update state.values call.target (value + call.amount) },
        [.wrote thread call.target])
  | .unlockSecond call code =>
      some ({ state.goto thread (.unlockFirst call code) with
        owner := Function.update state.owner (second ids call) none }, [])
  | .unlockFirst call code =>
      some ({ state.goto thread .idle with
        owner := Function.update state.owner (first ids call) none }, [.returned thread call code])

/-- A schedule names the thread that makes the next access. -/
def machine (ids : Addr → BitVec 32) : Machine (State Thread) Thread (Event Thread) := ⟨step ids⟩

/-- Every mutex starts free and every thread starts before its first call. -/
def initial (values : Addr → Value) (programs : Thread → List Call) : State Thread where
  values := values
  owner := fun _ => none
  workers := fun thread => ⟨.idle, programs thread⟩

/-- All calls of the thread have returned. -/
def Worker.Finished (worker : Worker) : Prop := worker.pc = .idle ∧ worker.calls = []

/-- The call alone, without other threads, returns its code and the values it leaves. -/
def transferValue (values : Addr → Value) (call : Call) : Int × (Addr → Value) :=
  match earlyReturn call with
  | some code => (code, values)
  | none =>
      if (values call.source).slt call.amount then (-3, values)
      else
        let debited := Function.update values call.source (values call.source - call.amount)
        (0, Function.update debited call.target (debited call.target + call.amount))

/-- The calls run one at a time. -/
def runSerial (values : Addr → Value) : List Call → List Int × (Addr → Value)
  | [] => ([], values)
  | call :: rest =>
      let outcome := runSerial (transferValue values call).2 rest
      ((transferValue values call).1 :: outcome.1, outcome.2)

/-- A call stays in range when the unbounded results of its subtraction and its addition are int64 values. -/
def InRange (values : Addr → Value) (call : Call) : Prop :=
  earlyReturn call = none → (values call.source).slt call.amount = false →
    (values call.source).ssubOverflow call.amount = false ∧ (values call.target).saddOverflow call.amount = false

/-- The counters as unbounded integers. -/
def signed (values : Addr → Value) (address : Addr) : Int := (values address).toInt

/-- The calls stay in range, keep the total of the counters and make no counter negative. -/
structure Conserves (counters : Finset Addr) (values : Addr → Value) (calls : List Call) : Prop where
  inRange : ∀ before call after, calls = before ++ call :: after → InRange (runSerial values before).2 call
  total : ∑ counter ∈ counters, signed (runSerial values calls).2 counter = ∑ counter ∈ counters, signed values counter
  nonneg : ∀ before, before <+: calls → ∀ counter ∈ counters, 0 ≤ signed values counter →
    0 ≤ signed (runSerial values before).2 counter

/-- Both pointers of the call are counters of the set. -/
def Call.Among (counters : Finset Addr) (call : Call) : Prop := call.source ∈ counters ∧ call.target ∈ counters

/-- A call and its code at its place in a serial order. -/
structure Commit (Thread : Type) where
  thread : Thread
  call : Call
  code : Int
  deriving Repr, DecidableEq

/-- The calls and codes of one thread in a serial order. -/
def commitsOf (thread : Thread) (order : List (Commit Thread)) : List (Call × Int) :=
  (order.filter (·.thread = thread)).map fun commit => (commit.call, commit.code)

/-- A call that has returned, with the addresses it wrote. -/
structure Outcome where
  call : Call
  code : Int
  writes : List Addr
  deriving Repr, DecidableEq

/-- The returned calls of one thread and the writes of its current call. -/
structure Ledger where
  pending : List Addr
  outcomes : List Outcome

def Ledger.record (thread : Thread) (ledger : Ledger) : Event Thread → Ledger
  | .wrote writer address => if writer = thread then { ledger with pending := ledger.pending ++ [address] } else ledger
  | .returned caller call code =>
      if caller = thread then ⟨[], ledger.outcomes ++ [⟨call, code, ledger.pending⟩]⟩ else ledger

/-- The history of one thread. -/
def ledger (thread : Thread) (trace : List (Event Thread)) : Ledger := trace.foldl (Ledger.record thread) ⟨[], []⟩

end Ostep.Transfer
