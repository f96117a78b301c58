/-
This file models the five versions of `vector_add` and the threads that `main` starts for them.
The vectors are the entries of the array `v`, so their addresses are ordered as their indices are.
-/

import Mathlib.Order.Fin.Basic
import Ostep.Library.Locking

namespace Ostep.VectorAdd

open Library Locking

def maxThreads : Nat := 100

def vectorSize : Nat := 100

/-- An entry of the array `v`. -/
abbrev Index := Fin (2 * maxThreads)

/-- The sum of two values wraps. -/
abbrev Value := BitVec 32

structure Call where
  dst : Index
  src : Index
  deriving Repr, DecidableEq

inductive Lock where
  | global
  | vector (index : Index)
  deriving Repr, DecidableEq

/-- The values of the vectors and the number of retries. -/
inductive Loc where
  | value (vector : Index) (i : Nat)
  | retry
  deriving Repr, DecidableEq

/-- A local variable holds the value that was read. -/
inductive Act where
  | readDst (call : Call) (i : Nat)
  | readSrc (call : Call) (i : Nat) (left : Value)
  | write (call : Call) (i : Nat) (sum : Value)
  | readAddend (call : Call) (i : Nat)
  | fetchAndAdd (call : Call) (i : Nat) (addend : Value)
  | readRetry
  | writeRetry (old : Value)
  deriving Repr, DecidableEq

/-- The loop of the locked versions reads both values and writes their sum. The loop of the version without locks
reads one value and adds it in one step. -/
def perform : Act → (Loc → Value) → (Loc → Value) × Next Act Unit
  | .readDst call i, memory =>
      if i < vectorSize then (memory, .more (.readSrc call i (memory (.value call.dst i)))) else (memory, .done ())
  | .readSrc call i left, memory => (memory, .more (.write call i (left + memory (.value call.src i))))
  | .write call i sum, memory =>
      (Function.update memory (.value call.dst i) sum, .more (.readDst call (i + 1)))
  | .readAddend call i, memory =>
      if i < vectorSize then (memory, .more (.fetchAndAdd call i (memory (.value call.src i)))) else (memory, .done ())
  | .fetchAndAdd call i addend, memory =>
      (Function.update memory (.value call.dst i) (memory (.value call.dst i) + addend),
        .more (.readAddend call (i + 1)))
  | .readRetry, memory => (memory, .more (.writeRetry (memory .retry)))
  | .writeRetry old, memory => (Function.update memory .retry (old + 1), .done ())

/-- The files that define `vector_add`. -/
inductive Version where
  | deadlock
  | globalOrder
  | avoidHoldAndWait
  | tryWait
  | nolock
  deriving Repr, DecidableEq

/-- The instructions of each version before its loop. -/
def acquire (version : Version) (call : Call) : List (Instr Lock Act) :=
  match version with
  | .deadlock => [.lock (.vector call.dst), .lock (.vector call.src)]
  | .globalOrder =>
      if call.dst < call.src then [.lock (.vector call.dst), .lock (.vector call.src)]
      else if call.dst > call.src then [.lock (.vector call.src), .lock (.vector call.dst)]
      else [.lock (.vector call.src)]
  | .avoidHoldAndWait =>
      [.lock .global, .lock (.vector call.dst), .lock (.vector call.src), .unlock .global]
  | .tryWait =>
      [.tryLock (.vector call.dst) [.again],
        .tryLock (.vector call.src) [.touch .readRetry, .unlock (.vector call.dst), .again]]
  | .nolock => []

/-- The locks that each version releases after its loop, in order. -/
def release (version : Version) (call : Call) : List Lock :=
  match version with
  | .deadlock | .avoidHoldAndWait | .tryWait => [.vector call.dst, .vector call.src]
  | .globalOrder => .vector call.src :: if call.dst ≠ call.src then [.vector call.dst] else []
  | .nolock => []

def body (version : Version) (call : Call) : Act :=
  match version with
  | .nolock => .readAddend call 0
  | _ => .readDst call 0

/-- Each version as a program whose threads call `vector_add`. -/
def vectorAdd (version : Version) : Program Call Lock Act Loc Value Unit :=
  ⟨acquire version, body version, release version, perform⟩

section Failures

variable {Thread : Type} [DecidableEq Thread]

/-- A thread of the version that tries has its destination and is about to fail for its source. -/
def failsForSource (state : State Thread Call Lock Act Loc Value Unit) (thread : Thread) : Bool :=
  match (state.workers thread).pc with
  | .acquiring call [.tryLock _ _] => (state.owner (.vector call.src)).isSome
  | _ => false

/-- The threads that fail for their source, in the order of their failures. -/
def failures (start : State Thread Call Lock Act Loc Value Unit) (schedule : List Thread) : List Thread :=
  (machine (vectorAdd .tryWait)).observe
    (fun state thread => if failsForSource state thread then [thread] else []) start schedule

end Failures

/-- The values after a call alone, without other threads. -/
def addInto (call : Call) (memory : Loc → Value) : Loc → Value
  | .value vector i =>
      if vector = call.dst ∧ i < vectorSize then memory (.value call.dst i) + memory (.value call.src i)
      else memory (.value vector i)
  | .retry => memory .retry

/-- The calls run one at a time. -/
def runSerial (memory : Loc → Value) (calls : List Call) : Loc → Value :=
  calls.foldl (fun memory call => addInto call memory) memory

/-- The options of `main`, with its assertion on the number of threads. -/
structure Options where
  loops : Nat
  numThreads : Nat
  causeDeadlock : Bool
  enableParallelism : Bool
  few : numThreads < maxThreads

namespace Options

variable (options : Options)

def vector0 (thread : Fin options.numThreads) : Index :=
  if options.enableParallelism then ⟨thread * 2, by have := options.few; omega⟩ else ⟨0, by decide⟩

def vector1 (thread : Fin options.numThreads) : Index :=
  if options.enableParallelism then ⟨thread * 2 + 1, by have := options.few; omega⟩ else ⟨1, by decide⟩

/-- A thread with the other order swaps its two vectors. -/
def vectorAddOrder (thread : Fin options.numThreads) : Bool :=
  options.causeDeadlock && thread.val % 2 = 1

/-- The loop of `worker`. -/
def worker (thread : Fin options.numThreads) : List Call :=
  List.replicate options.loops
    (if options.vectorAddOrder thread then ⟨options.vector1 thread, options.vector0 thread⟩
    else ⟨options.vector0 thread, options.vector1 thread⟩)

/-- Each vector starts with its index as every value. -/
def vectorInit : Loc → Value
  | .value vector _ => BitVec.ofNat 32 vector
  | .retry => 0

/-- The state in which `main` creates the threads. -/
def main : State (Fin options.numThreads) Call Lock Act Loc Value Unit := initial vectorInit options.worker

end Options

end Ostep.VectorAdd
