/-
This file models the job queue of the worker pool and its shutdown.
Each critical section is one step. A parked thread may wake up at any time.
-/

import Ostep.Library.Machine
import Ostep.Library.Ring

namespace Ostep.WorkerQueue

open Library

/-- A job is a function pointer and its argument. -/
structure Job where
  fn : BitVec 64
  arg : BitVec 64
  deriving Repr, DecidableEq

/-- The counters `head` and `tail` are never reset. -/
structure WorkerPool where
  queue : BitVec 64 → Job
  head : BitVec 64
  tail : BitVec 64
  stopping : Bool

def qMax : BitVec 32 := 16

def qMask : BitVec 64 := Ring.mask 64 4

/-- The result type is implicit and truncates the count to an `int`. -/
def getQueueCount (pool : WorkerPool) : BitVec 32 := (pool.tail - pool.head).setWidth 32

/-- The exit test compares the function `get_queue_count` itself with zero. A function is never at null. -/
def getQueueCountIsNull : Bool := false

/-- The jobs from `head` to `tail`. -/
def WorkerPool.jobs (pool : WorkerPool) : List Job := Ring.contents qMask pool.queue pool.head pool.tail

/-- The critical section of `submit_job` ends in one of three ways. -/
inductive Submitted where
  | waits
  | returns (code : Int)
  | accepts (pool : WorkerPool)

def submitSection (pool : WorkerPool) (job : Job) : Submitted :=
  if getQueueCount pool = qMax ∧ pool.stopping = false then .waits
  else if pool.stopping then .returns (-2)
  else .accepts { pool with
    queue := Function.update pool.queue (pool.tail &&& qMask) job
    tail := pool.tail + BitVec.ofNat 64 1 }

/-- The critical section of `worker_main` ends in one of three ways. -/
inductive Worked where
  | waits
  | leaves
  | takes (curr : Job) (pool : WorkerPool)

def workerSection (pool : WorkerPool) : Worked :=
  if getQueueCount pool = 0 ∧ pool.stopping = false then .waits
  else if pool.stopping && getQueueCountIsNull then .leaves
  else .takes (pool.queue (pool.head &&& qMask)) { pool with head := pool.head + BitVec.ofNat 64 1 }

/-- A submitter is outside a call, before the lock, or parked on `not_full`. -/
inductive SubmitPc where
  | outside
  | locking (job : Job)
  | parked (job : Job)
  deriving Repr, DecidableEq

/-- The job of a submitter that can enter its critical section. -/
def SubmitPc.job? : SubmitPc → Option Job
  | .outside => none
  | .locking job => some job
  | .parked job => some job

/-- A worker is before the lock, parked on `not_empty`, running a job, or past its loop. -/
inductive WorkerPc where
  | ready
  | parked
  | running (curr : Job)
  | left
  deriving Repr, DecidableEq

/-- The worker can enter its critical section. -/
def WorkerPc.Enters (pc : WorkerPc) : Prop := pc = .ready ∨ pc = .parked

instance (pc : WorkerPc) : Decidable pc.Enters := inferInstanceAs (Decidable (_ ∨ _))

structure State (Submitter Worker : Type) where
  pool : WorkerPool
  submitters : Submitter → SubmitPc
  workers : Worker → WorkerPc

inductive Action (Submitter Worker : Type) where
  | submitCall (thread : Submitter) (job : Job)
  | submitSection (thread : Submitter)
  | requestStop
  | workerSection (worker : Worker)
  | workerRun (worker : Worker)
  deriving DecidableEq

inductive Event (Submitter Worker : Type) where
  | returned (thread : Submitter) (code : Int)
  | accepted (job : Job)
  | stopped
  | dequeued (worker : Worker) (job : Job)
  | left (worker : Worker)
  deriving DecidableEq

variable {Submitter Worker : Type} [DecidableEq Submitter] [DecidableEq Worker]

/-- A call tests its arguments and reads `stopping` without the lock. -/
def submitCallStep (state : State Submitter Worker) (thread : Submitter) (job : Job) :
    Option (State Submitter Worker × List (Event Submitter Worker)) :=
  match state.submitters thread with
  | .outside =>
      if job.fn = 0 ∨ job.arg = 0 then some (state, [.returned thread (-1)])
      else if state.pool.stopping then some (state, [.returned thread (-2)])
      else some ({ state with submitters := Function.update state.submitters thread (.locking job) }, [])
  | _ => none

/-- An accepting call ends without a return statement. -/
def submitSectionStep (state : State Submitter Worker) (thread : Submitter) :
    Option (State Submitter Worker × List (Event Submitter Worker)) :=
  (state.submitters thread).job?.map fun job =>
    match submitSection state.pool job with
    | .waits => ({ state with submitters := Function.update state.submitters thread (.parked job) }, [])
    | .returns code =>
        ({ state with submitters := Function.update state.submitters thread .outside }, [.returned thread code])
    | .accepts pool =>
        ({ state with pool, submitters := Function.update state.submitters thread .outside }, [.accepted job])

def requestStopStep (state : State Submitter Worker) :
    State Submitter Worker × List (Event Submitter Worker) :=
  ({ state with pool := { state.pool with stopping := true } }, [.stopped])

def workerSectionStep (state : State Submitter Worker) (worker : Worker) :
    Option (State Submitter Worker × List (Event Submitter Worker)) :=
  if (state.workers worker).Enters then
    match workerSection state.pool with
    | .waits => some ({ state with workers := Function.update state.workers worker .parked }, [])
    | .leaves => some ({ state with workers := Function.update state.workers worker .left }, [.left worker])
    | .takes curr pool =>
        some ({ state with pool, workers := Function.update state.workers worker (.running curr) },
          [.dequeued worker curr])
  else none

/-- The callback runs without the lock. -/
def workerRunStep (state : State Submitter Worker) (worker : Worker) :
    Option (State Submitter Worker × List (Event Submitter Worker)) :=
  match state.workers worker with
  | .running _ => some ({ state with workers := Function.update state.workers worker .ready }, [])
  | _ => none

/-- Submitters, workers and the owner interleave. -/
def machine : Machine (State Submitter Worker) (Action Submitter Worker) (Event Submitter Worker) where
  step state
    | .submitCall thread job => submitCallStep state thread job
    | .submitSection thread => submitSectionStep state thread
    | .requestStop => some (requestStopStep state)
    | .workerSection worker => workerSectionStep state worker
    | .workerRun worker => workerRunStep state worker

/-- The queue starts empty at any counter and with any contents. -/
def initial (queue : BitVec 64 → Job) (counter : BitVec 64) : State Submitter Worker where
  pool := ⟨queue, counter, counter, false⟩
  submitters := fun _ => .outside
  workers := fun _ => .ready

/-- The accepted jobs in acceptance order. -/
def accepted (trace : List (Event Submitter Worker)) : List Job :=
  trace.filterMap fun
    | .accepted job => some job
    | _ => none

/-- The dequeued jobs in dequeue order. -/
def dequeued (trace : List (Event Submitter Worker)) : List Job :=
  trace.filterMap fun
    | .dequeued _ job => some job
    | _ => none

/-- The events from the first stop request on. -/
def sinceStop (trace : List (Event Submitter Worker)) : List (Event Submitter Worker) :=
  trace.dropWhile (· ≠ .stopped)

/-- The step keeps the count in range, dequeues only from a nonempty queue,
and a worker leaves exactly when it finds `stopping` set and the queue empty. -/
def StepConforms (state : State Submitter Worker) (action : Action Submitter Worker) : Prop :=
  ∀ next events, machine.step state action = some (next, events) →
    (next.pool.tail - next.pool.head).toNat ≤ 16 ∧
    (∀ worker job, .dequeued worker job ∈ events → state.pool.tail ≠ state.pool.head) ∧
    ∀ worker, .left worker ∈ events ↔
      action = .workerSection worker ∧ state.pool.stopping = true ∧ state.pool.tail = state.pool.head

/-- Every step conforms, the dequeued jobs are the accepted jobs in order,
and no job is accepted after a stop request. -/
structure RunConforms (start : State Submitter Worker) (schedule : List (Action Submitter Worker)) : Prop where
  steps : machine.Along StepConforms start schedule
  delivers : ∀ final trace, machine.run start schedule = some (final, trace) →
    accepted trace = dequeued trace ++ final.pool.jobs ∧ accepted (sinceStop trace) = []

/-- No worker enters its critical section when `stopping` is set and the queue is empty. -/
def NeverDrained (state : State Submitter Worker) (action : Action Submitter Worker) : Prop :=
  ∀ worker, action = .workerSection worker → (state.workers worker).Enters →
    ¬(state.pool.stopping = true ∧ state.pool.tail = state.pool.head)

end Ostep.WorkerQueue
