import Ostep.Construction.WorkerQueue

namespace Ostep.WorkerQueue

open Library

/-- A count in range is not truncated. -/
theorem getQueueCount_toNat {pool : WorkerPool} (bounded : (pool.tail - pool.head).toNat ≤ 16) :
    (getQueueCount pool).toNat = (pool.tail - pool.head).toNat := by
  rw [getQueueCount, BitVec.toNat_setWidth]
  exact Nat.mod_eq_of_lt (by omega)

/-- A zero count in range means an empty queue. -/
theorem getQueueCount_eq_zero {pool : WorkerPool} (bounded : (pool.tail - pool.head).toNat ≤ 16) :
    getQueueCount pool = 0 ↔ pool.tail = pool.head := by
  rw [← Ring.distance_eq_zero_iff pool.head pool.tail, ← getQueueCount_toNat bounded]
  exact BitVec.toNat_eq

/-- A queue that is not full has room for one more job. -/
theorem room_of_getQueueCount {pool : WorkerPool} (bounded : (pool.tail - pool.head).toNat ≤ 16)
    (notFull : getQueueCount pool ≠ qMax) : (pool.tail - pool.head).toNat < 16 := by
  refine Nat.lt_of_le_of_ne bounded fun full => notFull (BitVec.eq_of_toNat_eq ?_)
  rw [getQueueCount_toNat bounded, full]
  rfl

/-- The pool after an accepted job. -/
def WorkerPool.push (pool : WorkerPool) (job : Job) : WorkerPool := { pool with
  queue := Function.update pool.queue (pool.tail &&& qMask) job
  tail := pool.tail + BitVec.ofNat 64 1 }

/-- The pool after a dequeued job. -/
def WorkerPool.pop (pool : WorkerPool) : WorkerPool := { pool with head := pool.head + BitVec.ofNat 64 1 }

/-- An accepted job is the last job of the queue. -/
theorem WorkerPool.jobs_push {pool : WorkerPool} (room : (pool.tail - pool.head).toNat < 16) (job : Job) :
    (pool.push job).jobs = pool.jobs ++ [job] ∧
      ((pool.push job).tail - (pool.push job).head).toNat = (pool.tail - pool.head).toNat + 1 := by
  have noWrap : (pool.tail - pool.head).toNat + 1 < 2 ^ 64 := by omega
  exact ⟨Ring.contents_push (by decide) room noWrap job, Ring.distance_write noWrap⟩

/-- A dequeued job is the first job of the queue. -/
theorem WorkerPool.jobs_pop {pool : WorkerPool} (nonempty : pool.tail ≠ pool.head) :
    pool.jobs = pool.queue (pool.head &&& qMask) :: pool.pop.jobs ∧
      (pool.pop.tail - pool.pop.head).toNat + 1 = (pool.tail - pool.head).toNat :=
  ⟨Ring.contents_advance_read nonempty, Ring.distance_read nonempty⟩

/-- The critical section of a submission waits, rejects, or pushes its job. -/
theorem submitSection_cases (pool : WorkerPool) (job : Job) :
    submitSection pool job = .waits ∨ submitSection pool job = .returns (-2) ∨
      submitSection pool job = .accepts (pool.push job) ∧ pool.stopping = false ∧
        getQueueCount pool ≠ qMax := by
  unfold submitSection
  split
  · exact Or.inl rfl
  · next proceeds =>
      split
      · exact Or.inr (Or.inl rfl)
      · next running =>
          have running := Bool.eq_false_iff.mpr running
          exact Or.inr (Or.inr ⟨rfl, running, fun full => proceeds ⟨full, running⟩⟩)

/-- The critical section of a worker waits or pops a job. It never leaves the loop. -/
theorem workerSection_cases (pool : WorkerPool) :
    workerSection pool = .waits ∧ pool.stopping = false ∨
      workerSection pool = .takes (pool.queue (pool.head &&& qMask)) pool.pop ∧
        ¬(getQueueCount pool = 0 ∧ pool.stopping = false) := by
  unfold workerSection
  split
  · next waits => exact Or.inl ⟨rfl, waits.2⟩
  · next proceeds =>
      rw [if_neg (by simp [getQueueCountIsNull])]
      exact Or.inr ⟨rfl, proceeds⟩

variable {Submitter Worker : Type}

theorem accepted_append (past events : List (Event Submitter Worker)) :
    accepted (past ++ events) = accepted past ++ accepted events := List.filterMap_append

theorem dequeued_append (past events : List (Event Submitter Worker)) :
    dequeued (past ++ events) = dequeued past ++ dequeued events := List.filterMap_append

/-- A worker that proceeds finds a job, unless the queue is drained. -/
theorem nonempty_of_proceeds {state : State Submitter Worker} {worker : Worker}
    (bounded : (state.pool.tail - state.pool.head).toNat ≤ 16)
    (never : NeverDrained state (.workerSection worker : Action Submitter Worker))
    (enters : (state.workers worker).Enters)
    (proceeds : ¬(getQueueCount state.pool = 0 ∧ state.pool.stopping = false)) :
    state.pool.tail ≠ state.pool.head := by
  intro empty
  cases stopping : state.pool.stopping with
  | true => exact never worker rfl enters ⟨stopping, empty⟩
  | false => exact proceeds ⟨(getQueueCount_eq_zero bounded).mpr empty, stopping⟩

variable [DecidableEq Submitter] [DecidableEq Worker]

/-- A step keeps the pool and only returns codes, accepts a job, requests the stop, or dequeues a job. -/
theorem step_cases {state next : State Submitter Worker} {action : Action Submitter Worker}
    {events : List (Event Submitter Worker)} (stepped : machine.step state action = some (next, events)) :
    next.pool = state.pool ∧ (events = [] ∨ ∃ thread code, events = [.returned thread code]) ∨
    (∃ job, next.pool = state.pool.push job ∧ events = [.accepted job] ∧ state.pool.stopping = false ∧
      getQueueCount state.pool ≠ qMax) ∨
    next.pool = { state.pool with stopping := true } ∧ events = [.stopped] ∨
    ∃ worker, action = .workerSection worker ∧ (state.workers worker).Enters ∧ next.pool = state.pool.pop ∧
      events = [.dequeued worker (state.pool.queue (state.pool.head &&& qMask))] ∧
      ¬(getQueueCount state.pool = 0 ∧ state.pool.stopping = false) := by
  cases action with
  | submitCall thread job =>
      simp only [machine, submitCallStep] at stepped
      split at stepped
      · split at stepped
        · obtain ⟨rfl, rfl⟩ := Prod.mk.inj (Option.some.inj stepped)
          exact Or.inl ⟨rfl, Or.inr ⟨_, _, rfl⟩⟩
        · split at stepped
          · obtain ⟨rfl, rfl⟩ := Prod.mk.inj (Option.some.inj stepped)
            exact Or.inl ⟨rfl, Or.inr ⟨_, _, rfl⟩⟩
          · obtain ⟨rfl, rfl⟩ := Prod.mk.inj (Option.some.inj stepped)
            exact Or.inl ⟨rfl, Or.inl rfl⟩
      · cases stepped
  | submitSection thread =>
      obtain ⟨job, -, result⟩ := Option.map_eq_some_iff.mp stepped
      obtain ends | ends | ⟨ends, running, room⟩ := submitSection_cases state.pool job
      · rw [ends] at result
        obtain ⟨rfl, rfl⟩ := Prod.mk.inj result
        exact Or.inl ⟨rfl, Or.inl rfl⟩
      · rw [ends] at result
        obtain ⟨rfl, rfl⟩ := Prod.mk.inj result
        exact Or.inl ⟨rfl, Or.inr ⟨_, _, rfl⟩⟩
      · rw [ends] at result
        obtain ⟨rfl, rfl⟩ := Prod.mk.inj result
        exact Or.inr (Or.inl ⟨job, rfl, rfl, running, room⟩)
  | requestStop =>
      obtain ⟨rfl, rfl⟩ := Prod.mk.inj (Option.some.inj stepped)
      exact Or.inr (Or.inr (Or.inl ⟨rfl, rfl⟩))
  | workerSection worker =>
      simp only [machine, workerSectionStep] at stepped
      split at stepped
      · next enters =>
          obtain ⟨ends, -⟩ | ⟨ends, proceeds⟩ := workerSection_cases state.pool
          · rw [ends] at stepped
            obtain ⟨rfl, rfl⟩ := Prod.mk.inj (Option.some.inj stepped)
            exact Or.inl ⟨rfl, Or.inl rfl⟩
          · rw [ends] at stepped
            obtain ⟨rfl, rfl⟩ := Prod.mk.inj (Option.some.inj stepped)
            exact Or.inr (Or.inr (Or.inr ⟨worker, rfl, enters, rfl, rfl, proceeds⟩))
      · cases stepped
  | workerRun worker =>
      simp only [machine, workerRunStep] at stepped
      split at stepped
      · obtain ⟨rfl, rfl⟩ := Prod.mk.inj (Option.some.inj stepped)
        exact Or.inl ⟨rfl, Or.inl rfl⟩
      · cases stepped

/-- The queue holds the accepted jobs that were not dequeued, and a stop closes it. -/
structure Holds (trace : List (Event Submitter Worker)) (state : State Submitter Worker) : Prop where
  bounded : (state.pool.tail - state.pool.head).toNat ≤ 16
  fifo : accepted trace = dequeued trace ++ state.pool.jobs
  running : state.pool.stopping = false → sinceStop trace = []
  closed : accepted (sinceStop trace) = []

/-- An event before any stop request, or one that accepts no job, keeps the queue closed. -/
theorem accepted_sinceStop {past : List (Event Submitter Worker)} (closed : accepted (sinceStop past) = [])
    (event : Event Submitter Worker) (allowed : sinceStop past = [] ∨ accepted [event] = []) :
    accepted (sinceStop (past ++ [event])) = [] := by
  unfold sinceStop at *
  rw [List.dropWhile_append]
  split
  · by_cases stops : event = .stopped
    · subst stops
      rfl
    · rw [List.dropWhile_cons_of_pos (by simpa using stops)]
      rfl
  · next started =>
      have silent := allowed.resolve_left (by simpa using started)
      rw [accepted_append, closed, silent, List.append_nil]

/-- Before a stop request only a stop request starts the closed part of the history. -/
theorem sinceStop_append {past : List (Event Submitter Worker)} (open_ : sinceStop past = [])
    {event : Event Submitter Worker} (other : event ≠ .stopped) : sinceStop (past ++ [event]) = [] := by
  unfold sinceStop at *
  rw [List.dropWhile_append, open_, List.dropWhile_cons_of_pos (by simpa using other)]
  rfl

/-- An event that neither accepts nor dequeues a job keeps the queue. -/
theorem Holds.silent {past : List (Event Submitter Worker)} {state next : State Submitter Worker}
    (holds : Holds past state) {event : Event Submitter Worker} (jobs : next.pool.jobs = state.pool.jobs)
    (count : next.pool.tail - next.pool.head = state.pool.tail - state.pool.head)
    (noAccept : accepted [event] = []) (noDequeue : dequeued [event] = [])
    (running : next.pool.stopping = false → state.pool.stopping = false ∧ event ≠ .stopped) :
    Holds (past ++ [event]) next where
  bounded := count ▸ holds.bounded
  fifo := by
    rw [accepted_append, dequeued_append, noAccept, noDequeue, List.append_nil, List.append_nil, jobs]
    exact holds.fifo
  running open_ := sinceStop_append (holds.running (running open_).1) (running open_).2
  closed := accepted_sinceStop holds.closed event (Or.inr noAccept)

/-- An accepted job joins the end of a queue that is neither full nor stopped. -/
theorem Holds.accept {past : List (Event Submitter Worker)} {state next : State Submitter Worker} {job : Job}
    (holds : Holds past state) (pool : next.pool = state.pool.push job) (running : state.pool.stopping = false)
    (notFull : getQueueCount state.pool ≠ qMax) : Holds (past ++ [Event.accepted job]) next := by
  have room := room_of_getQueueCount holds.bounded notFull
  obtain ⟨jobs, count⟩ := WorkerPool.jobs_push room job
  refine ⟨?_, ?_, fun _ => sinceStop_append (holds.running running) nofun,
    accepted_sinceStop holds.closed _ (Or.inl (holds.running running))⟩
  · rw [pool, count]
    exact room
  · rw [accepted_append, dequeued_append, pool, jobs, holds.fifo, List.append_assoc]
    exact congrArg (· ++ (state.pool.jobs ++ [job])) (List.append_nil (dequeued past)).symm

/-- A dequeued job leaves the front of a nonempty queue. -/
theorem Holds.dequeue {past : List (Event Submitter Worker)} {state next : State Submitter Worker}
    {worker : Worker} (holds : Holds past state) (pool : next.pool = state.pool.pop)
    (nonempty : state.pool.tail ≠ state.pool.head) :
    Holds (past ++ [Event.dequeued worker (state.pool.queue (state.pool.head &&& qMask))]) next := by
  obtain ⟨jobs, count⟩ := WorkerPool.jobs_pop nonempty
  have bounded := holds.bounded
  refine ⟨?_, ?_, fun running => ?_, accepted_sinceStop holds.closed _ (Or.inr rfl)⟩
  · rw [pool]
    omega
  · rw [accepted_append, dequeued_append, pool, holds.fifo, jobs, List.append_assoc, List.append_assoc]
    exact congrArg (dequeued past ++ ·) (List.append_nil _)
  · rw [pool] at running
    exact sinceStop_append (holds.running running) nofun

/-- A step keeps the queue when no worker finds it drained. -/
theorem Holds.step {past events : List (Event Submitter Worker)} {state next : State Submitter Worker}
    {action : Action Submitter Worker} (holds : Holds past state) (never : NeverDrained state action)
    (stepped : machine.step state action = some (next, events)) : Holds (past ++ events) next := by
  obtain ⟨pool, rfl | ⟨thread, code, rfl⟩⟩ | ⟨job, pool, rfl, running, notFull⟩ | ⟨pool, rfl⟩ |
    ⟨worker, rfl, enters, pool, rfl, proceeds⟩ := step_cases stepped
  · rw [List.append_nil]
    exact ⟨pool ▸ holds.bounded, pool ▸ holds.fifo, pool ▸ holds.running, holds.closed⟩
  · exact holds.silent (by rw [pool]) (by rw [pool]) rfl rfl fun running => ⟨pool ▸ running, nofun⟩
  · exact holds.accept pool running notFull
  · refine holds.silent (by rw [pool]; rfl) (by rw [pool]) rfl rfl fun running => ?_
    rw [pool] at running
    cases running
  · exact holds.dequeue pool (nonempty_of_proceeds holds.bounded never enters proceeds)

/-- The queue starts empty. -/
theorem initial_holds (queue : BitVec 64 → Job) (counter : BitVec 64) :
    Holds [] (initial queue counter : State Submitter Worker) where
  bounded := by simp [initial]
  fifo := by simp [accepted, dequeued, initial, WorkerPool.jobs]
  running _ := rfl
  closed := rfl

/-- A worker that finds the queue drained dequeues from it. -/
theorem drained_step {state : State Submitter Worker} {worker : Worker} (enters : (state.workers worker).Enters)
    (stopping : state.pool.stopping = true) :
    machine.step state (.workerSection worker) = some
      ({ state with
        pool := state.pool.pop
        workers := Function.update state.workers worker
          (.running (state.pool.queue (state.pool.head &&& qMask))) },
        [.dequeued worker (state.pool.queue (state.pool.head &&& qMask))]) := by
  obtain ⟨-, running⟩ | ⟨ends, -⟩ := workerSection_cases state.pool
  · rw [stopping] at running
    cases running
  · simp only [machine, workerSectionStep, if_pos enters, ends]

/-- A conforming step does not find the queue drained. -/
theorem neverDrained_of_stepConforms {state : State Submitter Worker} {action : Action Submitter Worker}
    (conforms : StepConforms state action) : NeverDrained state action := by
  rintro worker rfl enters ⟨stopping, empty⟩
  obtain ⟨-, nonempty, -⟩ := conforms _ _ (drained_step enters stopping)
  exact nonempty worker _ List.mem_cons_self empty

/-- A step conforms when no worker finds the queue drained. -/
theorem Holds.stepConforms {past : List (Event Submitter Worker)} {state : State Submitter Worker}
    {action : Action Submitter Worker} (holds : Holds past state) (never : NeverDrained state action) :
    StepConforms state action := by
  intro next events stepped
  refine ⟨(holds.step never stepped).bounded, fun worker job taken => ?_, fun worker => iff_of_false ?_ ?_⟩
  · obtain ⟨-, rfl | ⟨thread, code, rfl⟩⟩ | ⟨other, -, rfl, -⟩ | ⟨-, rfl⟩ |
      ⟨other, rfl, enters, -, rfl, proceeds⟩ := step_cases stepped
    · simp at taken
    · simp at taken
    · simp at taken
    · simp at taken
    · exact nonempty_of_proceeds holds.bounded never enters proceeds
  · obtain ⟨-, rfl | ⟨thread, code, rfl⟩⟩ | ⟨other, -, rfl, -⟩ | ⟨-, rfl⟩ | ⟨other, -, -, -, rfl, -⟩ :=
      step_cases stepped
    all_goals simp
  · rintro ⟨rfl, drained⟩
    refine never worker rfl ?_ drained
    by_contra outside
    simp [machine, workerSectionStep, outside] at stepped

/-- A run conforms exactly when no worker enters its critical section
with `stopping` set and the queue empty. -/
theorem workerQueue_conforms_iff (queue : BitVec 64 → Job) (counter : BitVec 64)
    (schedule : List (Action Submitter Worker)) :
    RunConforms (initial queue counter) schedule ↔
      machine.Along NeverDrained (initial queue counter) schedule := by
  constructor
  · intro conforms
    exact machine.along_of_along (fun _ => True) (fun _ _ _ _ _ _ _ _ => trivial)
      (fun _ _ _ => neverDrained_of_stepConforms) trivial conforms.steps
  · intro never
    refine ⟨?_, fun final trace ran => ?_⟩
    · exact machine.along_of_along (fun state => ∃ past, Holds past state)
        (fun _ _ _ _ reached never _ stepped => reached.elim fun _ holds => ⟨_, holds.step never stepped⟩)
        (fun _ _ reached never => reached.elim fun _ holds => holds.stepConforms never)
        ⟨[], initial_holds queue counter⟩ never
    · have holds := machine.run_invariant_along NeverDrained (fun _ => Holds)
        (fun _ _ _ _ _ _ before never stepped => before.step never stepped)
        (initial_holds queue counter) never ran
      exact ⟨holds.fifo, holds.closed⟩

/-- A worker that wakes up after the stop request dequeues a job that nobody submitted. -/
theorem workerQueue_dequeues_empty :
    ∃ final trace, machine.run (initial (fun _ => ⟨0, 0⟩) 0 : State Unit Unit)
        [.requestStop, .workerSection ()] = some (final, trace) ∧
      trace = [.stopped, .dequeued () ⟨0, 0⟩] ∧ final.workers () = .running ⟨0, 0⟩ ∧
      (final.pool.tail - final.pool.head).toNat = 2 ^ 64 - 1 ∧
      ¬RunConforms (initial (fun _ => ⟨0, 0⟩) 0 : State Unit Unit) [.requestStop, .workerSection ()] := by
  refine ⟨_, _, rfl, rfl, rfl, by decide, fun conforms => ?_⟩
  have second := (conforms.steps.2 _ _ rfl).1
  exact neverDrained_of_stepConforms second () rfl (Or.inl rfl) ⟨rfl, rfl⟩

end Ostep.WorkerQueue
