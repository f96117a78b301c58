import Ostep.Library.History
import Ostep.Proof.BoundedQueue.Step

namespace Ostep.BoundedQueue

open Library Library.Mutex Library.History

/-- The values in the queue, the oldest first. -/
def Queue.items (queue : Queue) : List Word := Circle.contents bqCapacity queue.data queue.tail queue.count

/-- A closed queue refuses a push, and a closed empty queue refuses a pop. -/
def Side.Refuses (queue : Queue) : Side → Prop
  | .push => queue.closed = true
  | .pop => queue.closed = true ∧ queue.count = 0

/-- Each critical section acts on the queue at once. -/
inductive Effect (queue : Queue) : Queue → List Outcome → Prop where
  | keep : Effect queue queue []
  | push (value : Word) (ready : Side.push.Ready queue) :
      Effect queue { queue with
        data := Function.update queue.data queue.head value
        head := (queue.head + 1) % bqCapacity
        count := queue.count + 1 } [.pushed value]
  | pop (ready : Side.pop.Ready queue) :
      Effect queue { queue with tail := (queue.tail + 1) % bqCapacity, count := queue.count - 1 }
        [.popped (queue.data queue.tail)]
  | refuse (side : Side) (refuses : side.Refuses queue) : Effect queue queue [.refused side]
  | close : Effect queue { queue with closed := true } [.closed]

/-- The queue after the remaining accesses of a transfer. -/
def Pc.finish (queue : Queue) : Pc → Queue
  | .advancing side _ => side.recount (side.advance queue)
  | .counting side _ => side.recount queue
  | _ => queue

variable {Thread : Type} {state : State Thread} {thread : Thread}

/-- The queue as the threads outside the critical sections will find it. -/
def State.settled (state : State Thread) : Queue :=
  match state.owner with
  | none => state.queue
  | some thread => (state.threads thread).finish state.queue

/-- The thread inside decides what remains to be done. -/
theorem settled_of_inside (guarded : Guards Pc.Inside state.owner state.threads)
    (inside : (state.threads thread).Inside) : state.settled = (state.threads thread).finish state.queue := by
  have held : state.owner = some thread := (guarded thread).mpr inside
  simp only [State.settled, held]

/-- Only the position of the owner matters. -/
theorem settled_congr (guarded : Guards Pc.Inside state.owner state.threads) {threads : Thread → Pc}
    (same : ∀ thread, (state.threads thread).Inside → threads thread = state.threads thread) :
    ({ state with threads } : State Thread).settled = state.settled := by
  rcases state with ⟨queue, owner, before⟩
  cases owner with
  | none => rfl
  | some owner =>
      have inside : (before owner).Inside := (guarded owner).mp rfl
      exact congrArg (Pc.finish queue) (same owner inside)

/-- The critical sections that remain to be finished do not close the queue. -/
theorem settled_closed (state : State Thread) : state.settled.closed = state.queue.closed := by
  rcases state with ⟨queue, owner, threads⟩
  cases owner with
  | none => rfl
  | some owner =>
      change (Pc.finish queue (threads owner)).closed = queue.closed
      cases threads owner with
      | advancing side value => cases side <;> rfl
      | counting side value => cases side <;> rfl
      | _ => rfl

/-- The tests of a refused call decide the same for the side. -/
theorem refuses_of_refused {queue : Queue} {call : Call} (refused : call.refused queue = true) :
    call.side.Refuses queue := by
  cases call with
  | push value => exact refused
  | pop =>
      rw [Call.refused, Bool.and_eq_true, decide_eq_true_eq] at refused
      exact refused

theorem outcomes_append (past events : List (Event Thread)) :
    outcomes (past ++ events) = outcomes past ++ outcomes events := List.filterMap_append

theorem pushed_append (past events : List Outcome) : pushed (past ++ events) = pushed past ++ pushed events :=
  List.filterMap_append

theorem popped_append (past events : List Outcome) : popped (past ++ events) = popped past ++ popped events :=
  List.filterMap_append

/-- What a history of critical sections tells about the queue. -/
structure Fifo (history : List Outcome) (queue : Queue) : Prop where
  inside : queue.tail < bqCapacity
  aligned : queue.head = (queue.tail + queue.count) % bqCapacity
  order : pushed history = popped history ++ queue.items
  closed : queue.closed = true ↔ .closed ∈ history
  rejects : Always (fun before outcome => .closed ∈ before → ∀ value, outcome ≠ .pushed value) history
  drains : Always (fun before outcome => outcome = .refused .pop →
    .closed ∈ before ∧ popped before = pushed before) history

/-- The queue starts with no history. -/
theorem initial_fifo (data : Nat → Word) : Fifo [] (initial data : State Thread).settled where
  inside := Nat.zero_lt_succ _
  aligned := rfl
  order := rfl
  closed := iff_of_false nofun List.not_mem_nil
  rejects := always_nil
  drains := always_nil

/-- A push that finds the queue closed fails and leaves the queue. -/
structure Fails (queue next : Queue) (thread : Thread) (events : List (Event Thread)) : Prop where
  unchanged : next = queue
  refused : ∀ outcome ∈ outcomes events, outcome = .refused .push
  returns : ∀ code, .returned thread code ∈ events → code = -2

/-- A step without events that leaves the queue decides nothing. -/
theorem fails_nil (queue : Queue) (thread : Thread) : Fails queue queue thread [] :=
  ⟨rfl, nofun, nofun⟩

/-- No access of a push in a closed queue succeeds. -/
theorem Safe.access_closed (safe : Safe state) (closed : state.queue.closed = true)
    (pushes : (state.threads thread).Pushes) {queue : Queue} {owner : Option Thread} {next : Pc}
    {events : List (Event Thread)}
    (moved : Access state.queue thread state.owner (state.threads thread) queue owner next events) :
    Fails state.queue queue thread events := by
  have sound := safe.sound thread
  have shut : state.queue.closed ≠ false := by simp [closed]
  generalize state.threads thread = pc at moved sound pushes
  generalize state.owner = holder at moved
  cases moved with
  | lock ready => exact fails_nil _ thread
  | park waits => exact fails_nil _ thread
  | @refuse _ call refused =>
      have side : call.side = .push := pushes
      rw [side]
      exact ⟨rfl, by simp [outcomes], by simp⟩
  | proceed leaves accepted => exact fails_nil _ thread
  | store value => exact absurd sound.2 shut
  | load => cases pushes
  | advance side value =>
      cases pushes
      exact absurd sound.2 shut
  | recount side value =>
      cases pushes
      exact absurd sound.2 shut
  | unlock outcome =>
      rcases pushes with rfl | ⟨value, rfl⟩
      · exact ⟨rfl, by simp [outcomes], by simp [Outcome.code]⟩
      · exact absurd sound shut
  | lockClose => cases pushes
  | close => cases pushes

variable [DecidableEq Thread]

/-- The settled queue while the thread that has just moved is inside. -/
theorem settled_update (queue : Queue) (threads : Thread → Pc) (next : Pc) :
    (⟨queue, some thread, Function.update threads thread next⟩ : State Thread).settled = next.finish queue :=
  congrArg (Pc.finish queue) (Function.update_self ..)

/-- Each access acts on the settled queue at once. -/
theorem Safe.access_effect (safe : Safe state) {queue : Queue} {owner : Option Thread} {next : Pc}
    {events : List (Event Thread)}
    (moved : Access state.queue thread state.owner (state.threads thread) queue owner next events) :
    Effect state.settled (⟨queue, owner, Function.update state.threads thread next⟩ : State Thread).settled
      (outcomes events) := by
  have guarded := safe.guarded
  have sound := safe.sound thread
  rcases state with ⟨before, holder, threads⟩
  dsimp only at moved guarded sound
  generalize current : threads thread = pc at moved sound
  have held (inside : pc.Inside) : holder = some thread := (guarded thread).mpr (current ▸ inside)
  have mine (inside : pc.Inside) : (threads thread).Inside := current ▸ inside
  have start (inside : pc.Inside) : (⟨before, holder, threads⟩ : State Thread).settled = pc.finish before :=
    (settled_of_inside guarded (mine inside)).trans (congrArg (Pc.finish before) current)
  cases moved with
  | lock ready =>
      rw [settled_update]
      exact .keep
  | park waits =>
      rw [start trivial]
      exact .keep
  | refuse refused =>
      rw [start trivial, held trivial, settled_update]
      exact .refuse _ (refuses_of_refused refused)
  | proceed leaves accepted =>
      rw [start trivial, held trivial, settled_update]
      exact .keep
  | store value =>
      rw [start trivial, held trivial, settled_update]
      exact .push value sound
  | load =>
      rw [start trivial, held trivial, settled_update]
      exact .pop sound
  | advance side value =>
      rw [start trivial, held trivial, settled_update]
      exact .keep
  | recount side value =>
      rw [start trivial, held trivial, settled_update]
      exact .keep
  | unlock outcome =>
      rw [start trivial]
      exact .keep
  | lockClose =>
      rw [settled_update]
      exact .keep
  | close =>
      rw [start trivial, held trivial, settled_update]
      exact .close

variable [Fintype Thread]

/-- Each step acts on the settled queue at once. -/
theorem Safe.effect (safe : Safe state) {next : State Thread} {events : List (Event Thread)}
    (step : Step state thread next events) : Effect state.settled next.settled (outcomes events) := by
  cases step with
  | @enter first outside entry =>
      have same : ({ state with threads := Function.update state.threads thread first } : State Thread).settled =
          state.settled := by
        apply settled_congr safe.guarded
        intro other inside
        apply Function.update_of_ne
        intro mine
        rw [mine, outside] at inside
        exact inside
      rw [same]
      exact .keep
  | null outside => exact .keep
  | access moved => exact safe.access_effect moved
  | @signal side value woken threads current signalled =>
      have inside : (state.threads thread).Inside := by
        rw [current]
        trivial
      rw [settled_of_inside safe.guarded inside, current, (safe.guarded thread).mpr inside, settled_update]
      exact .keep
  | @broadcast side current =>
      have inside : (state.threads thread).Inside := by
        rw [current]
        trivial
      rw [settled_of_inside safe.guarded inside, current, (safe.guarded thread).mpr inside, settled_update]
      cases side <;> exact .keep
  | @spurious side threads signalled =>
      have same : ({ state with threads } : State Thread).settled = state.settled := by
        apply settled_congr safe.guarded
        intro other inside
        exact (signal_woken signalled other).elim id fun wakes => wakes.trans (Pc.wake_of_inside inside side)
      rw [same]
      exact .keep

/-- A push adds its value behind the other items. -/
theorem items_push {queue : Queue} (aligned : queue.head = (queue.tail + queue.count) % bqCapacity)
    (room : queue.count < bqCapacity) (value : Word) :
    Queue.items { queue with
      data := Function.update queue.data queue.head value
      head := (queue.head + 1) % bqCapacity
      count := queue.count + 1 } = queue.items ++ [value] := by
  simp only [Queue.items, aligned]
  exact Circle.contents_push room value

/-- A pop takes the oldest item. -/
theorem items_pop {queue : Queue} (inside : queue.tail < bqCapacity) (positive : 0 < queue.count) :
    queue.items = queue.data queue.tail ::
      Queue.items { queue with tail := (queue.tail + 1) % bqCapacity, count := queue.count - 1 } := by
  simp only [Queue.items]
  rw [← Circle.contents_pop inside, Nat.sub_add_cancel positive]

/-- Each critical section keeps the queue in order. -/
theorem Fifo.effect {history events : List Outcome} {queue next : Queue} (fifo : Fifo history queue)
    (effect : Effect queue next events) : Fifo (history ++ events) next := by
  have aligned := fifo.aligned
  have order := fifo.order
  have closed := fifo.closed
  cases effect with
  | keep => rwa [List.append_nil]
  | push value ready =>
      refine ⟨fifo.inside, ?_, ?_, ?_, ?_, ?_⟩
      · rw [aligned, Nat.mod_add_mod]
        rfl
      · rw [pushed_append, popped_append, order, items_push aligned ready.1]
        simp [pushed, popped]
      · simpa using closed
      · apply fifo.rejects.append
        intro shut
        have opened := ready.2
        rw [closed.mpr shut] at opened
        cases opened
      · exact fifo.drains.append nofun
  | pop ready =>
      refine ⟨Nat.mod_lt _ (by decide), ?_, ?_, ?_, ?_, ?_⟩
      · have positive : 0 < queue.count := ready
        dsimp only
        rw [aligned, Nat.mod_add_mod]
        congr 1
        omega
      · rw [pushed_append, popped_append, order, items_pop fifo.inside ready]
        simp [pushed, popped]
      · simpa using closed
      · exact fifo.rejects.append fun _ _ => nofun
      · exact fifo.drains.append nofun
  | refuse side refuses =>
      refine ⟨fifo.inside, aligned, ?_, ?_, ?_, ?_⟩
      · rw [pushed_append, popped_append, order]
        simp [pushed, popped]
      · simpa using closed
      · exact fifo.rejects.append fun _ _ => nofun
      · apply fifo.drains.append
        intro same
        cases same
        have empty : queue.items = [] := by
          rw [Queue.items, refuses.2, Circle.contents_zero]
        refine ⟨closed.mp refuses.1, ?_⟩
        rw [order, empty, List.append_nil]
  | close =>
      refine ⟨fifo.inside, aligned, ?_, ?_, ?_, ?_⟩
      · rw [pushed_append, popped_append, order]
        simp [pushed, popped, Queue.items]
      · simp
      · exact fifo.rejects.append fun _ _ => nofun
      · exact fifo.drains.append nofun

/-- Every run is safe and keeps the settled queue in order. -/
theorem run_fifo {data : Nat → Word} {schedule : List (Action Thread)} {trace : List (Event Thread)}
    (ran : machine.run (initial data) schedule = some (state, trace)) :
    Safe state ∧ Fifo (outcomes trace) state.settled := by
  refine machine.run_invariant (fun past state => Safe state ∧ Fifo (outcomes past) state.settled)
    ?_ ⟨initial_safe data, initial_fifo data⟩ ran
  rintro past state action next events ⟨safe, fifo⟩ stepped
  have step := Step.of_machine stepped
  rw [outcomes_append]
  exact ⟨safe.step step, fifo.effect (safe.effect step)⟩

/-- No step of a push in a closed queue succeeds. -/
theorem Safe.push_closed (safe : Safe state) (closed : state.queue.closed = true)
    (pushes : (state.threads thread).Pushes) {next : State Thread} {events : List (Event Thread)}
    (step : Step state thread next events) : Fails state.queue next.queue thread events := by
  cases step with
  | null outside =>
      rw [outside] at pushes
      cases pushes
  | access moved => exact safe.access_closed closed pushes moved
  | _ => exact fails_nil _ thread

/-- The tests refuse a push that finds the queue closed. -/
theorem testing_closed {value : Word} (closed : state.queue.closed = true)
    (current : state.threads thread = .testing (.push value)) (woken : Option Thread) :
    ∃ next, machine.step state (.go thread woken) = some (next, [.critical thread (.refused .push)]) := by
  have refused : access state.queue state.owner thread (.testing (.push value)) =
      some (state.queue, state.owner, .unlocking (.refused .push), [.critical thread (.refused .push)]) := by
    simp [access, Call.waits, Call.refused, Call.side, closed]
  refine ⟨⟨state.queue, state.owner, Function.update state.threads thread (.unlocking (.refused .push))⟩, ?_⟩
  simp only [machine, goStep, current, refused, Option.map_some]

/-- The count stays in range and agrees with the indices while the mutex is free.
The popped values begin the pushed ones.
No push succeeds after a close: each one leaves the queue and returns -2.
A pop fails only on a closed queue whose values have all been popped. -/
theorem boundedQueue_fifo (data : Nat → Word) (schedule : List (Action Thread)) (trace : List (Event Thread))
    (ran : machine.run (initial data) schedule = some (state, trace)) :
    state.queue.count ≤ bqCapacity ∧
    (state.owner = none →
      state.queue.head = (state.queue.tail + state.queue.count) % bqCapacity ∧
      pushed (outcomes trace) = popped (outcomes trace) ++ state.queue.items) ∧
    popped (outcomes trace) <+: pushed (outcomes trace) ∧
    Always (fun before outcome => .closed ∈ before → ∀ value, outcome ≠ .pushed value) (outcomes trace) ∧
    (.closed ∈ outcomes trace → state.queue.closed = true) ∧
    (state.queue.closed = true → ∀ thread, (state.threads thread).Pushes →
      (∀ woken next events, machine.step state (.go thread woken) = some (next, events) →
        Fails state.queue next.queue thread events) ∧
      ∀ value woken, state.threads thread = .testing (.push value) →
        ∃ next, machine.step state (.go thread woken) = some (next, [.critical thread (.refused .push)])) ∧
    Always (fun before outcome => outcome = .refused .pop →
      .closed ∈ before ∧ popped before = pushed before) (outcomes trace) := by
  obtain ⟨safe, fifo⟩ := run_fifo ran
  refine ⟨safe.bounded, ?_, ⟨_, fifo.order.symm⟩, fifo.rejects, ?_, ?_, fifo.drains⟩
  · intro free
    have settled : state.settled = state.queue := by simp only [State.settled, free]
    rw [settled] at fifo
    exact ⟨fifo.aligned, fifo.order⟩
  · rw [← settled_closed]
    exact fifo.closed.mpr
  · intro closed thread pushes
    refine ⟨fun woken next events stepped => ?_, fun value woken current => testing_closed closed current woken⟩
    exact safe.push_closed closed pushes (Step.of_machine stepped)

/-- A producer parks on the full queue, is woken by a pop, and is refused after a close. -/
def producerRefused : List (Action (Fin 2)) :=
  (List.range 8).flatMap (fun value =>
      Action.call 0 true (.push (BitVec.ofNat 32 value)) :: List.replicate 7 (Action.go 0 none)) ++
    Action.call 0 true (.push 8) :: List.replicate 2 (Action.go 0 none) ++
    Action.call 1 true .pop :: List.replicate 5 (Action.go 1 none) ++ Action.go 1 (some 0) :: Action.go 1 none ::
    Action.close 1 true :: List.replicate 5 (Action.go 1 none) ++ List.replicate 3 (Action.go 0 none)

/-- The one popped value is the first of eight, and the refused push returns -2. -/
theorem boundedQueue_producer_refused :
    ∃ state trace, machine.run (initial fun _ => 0) producerRefused = some (state, trace) ∧
      .returned 0 (-2) ∈ trace ∧ popped (outcomes trace) <+: pushed (outcomes trace) ∧
      state.queue.count = 7 ∧ state.queue.head = (state.queue.tail + 7) % bqCapacity := by
  have refused : (machine.run (initial fun _ => 0) producerRefused).map
      (fun result => (result.1.owner, result.1.queue.count, decide (.returned 0 (-2) ∈ result.2))) =
        some (none, 7, true) := by
    decide +kernel
  obtain ⟨⟨state, trace⟩, ran, ended⟩ := Option.map_eq_some_iff.mp refused
  obtain ⟨free, rest⟩ := Prod.mk.inj ended
  obtain ⟨count, returned⟩ := Prod.mk.inj rest
  obtain ⟨-, settled, begins, -⟩ := boundedQueue_fifo _ _ _ ran
  refine ⟨state, trace, ran, of_decide_eq_true returned, begins, count, ?_⟩
  rw [(settled free).1]
  exact congrArg (fun count => (state.queue.tail + count) % bqCapacity) count

end Ostep.BoundedQueue
