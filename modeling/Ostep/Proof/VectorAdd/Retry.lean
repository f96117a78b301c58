import Ostep.Library.Count
import Ostep.Proof.VectorAdd.Deadlock

namespace Ostep.VectorAdd

open Library Locking

/-- The branch of a failed second try. -/
abbrev backOff (call : Call) (act : Act) : List (Instr Lock Act) := [.touch act, .unlock (.vector call.dst), .again]

/-- The instructions that can remain of the version that tries. -/
inductive Shape (call : Call) : List (Instr Lock Act) → Prop where
  | top : Shape call [.tryLock (.vector call.dst) [.again], .tryLock (.vector call.src) (backOff call .readRetry)]
  | second : Shape call [.tryLock (.vector call.src) (backOff call .readRetry)]
  | enter : Shape call []
  | count (act : Act) : Shape call (backOff call act)
  | back : Shape call [.unlock (.vector call.dst), .again]
  | again : Shape call [.again]

theorem shape_inherited :
    Inherited (vectorAdd .tryWait) (fun call => call.dst ≠ call.src)
      (fun call rest => call.dst ≠ call.src ∧ Shape call rest) where
  start call different := ⟨different, .top⟩
  next := by
    rintro call instr rest forward ⟨different, shape⟩
    refine ⟨different, ?_⟩
    cases shape with
    | top => exact .second
    | second => exact .enter
    | count act => exact .back
    | back => exact .again
    | again => exact absurd rfl forward
  retreat := by
    rintro call lock otherwise rest ⟨different, shape⟩
    refine ⟨different, ?_⟩
    cases shape with
    | top => exact .again
    | second => exact .count _
  touch := by
    rintro call act next rest ⟨different, shape⟩
    refine ⟨different, ?_⟩
    cases shape with
    | count act => exact .count next

/-- The steps that a thread makes alone until it returns or is back at its first try. -/
def work (top : Nat) : Pc Call Lock Act Unit → Nat
  | .idle => 0
  | .acquiring _ [] => 3 * vectorSize + 5
  | .acquiring _ [.tryLock _ _] => 3 * vectorSize + 6
  | .acquiring _ (.touch act :: _) => act.work + 2
  | .acquiring _ (.unlock _ :: _) => 2
  | .acquiring _ (.again :: _) => 1
  | .acquiring _ _ => top
  | .inside _ act => act.work
  | .releasing _ rest _ => rest.length + 1

/-- A thread outside of a call or at its first try holds no lock. -/
def Out (pc : Pc Call Lock Act Unit) : Prop :=
  pc = .idle ∨ ∃ call, pc = .acquiring call (acquire .tryWait call)

theorem Out.held_eq_nil {pc : Pc Call Lock Act Unit} (out : Out pc) : pc.held (vectorAdd .tryWait) = [] := by
  rcases out with rfl | ⟨call, rfl⟩
  · rfl
  · exact owes_acquire .tryWait call

variable {memory : Loc → Value} {call : Call}

variable {Thread : Type}

/-- What every reachable state of the version that tries satisfies when no call adds a vector to itself. -/
structure Running [DecidableEq Thread] (state : State Thread Call Lock Act Loc Value Unit) : Prop where
  owned : Owned (vectorAdd .tryWait) Act.Quiet state
  follows : ∀ thread, (state.workers thread).Follows (fun call => call.dst ≠ call.src)
    fun call rest => call.dst ≠ call.src ∧ Shape call rest

variable {thread : Thread}

/-- A thread that is not at its first try comes closer to it or to its return. -/
theorem work_lt_of_move {owner : Lock → Option Thread} {worker : Worker Call Lock Act Unit}
    {effect : Effect Thread Call Lock Act Loc Value Unit}
    (move : Move (vectorAdd .tryWait) owner memory thread worker effect) (busy : ¬Out worker.pc)
    (shape : ∀ call rest, worker.pc = .acquiring call rest → Shape call rest) :
    work 0 effect.worker.pc < work 0 worker.pc := by
  cases move with
  | start => exact absurd (Or.inl rfl) busy
  | enter => exact Nat.lt_succ_self _
  | @lock call lock rest calls free => cases shape call _ rfl
  | @unlock call lock rest calls =>
      cases shape call _ rfl with
      | back => exact Nat.lt_succ_self _
  | @tried call lock otherwise rest calls free =>
      cases shape call _ rfl with
      | top => exact absurd (Or.inr ⟨call, rfl⟩) busy
      | second => exact Nat.lt_succ_self _
  | @failed call lock otherwise rest calls taken =>
      cases shape call _ rfl with
      | top => exact absurd (Or.inr ⟨call, rfl⟩) busy
      | second => exact Nat.le_of_ble_eq_true rfl
  | touch performed => exact Nat.add_lt_add_right (Act.work_lt performed) 2
  | @touched call act after result rest calls performed =>
      cases shape call _ rfl with
      | count act =>
          have long : 3 < act.work := Act.release_lt performed
          simp only [work]
          omega
  | again => exact Nat.zero_lt_one
  | act performed => exact Act.work_lt performed
  | commit performed => exact Act.release_lt performed
  | release => exact Nat.lt_succ_self _
  | finish => exact Nat.zero_lt_one

section Finish

variable [DecidableEq Thread] {state next : State Thread Call Lock Act Loc Value Unit}
  {events : List (Return Thread Call Unit)}

theorem Running.step (running : Running state)
    (stepped : Locking.step (vectorAdd .tryWait) state thread = some (next, events)) : Running next :=
  ⟨running.owned.step (balanced .tryWait) stepped, follows_step shape_inherited running.follows stepped⟩

theorem Running.shape (running : Running state) (thread : Thread) :
    ∀ call rest, (state.workers thread).pc = .acquiring call rest → Shape call rest :=
  fun call rest current => ((running.follows thread).2 call rest current).2

/-- A try never waits. -/
theorem Running.exists_step (running : Running state) (unfinished : ¬(state.workers thread).Finished) :
    ∃ next events, Locking.step (vectorAdd .tryWait) state thread = some (next, events) := by
  have enabled : (machine (vectorAdd .tryWait)).Enabled state thread := by
    refine enabled_of_unblocked unfinished fun lock waits => ?_
    have shape := running.shape thread
    generalize (state.workers thread).pc = pc at waits shape
    rcases pc with _ | ⟨call, _ | ⟨_ | _, rest⟩⟩ | _ | _
    all_goals cases waits
    cases shape call _ rfl
  obtain ⟨result, stepped⟩ := Option.isSome_iff_exists.mp enabled
  exact ⟨result.1, result.2, stepped⟩

omit [DecidableEq Thread] in
theorem unfinished_of_busy (busy : ¬Out (state.workers thread).pc) : ¬(state.workers thread).Finished :=
  fun finished => busy (Or.inl finished.1)

variable [Fintype Thread]

/-- All threads can go back to their first tries. -/
theorem Running.exists_out (running : Running state) :
    ∃ schedule final trace, (machine (vectorAdd .tryWait)).run state schedule = some (final, trace) ∧
      Running final ∧ ∀ thread, Out (final.workers thread).pc := by
  refine (machine (vectorAdd .tryWait)).exists_run_until Running (fun state => ∀ thread, Out (state.workers thread).pc)
    (fun state => Count.total (fun worker => work 0 worker.pc) state.workers) (fun state running inside => ?_) running
  obtain ⟨thread, busy⟩ := not_forall.mp inside
  obtain ⟨next, events, stepped⟩ := running.exists_step (unfinished_of_busy busy)
  refine ⟨thread, next, events, stepped, running.step stepped, ?_⟩
  obtain ⟨effect, move, rfl, rfl⟩ := step_move stepped
  exact Count.total_update_lt (work_lt_of_move move busy (running.shape thread))

/-- The steps that a thread makes alone until its last call has returned. -/
def remaining (worker : Worker Call Lock Act Unit) : Nat :=
  work (3 * vectorSize + 7) worker.pc + (3 * vectorSize + 8) * worker.calls.length

/-- A thread that does not back off. -/
def Forward : Pc Call Lock Act Unit → Prop
  | .acquiring _ (.touch _ :: _) | .acquiring _ (.unlock _ :: _) | .acquiring _ (.again :: _) => False
  | _ => True

/-- One thread goes forward while all others are at their first tries. -/
structure Turn (state : State Thread Call Lock Act Loc Value Unit) (thread : Thread) : Prop where
  running : Running state
  forward : Forward (state.workers thread).pc
  others : ∀ other, other ≠ thread → Out (state.workers other).pc

omit [Fintype Thread] in
/-- Only the thread whose turn it is holds locks. -/
theorem Turn.mem_held (turn : Turn state thread) {lock : Lock} (taken : state.owner lock ≠ none) :
    lock ∈ (state.workers thread).pc.held (vectorAdd .tryWait) := by
  obtain ⟨owner, owned⟩ := Option.ne_none_iff_exists'.mp taken
  have held := turn.running.owned.mem_held owned
  by_cases same : owner = thread
  · exact same ▸ held
  · rw [(turn.others owner same).held_eq_nil] at held
    cases held

omit [Fintype Thread] in
/-- The thread whose turn it is gets its locks and comes closer to its last return. -/
theorem Turn.move (turn : Turn state thread) {effect : Effect Thread Call Lock Act Loc Value Unit}
    (move : Move (vectorAdd .tryWait) state.owner state.memory thread (state.workers thread) effect) :
    Forward effect.worker.pc ∧ remaining effect.worker < remaining (state.workers thread) := by
  have forward := turn.forward
  have held (lock : Lock) (taken : state.owner lock ≠ none) := turn.mem_held taken
  have follows := (turn.running.follows thread).2
  generalize state.workers thread = worker at move forward held follows
  cases move with
  | start =>
      refine ⟨trivial, ?_⟩
      simp only [remaining, work, List.length_cons, Nat.mul_add_one]
      change 3 * vectorSize + 7 + _ < _
      omega
  | enter => exact ⟨trivial, Nat.add_lt_add_right (Nat.lt_succ_self _) _⟩
  | @lock call lock rest calls free => cases (follows call _ rfl).2
  | unlock => exact forward.elim
  | @tried call lock otherwise rest calls free =>
      obtain ⟨-, shape⟩ := follows call _ rfl
      cases shape with
      | top => exact ⟨trivial, Nat.add_lt_add_right (Nat.lt_succ_self _) _⟩
      | second => exact ⟨trivial, Nat.add_lt_add_right (Nat.lt_succ_self _) _⟩
  | @failed call lock otherwise rest calls taken =>
      obtain ⟨different, shape⟩ := follows call _ rfl
      have mine := held _ taken
      cases shape with
      | top =>
          have out : Out (.acquiring call (acquire .tryWait call)) := Or.inr ⟨call, rfl⟩
          exact absurd (out.held_eq_nil ▸ mine) List.not_mem_nil
      | second =>
          simp [Pc.held, owes, vectorAdd, release, erase_pair, different.symm] at mine
  | touch => exact forward.elim
  | touched => exact forward.elim
  | again => exact forward.elim
  | act performed => exact ⟨trivial, Nat.add_lt_add_right (Act.work_lt performed) _⟩
  | commit performed => exact ⟨trivial, Nat.add_lt_add_right (Act.release_lt performed) _⟩
  | release => exact ⟨trivial, Nat.add_lt_add_right (Nat.lt_succ_self _) _⟩
  | finish => exact ⟨trivial, Nat.add_lt_add_right Nat.zero_lt_one _⟩

omit [Fintype Thread] in
theorem Out.forward {pc : Pc Call Lock Act Unit} (out : Out pc) : Forward pc := by
  rcases out with rfl | ⟨call, rfl⟩
  · trivial
  · trivial

/-- Threads that are at their first tries can finish one after the other. -/
theorem Running.exists_finished (running : Running state) (out : ∀ thread, Out (state.workers thread).pc) :
    ∃ schedule final trace, (machine (vectorAdd .tryWait)).run state schedule = some (final, trace) ∧
      ∀ thread, (final.workers thread).Finished := by
  by_cases empty : IsEmpty Thread
  · exact ⟨[], state, [], rfl, empty.elim⟩
  obtain ⟨first⟩ := not_isEmpty_iff.mp empty
  have ⟨schedule, final, trace, ran, _, finished⟩ := (machine (vectorAdd .tryWait)).exists_run_until
    (fun state => ∃ thread, Turn state thread) (fun state => ∀ thread, (state.workers thread).Finished)
    (fun state => Count.total remaining state.workers) (fun state turns unfinished => ?_)
    ⟨first, running, (out first).forward, fun other _ => out other⟩
  · exact ⟨schedule, final, trace, ran, finished⟩
  -- The thread inside a call goes on. When there is none, any unfinished thread starts.
  have ⟨thread, turn, waits⟩ : ∃ thread, Turn state thread ∧ ¬(state.workers thread).Finished := by
    obtain ⟨current, turn⟩ := turns
    by_cases busy : Out (state.workers current).pc
    · obtain ⟨thread, waits⟩ := not_forall.mp unfinished
      have all (other : Thread) : Out (state.workers other).pc := by
        by_cases same : other = current
        · exact same ▸ busy
        · exact turn.others other same
      exact ⟨thread, ⟨turn.running, (all thread).forward, fun other _ => all other⟩, waits⟩
    · exact ⟨current, turn, unfinished_of_busy busy⟩
  obtain ⟨next, events, stepped⟩ := turn.running.exists_step waits
  have running := turn.running.step stepped
  obtain ⟨effect, move, rfl, rfl⟩ := step_move stepped
  obtain ⟨forward, less⟩ := turn.move move
  refine ⟨thread, _, _, stepped, ⟨thread, running, ?_, fun other different => ?_⟩, Count.total_update_lt less⟩
  · simpa using forward
  · simpa [different] using turn.others other different

/-- The version that tries can finish from every reachable state unless a call adds a vector to itself. -/
theorem try_wait_can_finish (memory : Loc → Value) (calls : Thread → List Call)
    (different : ∀ thread, ∀ call ∈ calls thread, call.dst ≠ call.src) (schedule : List Thread)
    (state : State Thread Call Lock Act Loc Value Unit) (trace : List (Return Thread Call Unit))
    (ran : (machine (vectorAdd .tryWait)).run (initial memory calls) schedule = some (state, trace)) :
    ∃ later final events, (machine (vectorAdd .tryWait)).run state later = some (final, events) ∧
      ∀ thread, (final.workers thread).Finished := by
  have running : Running state := ⟨run_owned (balanced .tryWait) ran, run_follows shape_inherited different ran⟩
  obtain ⟨back, middle, early, retreated, again, out⟩ := running.exists_out
  obtain ⟨forth, final, late, finished, done⟩ := again.exists_finished out
  exact ⟨back ++ forth, final, early ++ late, (machine (vectorAdd .tryWait)).run_append retreated finished, done⟩

/-- Two threads that each hold the lock that the other one tries can still finish. -/
theorem try_wait_can_finish_crossed :
    ∃ state trace,
      (machine (vectorAdd .tryWait)).run twoCrossed.main [0, 1, 0, 1] =
        some (state, trace) ∧
      ∃ later final events, (machine (vectorAdd .tryWait)).run state later = some (final, events) ∧
        ∀ thread, (final.workers thread).Finished :=
  ⟨_, _, rfl, try_wait_can_finish _ twoCrossed.worker (by decide) [0, 1, 0, 1] _ _ rfl⟩

end Finish

section Livelock

variable [DecidableEq Thread] {owner : Lock → Option Thread} {workers : Thread → Worker Call Lock Act Unit}
  {calls : List Call}

/-- A schedule leads to a state without a return, and the given threads fail on its way. -/
structure Fails (start : State Thread Call Lock Act Loc Value Unit) (schedule failed : List Thread)
    (final : State Thread Call Lock Act Loc Value Unit) : Prop where
  ran : (machine (vectorAdd .tryWait)).run start schedule = some (final, [])
  failures : failures start schedule = failed

theorem Fails.append {start middle final : State Thread Call Lock Act Loc Value Unit}
    {first second early late : List Thread} (began : Fails start first early middle)
    (continued : Fails middle second late final) : Fails start (first ++ second) (early ++ late) final where
  ran := (machine (vectorAdd .tryWait)).run_append began.ran continued.ran
  failures := by
    rw [← began.failures, ← continued.failures]
    exact (machine (vectorAdd .tryWait)).observe_append _ began.ran second

/-- A thread that backs off counts a retry, releases its lock and starts over. -/
theorem fails_backOff (failed : workers thread = ⟨.acquiring call (backOff call .readRetry), calls⟩) :
    Fails ⟨memory, owner, workers⟩ (List.replicate 4 thread) []
      ⟨Function.update memory .retry (memory .retry + 1), Function.update owner (.vector call.dst) none,
        Function.update workers thread ⟨.acquiring call (acquire .tryWait call), calls⟩⟩ where
  ran := by simp [List.replicate, Machine.run, machine, step, access, failed, vectorAdd, perform]
  failures := by
    simp [List.replicate, VectorAdd.failures, Machine.observe, failsForSource, machine, step, access, failed, vectorAdd,
      perform]

/-- The schedule of one round in which both threads fail. -/
def round (first second : Thread) : List Thread :=
  [first, second, first, second] ++ (List.replicate 4 first ++ List.replicate 4 second)

/-- Two threads that take one lock each fail for the other one and are back where they started. -/
theorem fails_round {first second : Thread} (different : first ≠ second) {firstCalls secondCalls : List Call}
    (firstTries : workers first = ⟨.acquiring call (acquire .tryWait call), firstCalls⟩)
    (secondTries : workers second =
      ⟨.acquiring ⟨call.src, call.dst⟩ (acquire .tryWait ⟨call.src, call.dst⟩), secondCalls⟩)
    (apart : call.dst ≠ call.src) :
    Fails ⟨memory, fun _ => none, workers⟩ (round first second) [first, second]
      ⟨Function.update memory .retry (memory .retry + 2), fun _ => none, workers⟩ := by
  let other : Call := ⟨call.src, call.dst⟩
  let owner := Function.update (Function.update (fun _ => none) (Lock.vector call.dst) (some first))
    (Lock.vector call.src) (some second)
  let failing := Function.update (Function.update workers first ⟨.acquiring call (backOff call .readRetry), firstCalls⟩)
    second ⟨.acquiring other (backOff other .readRetry), secondCalls⟩
  have tried : Fails ⟨memory, fun _ => none, workers⟩ [first, second, first, second] [first, second]
      ⟨memory, owner, failing⟩ := by
    constructor
    · simp [Machine.run, machine, step, access, firstTries, secondTries, vectorAdd, acquire, different,
        different.symm, apart, apart.symm, owner, failing, other, Function.update_comm]
    · simp [failures, Machine.observe, failsForSource, machine, step, access, firstTries, secondTries, vectorAdd,
        acquire, different, different.symm, apart, apart.symm]
  have firstFailed : failing first = ⟨.acquiring call (backOff call .readRetry), firstCalls⟩ := by
    simp [failing, different]
  have secondFailed : Function.update failing first ⟨.acquiring call (acquire .tryWait call), firstCalls⟩ second =
      ⟨.acquiring other (backOff other .readRetry), secondCalls⟩ := by
    simp [failing, different.symm]
  have fails := tried.append ((fails_backOff firstFailed).append (fails_backOff secondFailed))
  have memories : Function.update (Function.update memory .retry (memory .retry + 1)) .retry
      (Function.update memory .retry (memory .retry + 1) .retry + 1) =
        Function.update memory .retry (memory .retry + 2) := by
    rw [Function.update_idem, Function.update_self, BitVec.add_assoc]
    rfl
  have owners : Function.update (Function.update owner (.vector call.dst) none) (.vector other.dst) none =
      fun _ => none := by
    funext lock
    by_cases isSrc : lock = .vector call.src
    · simp [isSrc, other]
    by_cases isDst : lock = .vector call.dst
    · simp [isDst, other, apart]
    · simp [isSrc, isDst, other, owner]
  have threads : Function.update (Function.update failing first ⟨.acquiring call (acquire .tryWait call), firstCalls⟩)
      second ⟨.acquiring other (acquire .tryWait other), secondCalls⟩ = workers := by
    rw [← firstTries, ← secondTries]
    funext thread
    by_cases isSecond : thread = second
    · simp [isSecond]
    by_cases isFirst : thread = first
    · simp [isFirst, different]
    · simp [isSecond, isFirst, failing]
  rw [memories, owners, threads] at fails
  exact fails

/-- The two threads fail any number of times. -/
theorem fails_rounds {first second : Thread} (different : first ≠ second) {firstCalls secondCalls : List Call}
    (firstTries : workers first = ⟨.acquiring call (acquire .tryWait call), firstCalls⟩)
    (secondTries : workers second =
      ⟨.acquiring ⟨call.src, call.dst⟩ (acquire .tryWait ⟨call.src, call.dst⟩), secondCalls⟩)
    (apart : call.dst ≠ call.src) (rounds : Nat) :
    Fails ⟨memory, fun _ => none, workers⟩ (List.replicate rounds (round first second)).flatten
      (List.replicate rounds [first, second]).flatten
      ⟨Function.update memory .retry (memory .retry + BitVec.ofNat 32 (2 * rounds)), fun _ => none, workers⟩ := by
  induction rounds generalizing memory with
  | zero =>
      rw [show memory .retry + BitVec.ofNat 32 (2 * 0) = memory .retry from BitVec.add_zero _, Function.update_eq_self]
      exact ⟨rfl, rfl⟩
  | succ rounds ih =>
      have fails := (fails_round different firstTries secondTries apart).append
        (@ih (Function.update memory .retry (memory .retry + 2)))
      have sum : (2 : Value) + BitVec.ofNat 32 (2 * rounds) = BitVec.ofNat 32 (2 * (rounds + 1)) := by
        rw [Nat.mul_add_one, Nat.add_comm, BitVec.ofNat_add]
        rfl
      rw [Function.update_idem, Function.update_self, BitVec.add_assoc, sum] at fails
      rw [List.replicate_succ, List.replicate_succ, List.flatten_cons, List.flatten_cons]
      exact fails

/-- No thread fails while the threads of `main` start their first calls. -/
theorem Options.fails_started (options : Options) (crossed : options.Crossed) :
    Fails options.main (List.finRange options.numThreads) []
      ⟨vectorInit, fun _ => none, options.started .tryWait⟩ where
  ran := options.run_started crossed .tryWait
  failures := by
    refine (machine (vectorAdd .tryWait)).observe_eq_nil fun before state trace inside ran action => if_neg ?_
    -- Every lock is free in every state on the way.
    have distinct : before.Nodup := (List.nodup_finRange options.numThreads).sublist inside.sublist
    have started : (machine (vectorAdd .tryWait)).run options.main before = some (_, []) :=
      run_start distinct fun thread _ => congrArg (Worker.mk Pc.idle) (options.worker_eq crossed thread)
    obtain ⟨rfl, -⟩ := Prod.mk.inj (Option.some.inj (ran.symm.trans started))
    rw [failsForSource]
    split <;> simp

/-- The version that tries may fail any number of times under `main` without any return when two threads add in both
directions between the same vectors: the two threads fail in turn, and `retry` counts their failures. -/
theorem try_wait_livelock (options : Options) (crossed : options.Crossed) (rounds : Nat) :
    ∃ schedule state first second, first ≠ second ∧
      (machine (vectorAdd .tryWait)).run options.main schedule = some (state, []) ∧
      failures options.main schedule = (List.replicate rounds [first, second]).flatten ∧
      state.memory .retry = BitVec.ofNat 32 (failures options.main schedule).length := by
  have ⟨cause, _, two, _⟩ := crossed
  let first : Fin options.numThreads := ⟨0, by omega⟩
  let second : Fin options.numThreads := ⟨1, by omega⟩
  have different : first ≠ second := by simp [first, second]
  have firstOrder : options.vectorAddOrder first = false := by simp [Options.vectorAddOrder, first]
  have secondOrder : options.vectorAddOrder second = true := by simp [Options.vectorAddOrder, second, cause]
  let calls (swapped : Bool) := List.replicate (options.loops - 1) (sharedCall swapped)
  have firstTries : options.started .tryWait first =
      ⟨.acquiring (sharedCall false) (acquire .tryWait (sharedCall false)), calls false⟩ := by
    rw [Options.started, firstOrder]
  have secondTries : options.started .tryWait second =
      ⟨.acquiring (sharedCall true) (acquire .tryWait (sharedCall true)), calls true⟩ := by
    rw [Options.started, secondOrder]
  have fails := (options.fails_started crossed).append
    (fails_rounds different firstTries secondTries (by decide) rounds)
  refine ⟨_, _, first, second, different, fails.ran, fails.failures, ?_⟩
  have length : (failures options.main (List.finRange options.numThreads ++
      (List.replicate rounds (round first second)).flatten)).length = 2 * rounds := by
    rw [fails.failures, List.nil_append, List.length_flatten, List.map_replicate, List.sum_replicate]
    exact Nat.mul_comm rounds 2
  rw [length]
  simp [Options.vectorInit]

/-- Two threads can retry three times each. -/
theorem try_wait_livelock_crossed :
    ∃ schedule state first second, first ≠ second ∧
      (machine (vectorAdd .tryWait)).run twoCrossed.main schedule = some (state, []) ∧
      failures twoCrossed.main schedule = [first, second, first, second, first, second] ∧
      state.memory .retry = 6 := by
  obtain ⟨schedule, state, first, second, different, ran, failed, counted⟩ :=
    try_wait_livelock twoCrossed ⟨rfl, rfl, by decide, by decide⟩ 3
  refine ⟨schedule, state, first, second, different, ran, failed, ?_⟩
  rw [counted, failed]
  rfl

end Livelock

end Ostep.VectorAdd
