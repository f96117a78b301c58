import Ostep.Library.Count
import Ostep.Library.Linear
import Ostep.Library.Locking

namespace Ostep.Library.RwLock

open Linear
open Locking (Next)

inductive Mode where
  | read
  | write
  deriving Repr, DecidableEq

/-- A call is refused with a result, or it takes the lock in one of its modes and makes its accesses. -/
structure Program (Call Act Memory Result : Type) where
  start : Call → Except Result (Mode × Act)
  perform : Act → Memory → Memory × Next Act Result

inductive Pc (Call Act Result : Type) where
  | idle
  | waiting (call : Call) (mode : Mode) (act : Act)
  | inside (call : Call) (mode : Mode) (act : Act)
  | leaving (call : Call) (mode : Mode) (result : Result)
  | returning (call : Call) (result : Result)

/-- A thread makes its calls in order. -/
structure Worker (Call Act Result : Type) where
  pc : Pc Call Act Result
  calls : List Call

/-- The lock has a writer or a number of readers. -/
structure State (Thread Call Act Memory Result : Type) where
  memory : Memory
  writer : Option Thread
  readers : Nat
  workers : Thread → Worker Call Act Result

/-- The memory, the lock, the thread and the events after one step. -/
structure Effect (Thread Call Act Memory Result : Type) where
  memory : Memory
  writer : Option Thread
  readers : Nat
  worker : Worker Call Act Result
  events : List (Event Thread Call Result)

section Semantics

variable {Thread Call Act Memory Result : Type} (program : Program Call Act Memory Result)

/-- One step of one thread. Readers wait for the writer, and a writer waits for all others. -/
def access (memory : Memory) (writer : Option Thread) (readers : Nat) (thread : Thread) :
    Worker Call Act Result → Option (Effect Thread Call Act Memory Result)
  | ⟨.idle, []⟩ => none
  | ⟨.idle, call :: calls⟩ =>
      match program.start call with
      | .error result => some ⟨memory, writer, readers, ⟨.returning call result, calls⟩, [.start thread call]⟩
      | .ok (mode, act) => some ⟨memory, writer, readers, ⟨.waiting call mode act, calls⟩, [.start thread call]⟩
  | ⟨.waiting call .read act, calls⟩ =>
      if writer.isNone then some ⟨memory, writer, readers + 1, ⟨.inside call .read act, calls⟩, []⟩ else none
  | ⟨.waiting call .write act, calls⟩ =>
      if writer.isNone ∧ readers = 0 then some ⟨memory, some thread, readers, ⟨.inside call .write act, calls⟩, []⟩
      else none
  | ⟨.inside call mode act, calls⟩ =>
      match program.perform act memory with
      | (memory, .more next) => some ⟨memory, writer, readers, ⟨.inside call mode next, calls⟩, []⟩
      | (memory, .done result) => some ⟨memory, writer, readers, ⟨.leaving call mode result, calls⟩, []⟩
  | ⟨.leaving call .read result, calls⟩ => some ⟨memory, writer, readers - 1, ⟨.returning call result, calls⟩, []⟩
  | ⟨.leaving call .write result, calls⟩ => some ⟨memory, none, readers, ⟨.returning call result, calls⟩, []⟩
  | ⟨.returning call result, calls⟩ => some ⟨memory, writer, readers, ⟨.idle, calls⟩, [.ret thread call result]⟩

variable [DecidableEq Thread]

def step (state : State Thread Call Act Memory Result) (thread : Thread) :
    Option (State Thread Call Act Memory Result × List (Event Thread Call Result)) :=
  (access program state.memory state.writer state.readers thread (state.workers thread)).map fun effect =>
    (⟨effect.memory, effect.writer, effect.readers, Function.update state.workers thread effect.worker⟩, effect.events)

/-- A schedule names the thread that makes the next step. -/
def machine : Machine (State Thread Call Act Memory Result) Thread (Event Thread Call Result) := ⟨step program⟩

/-- The lock starts free and every thread starts before its first call. -/
def initial (memory : Memory) (calls : Thread → List Call) : State Thread Call Act Memory Result where
  memory := memory
  writer := none
  readers := 0
  workers := fun thread => ⟨.idle, calls thread⟩

/-- All calls of the thread have returned. -/
def Worker.Finished (worker : Worker Call Act Result) : Prop := worker.pc = .idle ∧ worker.calls = []

end Semantics

section Moves

variable {Thread Call Act Memory Result : Type}

/-- The steps that a thread can make, with the memory, the lock and the events they leave. -/
inductive Move (program : Program Call Act Memory Result) (memory : Memory) (writer : Option Thread) (readers : Nat)
    (thread : Thread) : Worker Call Act Result → Effect Thread Call Act Memory Result → Prop where
  | refuse {call : Call} {result : Result} {calls : List Call} (refused : program.start call = .error result) :
      Move program memory writer readers thread ⟨.idle, call :: calls⟩
        ⟨memory, writer, readers, ⟨.returning call result, calls⟩, [.start thread call]⟩
  | start {call : Call} {mode : Mode} {act : Act} {calls : List Call} (started : program.start call = .ok (mode, act)) :
      Move program memory writer readers thread ⟨.idle, call :: calls⟩
        ⟨memory, writer, readers, ⟨.waiting call mode act, calls⟩, [.start thread call]⟩
  | rdlock {call : Call} {act : Act} {calls : List Call} (free : writer = none) :
      Move program memory writer readers thread ⟨.waiting call .read act, calls⟩
        ⟨memory, writer, readers + 1, ⟨.inside call .read act, calls⟩, []⟩
  | wrlock {call : Call} {act : Act} {calls : List Call} (free : writer = none) (none : readers = 0) :
      Move program memory writer readers thread ⟨.waiting call .write act, calls⟩
        ⟨memory, some thread, readers, ⟨.inside call .write act, calls⟩, []⟩
  | act {call : Call} {mode : Mode} {act next : Act} {after : Memory} {calls : List Call}
      (performed : program.perform act memory = (after, .more next)) :
      Move program memory writer readers thread ⟨.inside call mode act, calls⟩
        ⟨after, writer, readers, ⟨.inside call mode next, calls⟩, []⟩
  | commit {call : Call} {mode : Mode} {act : Act} {after : Memory} {result : Result} {calls : List Call}
      (performed : program.perform act memory = (after, .done result)) :
      Move program memory writer readers thread ⟨.inside call mode act, calls⟩
        ⟨after, writer, readers, ⟨.leaving call mode result, calls⟩, []⟩
  | rdunlock {call : Call} {result : Result} {calls : List Call} :
      Move program memory writer readers thread ⟨.leaving call .read result, calls⟩
        ⟨memory, writer, readers - 1, ⟨.returning call result, calls⟩, []⟩
  | wrunlock {call : Call} {result : Result} {calls : List Call} :
      Move program memory writer readers thread ⟨.leaving call .write result, calls⟩
        ⟨memory, none, readers, ⟨.returning call result, calls⟩, []⟩
  | ret {call : Call} {result : Result} {calls : List Call} :
      Move program memory writer readers thread ⟨.returning call result, calls⟩
        ⟨memory, writer, readers, ⟨.idle, calls⟩, [.ret thread call result]⟩

variable {program : Program Call Act Memory Result} {memory : Memory} {writer : Option Thread} {readers : Nat}
  {thread : Thread}

/-- Every step is one of the moves. -/
theorem access_move {worker : Worker Call Act Result} {effect : Effect Thread Call Act Memory Result}
    (accessed : access program memory writer readers thread worker = some effect) :
    Move program memory writer readers thread worker effect := by
  rcases worker with ⟨pc, calls⟩
  cases pc with
  | idle =>
      cases calls with
      | nil => cases accessed
      | cons call calls =>
          rw [access] at accessed
          split at accessed
          next result refused =>
            cases accessed
            exact .refuse refused
          next mode act started =>
            cases accessed
            exact .start started
  | waiting call mode act =>
      cases mode with
      | read =>
          simp only [access, Option.ite_none_right_eq_some, Option.isNone_iff_eq_none] at accessed
          obtain ⟨free, same⟩ := accessed
          cases same
          exact .rdlock free
      | write =>
          simp only [access, Option.ite_none_right_eq_some, Option.isNone_iff_eq_none] at accessed
          obtain ⟨⟨free, none⟩, same⟩ := accessed
          cases same
          exact .wrlock free none
  | inside call mode act =>
      rw [access] at accessed
      split at accessed
      next after next performed =>
        cases accessed
        exact .act performed
      next after result performed =>
        cases accessed
        exact .commit performed
  | leaving call mode result =>
      cases mode with
      | read =>
          cases accessed
          exact .rdunlock
      | write =>
          cases accessed
          exact .wrunlock
  | returning call result =>
      cases accessed
      exact .ret

theorem step_move [DecidableEq Thread] {state next : State Thread Call Act Memory Result}
    {events : List (Event Thread Call Result)} (stepped : step program state thread = some (next, events)) :
    ∃ effect, Move program state.memory state.writer state.readers thread (state.workers thread) effect ∧
      next = ⟨effect.memory, effect.writer, effect.readers, Function.update state.workers thread effect.worker⟩ ∧
      events = effect.events := by
  obtain ⟨effect, accessed, same⟩ := Option.map_eq_some_iff.mp stepped
  obtain ⟨rfl, rfl⟩ := Prod.mk.inj same
  exact ⟨effect, access_move accessed, rfl, rfl⟩

end Moves

section Exclusion

variable {Thread Call Act Memory Result : Type} [DecidableEq Thread] [Fintype Thread]

/-- The share of a thread in the number of readers. -/
def Pc.reads : Pc Call Act Result → Nat
  | .inside _ .read _ | .leaving _ .read _ => 1
  | _ => 0

/-- The thread has the lock for itself. -/
def Pc.Writes : Pc Call Act Result → Prop
  | .inside _ .write _ | .leaving _ .write _ => True
  | _ => False

/-- The lock counts the threads that read and knows the thread that writes, never both. -/
structure Held (state : State Thread Call Act Memory Result) : Prop where
  counted : state.readers = Count.total (fun worker => worker.pc.reads) state.workers
  owned : ∀ thread, state.writer = some thread ↔ (state.workers thread).pc.Writes
  exclusive : state.writer ≠ none → state.readers = 0

omit [DecidableEq Thread] in
theorem initial_held (memory : Memory) (calls : Thread → List Call) :
    Held (initial memory calls : State Thread Call Act Memory Result) where
  counted := (Count.total_eq_zero fun _ => rfl).symm
  owned _ := ⟨nofun, False.elim⟩
  exclusive held := absurd rfl held

variable {program : Program Call Act Memory Result} {state : State Thread Call Act Memory Result} {thread : Thread}

omit [DecidableEq Thread] in
theorem Held.reads_le (held : Held state) (thread : Thread) : (state.workers thread).pc.reads ≤ state.readers := by
  rw [held.counted]
  exact Count.le_total (fun worker : Worker Call Act Result => worker.pc.reads) state.workers thread

omit [DecidableEq Thread] in
/-- Nobody writes while a thread reads. -/
theorem Held.writer_eq_none (held : Held state) (reads : (state.workers thread).pc.reads = 1) :
    state.writer = none := by
  by_contra writing
  have none := held.exclusive writing
  have one := held.reads_le thread
  omega

omit [DecidableEq Thread] in
/-- Nobody else holds the lock while a thread writes. -/
theorem Held.alone (held : Held state) (writes : (state.workers thread).pc.Writes) {other : Thread}
    (different : other ≠ thread) :
    (state.workers other).pc.reads = 0 ∧ ¬(state.workers other).pc.Writes := by
  have owner := (held.owned thread).mpr writes
  have none := held.exclusive (by rw [owner]; nofun)
  have one := held.reads_le other
  refine ⟨by omega, fun also => different ?_⟩
  exact Option.some.inj (((held.owned other).mpr also).symm.trans owner)

theorem Held.update (held : Held state) {memory : Memory} {writer : Option Thread} {readers : Nat}
    {worker : Worker Call Act Result}
    (counts : readers + (state.workers thread).pc.reads = state.readers + worker.pc.reads)
    (owns : writer = some thread ↔ worker.pc.Writes)
    (others : ∀ other, other ≠ thread → (writer = some other ↔ state.writer = some other))
    (exclusive : writer ≠ none → readers = 0) :
    Held ⟨memory, writer, readers, Function.update state.workers thread worker⟩ where
  counted := by
    have exchanged := Count.total_update (fun worker : Worker Call Act Result => worker.pc.reads) state.workers thread
      worker
    have before := held.counted
    simp only at exchanged ⊢
    omega
  owned other := by
    by_cases same : other = thread
    · subst same
      simpa using owns
    · simpa [same] using (others other same).trans (held.owned other)
  exclusive := exclusive

theorem Held.move (held : Held state) {effect : Effect Thread Call Act Memory Result}
    (move : Move program state.memory state.writer state.readers thread (state.workers thread) effect) :
    Held ⟨effect.memory, effect.writer, effect.readers, Function.update state.workers thread effect.worker⟩ := by
  have owned := held.owned thread
  have reads := held.reads_le thread
  generalize current : state.workers thread = worker at move owned reads
  cases move with
  | refuse | start | ret =>
      exact held.update (by rw [current]; rfl) owned (fun _ _ => Iff.rfl) held.exclusive
  | rdlock free =>
      exact held.update (by rw [current]; rfl) owned (fun _ _ => Iff.rfl) (fun writing => absurd free writing)
  | wrlock free none =>
      refine held.update (by rw [current]; rfl) ⟨fun _ => trivial, fun _ => rfl⟩ (fun other different => ?_)
        fun _ => none
      simp [free, different.symm]
  | @act call mode | @commit call mode =>
      cases mode <;> exact held.update (by rw [current]; rfl) owned (fun _ _ => Iff.rfl) held.exclusive
  | rdunlock =>
      refine held.update ?_ owned (fun _ _ => Iff.rfl) fun writing => ?_
      · rw [current]
        exact Nat.sub_add_cancel reads
      · rw [held.exclusive writing]
  | wrunlock =>
      have owner := owned.mpr trivial
      refine held.update (by rw [current]; rfl) ⟨nofun, False.elim⟩ (fun other different => ?_) nofun
      simp [owner, different.symm]

omit [Fintype Thread] in
/-- An unfinished thread takes a step unless the lock is held. -/
theorem enabled_of_free (unfinished : ¬(state.workers thread).Finished) (free : state.writer = none)
    (none : state.readers = 0) : (machine program).Enabled state thread := by
  simp only [Machine.Enabled, machine, step, Option.isSome_map]
  generalize state.workers thread = worker at unfinished
  rcases worker with
    ⟨_ | ⟨call, _ | _, act⟩ | ⟨call, mode, act⟩ | ⟨call, _ | _, result⟩ | ⟨call, result⟩, _ | ⟨first, calls⟩⟩
  case idle.nil => exact absurd ⟨rfl, rfl⟩ unfinished
  case idle.cons => rw [access]; split <;> rfl
  case inside.nil | inside.cons => rw [access]; split <;> rfl
  all_goals simp [access, free, none]

omit [Fintype Thread] in
/-- A thread that holds the lock takes a step. -/
theorem enabled_of_holds (holds : (state.workers thread).pc.reads ≠ 0 ∨ (state.workers thread).pc.Writes) :
    (machine program).Enabled state thread := by
  simp only [Machine.Enabled, machine, step, Option.isSome_map]
  generalize state.workers thread = worker at holds
  rcases worker with ⟨_ | ⟨call, _ | _, act⟩ | ⟨call, mode, act⟩ | ⟨call, _ | _, result⟩ | ⟨call, result⟩, calls⟩
  case inside => rw [access]; split <;> rfl
  case leaving.read | leaving.write => rfl
  all_goals simp [Pc.reads, Pc.Writes] at holds

/-- Threads that can no longer move have finished. -/
theorem Held.finished_of_stopped (held : Held state) (stopped : ∀ thread, ¬(machine program).Enabled state thread)
    (thread : Thread) : (state.workers thread).Finished := by
  by_contra unfinished
  cases owner : state.writer with
  | some other => exact stopped other (enabled_of_holds (Or.inr ((held.owned other).mp owner)))
  | none =>
      by_cases none : state.readers = 0
      · exact stopped thread (enabled_of_free unfinished owner none)
      · obtain ⟨other, reads⟩ := Count.exists_of_total_pos (Nat.pos_of_ne_zero (held.counted ▸ none))
        exact stopped other (enabled_of_holds (Or.inl reads.ne'))

end Exclusion

section Alone

variable {Call Act Memory Result : Type}

/-- The accesses of a call alone, from one memory to another. -/
inductive Program.Ends (program : Program Call Act Memory Result) : Act → Memory → Result × Memory → Prop where
  | done {act : Act} {memory after : Memory} {result : Result}
      (performed : program.perform act memory = (after, .done result)) : program.Ends act memory (result, after)
  | more {act next : Act} {memory after : Memory} {outcome : Result × Memory}
      (performed : program.perform act memory = (after, .more next)) (rest : program.Ends next after outcome) :
      program.Ends act memory outcome

variable {program : Program Call Act Memory Result} {act next : Act} {memory after : Memory} {result : Result}
  {outcome : Result × Memory}

theorem Program.Ends.goes (ends : program.Ends act memory outcome)
    (performed : program.perform act memory = (after, .more next)) : program.Ends next after outcome := by
  cases ends with
  | done last => cases last.symm.trans performed
  | more first rest =>
      cases first.symm.trans performed
      exact rest

theorem Program.Ends.outcome_eq (ends : program.Ends act memory outcome)
    (performed : program.perform act memory = (after, .done result)) : outcome = (result, after) := by
  cases ends with
  | done last =>
      cases last.symm.trans performed
      rfl
  | more first rest => cases first.symm.trans performed

end Alone

section Linearisation

variable {Thread Call Act Memory Result : Type}

/-- Each accepted call alone has its meaning, and a reader changes nothing. -/
structure Refines (program : Program Call Act Memory Result) (apply : Call → Memory → Result × Memory)
    (quiet : Act → Prop) : Prop where
  refused : ∀ call result memory, program.start call = .error result → apply call memory = (result, memory)
  ends : ∀ call mode act memory, program.start call = .ok (mode, act) → program.Ends act memory (apply call memory)
  reads : ∀ call act, program.start call = .ok (.read, act) → quiet act
  goes : ∀ act memory after next, quiet act → program.perform act memory = (after, next) →
    after = memory ∧ ∀ act, next = .more act → quiet act

/-- How far the current call is for the threads that use the lock. -/
def Pc.phase : Pc Call Act Result → Phase Call Result
  | .idle => .idle
  | .waiting call _ _ | .inside call _ _ => .called call
  | .leaving call _ result | .returning call result => .committed call result

/-- The memory is in the middle of a change. -/
def Pc.Changes : Pc Call Act Result → Prop
  | .inside _ .write _ => True
  | _ => False

/-- What a thread has done inside the lock. -/
def Pc.Sees (program : Program Call Act Memory Result) (apply : Call → Memory → Result × Memory) (quiet : Act → Prop)
    (memory logical : Memory) : Pc Call Act Result → Prop
  | .waiting call mode act => program.start call = .ok (mode, act)
  | .inside call mode act => program.Ends act memory (apply call logical) ∧ (mode = .read → quiet act)
  | _ => True

variable [DecidableEq Thread] [Fintype Thread]

/-- The history so far is linearisable, and the memory is what the calls have left unless a writer is at work. -/
structure Linear (program : Program Call Act Memory Result) (apply : Call → Memory → Result × Memory)
    (quiet : Act → Prop) (memory : Memory) (calls : Thread → List Call)
    (trace : List (Event Thread Call Result)) (state : State Thread Call Act Memory Result)
    (points : List (Point Thread Call Result)) (logical : Memory) : Prop where
  held : Held state
  linear : Linearised apply memory trace points logical
  stories : ∀ thread, Story thread points (state.workers thread).pc.phase
  sees : ∀ thread, (state.workers thread).pc.Sees program apply quiet state.memory logical
  settled : (∀ thread, ¬(state.workers thread).pc.Changes) → state.memory = logical
  calls_eq : ∀ thread, started thread trace ++ (state.workers thread).calls = calls thread

variable {program : Program Call Act Memory Result} {apply : Call → Memory → Result × Memory}
  {quiet : Act → Prop} {memory logical : Memory} {calls : Thread → List Call}
  {trace : List (Event Thread Call Result)} {state : State Thread Call Act Memory Result}
  {points : List (Point Thread Call Result)} {thread : Thread}

theorem initial_linear (program : Program Call Act Memory Result) (apply : Call → Memory → Result × Memory)
    (quiet : Act → Prop) (memory : Memory) (calls : Thread → List Call) :
    Linear program apply quiet memory calls [] (initial memory calls) [] memory where
  held := initial_held memory calls
  linear := linearised_nil apply memory
  stories _ := .nil
  sees _ := trivial
  settled _ := rfl
  calls_eq _ := rfl

/-- Without a writer the memory is what the calls have left. -/
theorem Linear.memory_eq (linear : Linear program apply quiet memory calls trace state points logical)
    (free : state.writer = none) : state.memory = logical := by
  refine linear.settled fun thread changes => ?_
  have writes : (state.workers thread).pc.Writes := by
    generalize (state.workers thread).pc = pc at changes
    rcases pc with _ | _ | ⟨call, _ | _, act⟩ | _ | _
    all_goals first | exact changes.elim | trivial
  have owner := (linear.held.owned thread).mpr writes
  rw [free] at owner
  cases owner

/-- What a thread has seen depends on the memory only inside the lock. -/
theorem Pc.Sees.congr {pc : Pc Call Act Result} {memory' logical' : Memory}
    (sees : pc.Sees program apply quiet memory logical)
    (outside : pc.reads = 0 ∧ ¬pc.Writes) : pc.Sees program apply quiet memory' logical' := by
  rcases pc with _ | _ | ⟨call, _ | _, act⟩ | _ | _
  case inside.read => exact absurd outside.1 Nat.one_ne_zero
  case inside.write => exact absurd trivial outside.2
  all_goals exact sees

omit [Fintype Thread] in
/-- A thread takes its calls from its program. -/
theorem Move.calls_eq {writer : Option Thread} {readers : Nat} {worker : Worker Call Act Result}
    {effect : Effect Thread Call Act Memory Result} (move : Move program memory writer readers thread worker effect) :
    started thread effect.events ++ effect.worker.calls = worker.calls := by
  cases move with
  | refuse | start => simp [started]
  | _ => rfl

omit [Fintype Thread] in
theorem Move.started_other {writer : Option Thread} {readers : Nat} {worker : Worker Call Act Result}
    {effect : Effect Thread Call Act Memory Result} (move : Move program memory writer readers thread worker effect)
    {other : Thread} (different : other ≠ thread) : started other effect.events = [] := by
  cases move with
  | refuse | start => simp [started, different.symm]
  | _ => rfl

theorem Linear.update (linear : Linear program apply quiet memory calls trace state points logical)
    {effect : Effect Thread Call Act Memory Result}
    (move : Move program state.memory state.writer state.readers thread (state.workers thread) effect)
    (later : List (Point Thread Call Result)) (logical' : Memory) (moves : ∀ point ∈ later, point.thread = thread)
    (linear' : Linearised apply memory (trace ++ effect.events) (points ++ later) logical')
    (story : Story thread (points ++ later) effect.worker.pc.phase)
    (sees : effect.worker.pc.Sees program apply quiet effect.memory logical')
    (others : ∀ other, other ≠ thread → (state.workers other).pc.Sees program apply quiet effect.memory logical')
    (settled : ¬effect.worker.pc.Changes → (∀ other, other ≠ thread → ¬(state.workers other).pc.Changes) →
      effect.memory = logical') :
    Linear program apply quiet memory calls (trace ++ effect.events)
      ⟨effect.memory, effect.writer, effect.readers, Function.update state.workers thread effect.worker⟩
      (points ++ later) logical' where
  held := linear.held.move move
  linear := linear'
  stories := (Function.forall_update_iff state.workers
    fun other worker => Story other (points ++ later) worker.pc.phase).mpr
    ⟨story, fun other different => (linear.stories other).others different moves⟩
  sees := (Function.forall_update_iff state.workers
    fun _ worker => worker.pc.Sees program apply quiet effect.memory logical').mpr ⟨sees, others⟩
  settled quiet := by
    obtain ⟨own, rest⟩ := (Function.forall_update_iff state.workers fun _ worker => ¬worker.pc.Changes).mp quiet
    exact settled own rest
  calls_eq other := by
    have before := linear.calls_eq other
    rw [started, List.filterMap_append, ← started, ← started]
    by_cases same : other = thread
    · subst same
      simp only [Function.update_self, List.append_assoc, move.calls_eq, before]
    · simp only [Function.update_of_ne same, move.started_other same, List.append_nil, before]

theorem Linear.move (refines : Refines program apply quiet)
    (linear : Linear program apply quiet memory calls trace state points logical)
    {effect : Effect Thread Call Act Memory Result}
    (move : Move program state.memory state.writer state.readers thread (state.workers thread) effect) :
    ∃ points' logical', Linear program apply quiet memory calls (trace ++ effect.events)
      ⟨effect.memory, effect.writer, effect.readers, Function.update state.workers thread effect.worker⟩
      points' logical' := by
  have story := linear.stories thread
  have sees := linear.sees thread
  have updated := linear.update move
  have settled (quiet : ¬(state.workers thread).pc.Changes)
      (rest : ∀ other, other ≠ thread → ¬(state.workers other).pc.Changes) : state.memory = logical := by
    refine linear.settled fun other => ?_
    by_cases same : other = thread
    · exact same ▸ quiet
    · exact rest other same
  have reader (reads : (state.workers thread).pc.reads = 1) : state.memory = logical :=
    linear.memory_eq (linear.held.writer_eq_none reads)
  have alone (writes : (state.workers thread).pc.Writes) (other : Thread) (different : other ≠ thread)
      (memory' logical' : Memory) : (state.workers other).pc.Sees program apply quiet memory' logical' :=
    (linear.sees other).congr (linear.held.alone writes different)
  generalize state.workers thread = worker at move story sees settled reader alone
  cases move with
  | @refuse call result calls refused =>
      have begun : Linearised apply memory (trace ++ [.start thread call]) (points ++ [.start thread call]) logical :=
        linear.linear.event rfl rfl
      have committed := begun.commit thread (refines.refused call result logical refused)
      rw [List.append_assoc] at committed
      refine ⟨_, _, updated [.start thread call, .commit thread call result] logical (by simp [Point.thread]) committed
        ?_ trivial (fun other _ => linear.sees other) fun _ => settled id⟩
      rw [List.append_cons]
      exact .commit (.start story)
  | @start call mode act calls started =>
      exact ⟨_, _, updated [.start thread call] logical (by simp [Point.thread]) (linear.linear.event rfl rfl)
        (.start story) started (fun other _ => linear.sees other) fun _ => settled id⟩
  | @rdlock call act calls free =>
      have same := linear.memory_eq free
      refine ⟨_, _, updated [] logical nofun ?_ ?_ ?_ (fun other _ => linear.sees other) fun _ _ => same⟩
      · simpa using linear.linear
      · simpa [Pc.phase] using story
      · rw [same]
        exact ⟨refines.ends call .read act logical sees, fun _ => refines.reads call act sees⟩
  | @wrlock call act calls free none =>
      have same := linear.memory_eq free
      refine ⟨_, _, updated [] logical nofun ?_ ?_ ?_ (fun other _ => linear.sees other) fun _ _ => same⟩
      · simpa using linear.linear
      · simpa [Pc.phase] using story
      · rw [same]
        exact ⟨refines.ends call .write act logical sees, nofun⟩
  | @act call mode act next after calls performed =>
      have rest := sees.1.goes performed
      cases mode with
      | read =>
          obtain ⟨same, still⟩ := refines.goes act state.memory after _ (sees.2 rfl) performed
          refine ⟨_, _, updated [] logical nofun ?_ ?_ ⟨rest, fun _ => still next rfl⟩ (fun other _ => ?_) fun _ => ?_⟩
          · simpa using linear.linear
          · simpa [Pc.phase] using story
          · rw [same]
            exact linear.sees other
          · rw [same]
            exact settled id
      | write =>
          refine ⟨_, _, updated [] logical nofun ?_ ?_ ⟨rest, nofun⟩
            (fun other different => alone trivial other different _ _)
            fun quiet => absurd trivial quiet⟩
          · simpa using linear.linear
          · simpa [Pc.phase] using story
  | @commit call mode act after result calls performed =>
      have committed := linear.linear.commit thread (sees.1.outcome_eq performed)
      refine ⟨_, _, updated [.commit thread call result] after (by simp [Point.thread]) ?_ (.commit story) trivial
        (fun other different => ?_) fun _ _ => rfl⟩
      · simpa using committed
      cases mode with
      | read =>
          obtain ⟨same, -⟩ := refines.goes act state.memory after _ (sees.2 rfl) performed
          have seen := linear.sees other
          rw [reader rfl] at seen same
          rw [same]
          exact seen
      | write => exact alone trivial other different _ _
  | rdunlock | wrunlock =>
      refine ⟨_, _, updated [] logical nofun ?_ ?_ trivial (fun other _ => linear.sees other) fun _ => settled id⟩
      · simpa using linear.linear
      · simpa [Pc.phase] using story
  | @ret call result calls =>
      exact ⟨_, _, updated [.ret thread call result] logical (by simp [Point.thread]) (linear.linear.event rfl rfl)
        (.ret story) trivial (fun other _ => linear.sees other) fun _ => settled id⟩

/-- Every run is linearisable. -/
theorem run_linear (refines : Refines program apply quiet) {schedule : List Thread}
    (ran : (machine program).run (initial memory calls) schedule = some (state, trace)) :
    ∃ points logical, Linear program apply quiet memory calls trace state points logical := by
  refine (machine program).run_invariant
    (fun past state => ∃ points logical, Linear program apply quiet memory calls past state points logical)
    (fun past state mover next events holds stepped => ?_) ⟨_, _, initial_linear program apply quiet memory calls⟩ ran
  obtain ⟨points, logical, linear⟩ := holds
  obtain ⟨effect, move, rfl, rfl⟩ := step_move stepped
  exact linear.move refines move

end Linearisation

end Ostep.Library.RwLock
