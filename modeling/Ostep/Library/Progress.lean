import Mathlib.Algebra.BigOperators.Ring.Finset
import Ostep.Library.Count
import Ostep.Library.Locking

namespace Ostep.Library.Locking

variable {Thread Call Lock Act Loc Value Result : Type} [DecidableEq Lock] [DecidableEq Thread]
  {program : Program Call Lock Act Loc Value Result} {state : State Thread Call Lock Act Loc Value Result}
  {thread : Thread}

/-- The mutex that a thread waits for. -/
def Pc.wants : Pc Call Lock Act Result → Option Lock
  | .acquiring _ (.lock lock :: _) => some lock
  | _ => none

/-- An unfinished thread takes a step unless it waits for an owned mutex. -/
theorem enabled_of_unblocked (unfinished : ¬(state.workers thread).Finished)
    (unblocked : ∀ lock, (state.workers thread).pc.wants = some lock → state.owner lock = none) :
    (machine program).Enabled state thread := by
  simp only [Machine.Enabled, machine, step, Option.isSome_map]
  generalize state.workers thread = worker at unfinished unblocked
  rcases worker with ⟨pc, calls⟩
  cases pc with
  | idle =>
      cases calls with
      | nil => exact absurd ⟨rfl, rfl⟩ unfinished
      | cons call calls => rfl
  | acquiring call rest =>
      rcases rest with _ | ⟨instr, rest⟩
      · rfl
      cases instr with
      | lock lock =>
          rw [access, if_pos (unblocked lock rfl)]
          rfl
      | tryLock lock otherwise =>
          rw [access]
          split <;> rfl
      | touch act =>
          rw [access]
          split <;> rfl
      | _ => rfl
  | inside call act =>
      rw [access]
      split <;> rfl
  | releasing call rest result => cases rest <;> rfl

/-- A blocked thread waits for an owned mutex. -/
theorem exists_owner_of_blocked (unfinished : ¬(state.workers thread).Finished)
    (blocked : ¬(machine program).Enabled state thread) :
    ∃ lock other, (state.workers thread).pc.wants = some lock ∧ state.owner lock = some other := by
  by_contra none
  refine blocked (enabled_of_unblocked unfinished fun lock waits => ?_)
  cases owner : state.owner lock with
  | none => rfl
  | some other => exact absurd ⟨lock, other, waits, owner⟩ none

/-- A thread that waits for an owned mutex takes no step. -/
theorem blocked_of_owner {lock : Lock} {other : Thread} (waits : (state.workers thread).pc.wants = some lock)
    (owner : state.owner lock = some other) : ¬(machine program).Enabled state thread := by
  simp only [Machine.Enabled, machine, step, Option.isSome_map]
  generalize state.workers thread = worker at waits
  rcases worker with ⟨_ | ⟨call, _ | ⟨_ | _, rest⟩⟩ | _ | _, calls⟩
  all_goals cases waits
  rw [access, if_neg (by simp [owner])]
  simp

/-- A thread takes a free lock. -/
theorem step_lock {memory : Loc → Value} {owner : Lock → Option Thread} {workers : Thread → Worker Call Lock Act Result}
    {call : Call} {lock : Lock} {rest : List (Instr Lock Act)} {calls : List Call}
    (waits : workers thread = ⟨.acquiring call (.lock lock :: rest), calls⟩) (free : owner lock = none) :
    (machine program).step ⟨memory, owner, workers⟩ thread =
      some (⟨memory, Function.update owner lock (some thread),
        Function.update workers thread ⟨.acquiring call rest, calls⟩⟩, []) := by
  simp only [machine, step, waits, access, if_pos free, Option.map_some]

/-- The threads of a list start their first calls, one after the other. -/
theorem run_start {memory : Loc → Value} {owner : Lock → Option Thread} {first : Thread → Call}
    {rest : Thread → List Call} {threads : List Thread} (distinct : threads.Nodup)
    {workers : Thread → Worker Call Lock Act Result}
    (idle : ∀ thread ∈ threads, workers thread = ⟨.idle, first thread :: rest thread⟩) :
    (machine program).run ⟨memory, owner, workers⟩ threads =
      some (⟨memory, owner, fun thread =>
        if thread ∈ threads then ⟨.acquiring (first thread) (program.acquire (first thread)), rest thread⟩
        else workers thread⟩, []) := by
  induction threads generalizing workers with
  | nil => simp
  | cons thread threads ih =>
      obtain ⟨once, distinct⟩ := List.nodup_cons.mp distinct
      have others : ∀ other ∈ threads, Function.update workers thread
          ⟨.acquiring (first thread) (program.acquire (first thread)), rest thread⟩ other =
            ⟨.idle, first other :: rest other⟩ := by
        intro other member
        have different : other ≠ thread := fun same => once (same ▸ member)
        rw [Function.update_of_ne different]
        exact idle other (List.mem_cons_of_mem _ member)
      rw [Machine.run_cons_eq_some]
      refine ⟨⟨memory, owner, _⟩, [], [], ?_, (ih distinct others).trans ?_, rfl⟩
      · simp only [machine, step, idle thread List.mem_cons_self, access, Option.map_some]
      · congr
        funext other
        by_cases same : other = thread
        · simp [same, once]
        · simp [same]

/-- A thread waits only for locks of a higher rank than the locks it holds. -/
inductive Ordered (rank : Lock → Nat) (base : List Lock) : List (Instr Lock Act) → Prop where
  | nil : Ordered rank base []
  | lock {lock : Lock} {rest : List (Instr Lock Act)}
      (above : ∀ held ∈ (owes base rest).erase lock, rank held < rank lock) (later : Ordered rank base rest) :
      Ordered rank base (.lock lock :: rest)
  | unlock {lock : Lock} {rest : List (Instr Lock Act)} (later : Ordered rank base rest) :
      Ordered rank base (.unlock lock :: rest)
  | tryLock {lock : Lock} {otherwise rest : List (Instr Lock Act)} (later : Ordered rank base rest)
      (retreat : Ordered rank base otherwise) : Ordered rank base (.tryLock lock otherwise :: rest)
  | touch {act : Act} {rest : List (Instr Lock Act)} (later : Ordered rank base rest) :
      Ordered rank base (.touch act :: rest)
  | again {rest : List (Instr Lock Act)} : Ordered rank base (.again :: rest)

/-- What the instructions of every admitted call satisfy holds of the remaining instructions of every thread. -/
def Worker.Follows (admitted : Call → Prop) (holds : Call → List (Instr Lock Act) → Prop)
    (worker : Worker Call Lock Act Result) : Prop :=
  (∀ call ∈ worker.pending, admitted call) ∧ ∀ call rest, worker.pc = .acquiring call rest → holds call rest

/-- A property of instructions that every step forward keeps. -/
structure Inherited (program : Program Call Lock Act Loc Value Result) (admitted : Call → Prop)
    (holds : Call → List (Instr Lock Act) → Prop) : Prop where
  start : ∀ call, admitted call → holds call (program.acquire call)
  next : ∀ call instr rest, instr ≠ .again → holds call (instr :: rest) → holds call rest
  retreat : ∀ call lock otherwise rest, holds call (.tryLock lock otherwise :: rest) → holds call otherwise
  touch : ∀ call act next rest, holds call (.touch act :: rest) → holds call (.touch next :: rest)

variable {admitted : Call → Prop} {holds : Call → List (Instr Lock Act) → Prop}

omit [DecidableEq Thread] in
theorem Worker.Follows.move (inherited : Inherited program admitted holds) {owner : Lock → Option Thread}
    {memory : Loc → Value} {worker : Worker Call Lock Act Result}
    {effect : Effect Thread Call Lock Act Loc Value Result} (follows : worker.Follows admitted holds)
    (move : Move program owner memory thread worker effect) : effect.worker.Follows admitted holds := by
  obtain ⟨among, code⟩ := follows
  refine ⟨fun call member => among call (move.mem_pending member), fun other rest same => ?_⟩
  cases move with
  | start =>
      cases same
      exact inherited.start _ (among _ List.mem_cons_self)
  | failed taken =>
      cases same
      exact inherited.retreat _ _ _ _ (code _ _ rfl)
  | touch performed =>
      cases same
      exact inherited.touch _ _ _ _ (code _ _ rfl)
  | again =>
      cases same
      exact inherited.start _ (among _ List.mem_cons_self)
  | enter | act | commit | release | finish => cases same
  | _ =>
      cases same
      refine inherited.next _ _ _ ?_ (code _ _ rfl)
      nofun

omit [DecidableEq Lock] [DecidableEq Thread] in
theorem follows_initial {memory : Loc → Value} {calls : Thread → List Call}
    (among : ∀ thread, ∀ call ∈ calls thread, admitted call) (thread : Thread) :
    ((initial memory calls : State Thread Call Lock Act Loc Value Result).workers thread).Follows admitted holds :=
  ⟨among thread, nofun⟩

theorem follows_step (inherited : Inherited program admitted holds)
    {next : State Thread Call Lock Act Loc Value Result} {events : List (Return Thread Call Result)}
    (follows : ∀ thread, (state.workers thread).Follows admitted holds)
    (stepped : step program state thread = some (next, events)) :
    ∀ thread, (next.workers thread).Follows admitted holds := by
  obtain ⟨effect, move, rfl, rfl⟩ := step_move stepped
  exact (Function.forall_update_iff state.workers fun _ worker => worker.Follows admitted holds).mpr
    ⟨(follows thread).move inherited move, fun other _ => follows other⟩

/-- Every run keeps an inherited property. -/
theorem run_follows (inherited : Inherited program admitted holds) {memory : Loc → Value} {calls : Thread → List Call}
    (among : ∀ thread, ∀ call ∈ calls thread, admitted call) {schedule : List Thread}
    {trace : List (Return Thread Call Result)}
    (ran : (machine program).run (initial memory calls) schedule = some (state, trace)) (thread : Thread) :
    (state.workers thread).Follows admitted holds := by
  exact (machine program).run_invariant (fun _ state => ∀ thread, (state.workers thread).Follows admitted holds)
    (fun _ _ _ _ _ follows stepped => follows_step inherited follows stepped) (follows_initial among) ran thread

theorem ordered_inherited (rank : Lock → Nat) :
    Inherited program (fun call => Ordered rank (program.release call) (program.acquire call))
      (fun call => Ordered rank (program.release call)) where
  start _ ordered := ordered
  next := by
    rintro call instr rest forward (_ | _)
    case again => exact absurd rfl forward
    all_goals assumption
  retreat := by
    rintro call lock otherwise rest (_ | _)
    assumption
  touch := by
    rintro call act next rest (_ | _)
    exact .touch ‹_›

/-- Threads that can no longer move have finished unless they deadlock. -/
theorem finished_of_stopped (live : ¬Deadlocked program state)
    (stopped : ∀ thread, ¬(machine program).Enabled state thread) (thread : Thread) :
    (state.workers thread).Finished := by
  by_contra unfinished
  exact live ⟨⟨thread, unfinished⟩, stopped⟩

theorem not_enabled_of_finished (finished : (state.workers thread).Finished) :
    ¬(machine program).Enabled state thread := by
  have ended : state.workers thread = ⟨.idle, []⟩ := by
    rw [← finished.1, ← finished.2]
  simp [Machine.Enabled, machine, step, ended, access]

/-- Threads that take their locks in the order of their ranks never deadlock. -/
theorem not_deadlocked_of_ordered {quiet : Act → Prop} (balanced : program.Balanced quiet) (rank : Lock → Nat)
    {bound : Nat} (bounded : ∀ lock, rank lock < bound) {memory : Loc → Value} {calls : Thread → List Call}
    (ordered : ∀ thread, ∀ call ∈ calls thread, Ordered rank (program.release call) (program.acquire call))
    {schedule : List Thread} {trace : List (Return Thread Call Result)}
    (ran : (machine program).run (initial memory calls) schedule = some (state, trace)) :
    ¬Deadlocked program state := by
  have owned := run_owned balanced ran
  rintro ⟨⟨thread, unfinished⟩, blocked⟩
  have ascending (lock : Lock) (other : Thread) (wanted : Lock) (owner : state.owner lock = some other)
      (waits : (state.workers other).pc.wants = some wanted) : rank lock < rank wanted := by
    have held := owned.mem_held owner
    have code := (run_follows (ordered_inherited rank) ordered ran other).2
    generalize (state.workers other).pc = pc at held waits code
    rcases pc with _ | ⟨call, _ | ⟨_ | _, rest⟩⟩ | _ | _
    all_goals cases waits
    cases code call _ rfl with
    | lock above later => exact above lock held
  obtain ⟨last, reached, unblocked⟩ := Mutex.exists_unblocked rank bounded ascending thread
  refine blocked last (enabled_of_unblocked ?_ unblocked)
  rcases reached with rfl | ⟨lock, owner⟩
  · exact unfinished
  · exact owned.unfinished_of_owner owner

/-- Instructions that neither branch nor go back. -/
def Straight (rest : List (Instr Lock Act)) : Prop :=
  ∀ instr ∈ rest, ∃ lock, instr = .lock lock ∨ instr = .unlock lock

/-- Each access of a call leaves fewer accesses, and the last one is followed by the releases and the return. -/
structure Program.Shrinks (program : Program Call Lock Act Loc Value Result) (size : Act → Nat) : Prop where
  straight : ∀ call, Straight (program.acquire call)
  more : ∀ act memory after next, program.perform act memory = (after, .more next) → size next < size act
  done : ∀ call act memory after result, program.perform act memory = (after, .done result) →
    (program.release call).length + 1 < size act

/-- The steps of a call. -/
def Program.cost (program : Program Call Lock Act Loc Value Result) (size : Act → Nat) (call : Call) : Nat :=
  (program.acquire call).length + size (program.body call) + 2

/-- The steps that remain of the current call. -/
def Pc.steps (program : Program Call Lock Act Loc Value Result) (size : Act → Nat) : Pc Call Lock Act Result → Nat
  | .idle => 0
  | .acquiring call rest => rest.length + size (program.body call) + 1
  | .inside _ act => size act
  | .releasing _ rest _ => rest.length + 1

/-- The steps that remain of a thread. -/
def Worker.steps (program : Program Call Lock Act Loc Value Result) (size : Act → Nat)
    (worker : Worker Call Lock Act Result) : Nat :=
  worker.pc.steps program size + (worker.calls.map (program.cost size)).sum

variable {size : Act → Nat}

omit [DecidableEq Lock] in
theorem straight_inherited (shrinks : program.Shrinks size) :
    Inherited program (fun _ => True) (fun _ rest => Straight rest) where
  start call _ := shrinks.straight call
  next _ _ _ _ straight instr member := straight instr (List.mem_cons_of_mem _ member)
  retreat _ _ _ _ straight := by simpa using straight _ List.mem_cons_self
  touch _ _ _ _ straight := by simpa using straight _ List.mem_cons_self

omit [DecidableEq Thread] in
/-- Every move is one of the steps that remain. -/
theorem steps_lt_of_move (shrinks : program.Shrinks size) {owner : Lock → Option Thread} {memory : Loc → Value}
    {worker : Worker Call Lock Act Result} {effect : Effect Thread Call Lock Act Loc Value Result}
    (follows : worker.Follows (fun _ => True) fun _ rest => Straight rest)
    (move : Move program owner memory thread worker effect) :
    effect.worker.steps program size < worker.steps program size := by
  have straight := follows.2
  cases move with
  | start =>
      simp only [Worker.steps, Pc.steps, Program.cost, List.map_cons, List.sum_cons]
      omega
  | enter => exact Nat.add_lt_add_right (by simp only [Pc.steps, List.length_nil]; omega) _
  | lock | unlock => exact Nat.add_lt_add_right (by simp only [Pc.steps, List.length_cons]; omega) _
  | tried | failed | touch | touched | again => simpa using straight _ _ rfl _ List.mem_cons_self
  | act performed => exact Nat.add_lt_add_right (shrinks.more _ _ _ _ performed) _
  | commit performed => exact Nat.add_lt_add_right (shrinks.done _ _ _ _ _ performed) _
  | release => exact Nat.add_lt_add_right (Nat.lt_succ_self _) _
  | finish => exact Nat.add_lt_add_right Nat.zero_lt_one _

variable [Fintype Thread]

/-- The steps that remain of all threads. -/
def State.steps (program : Program Call Lock Act Loc Value Result) (size : Act → Nat)
    (state : State Thread Call Lock Act Loc Value Result) : Nat :=
  Count.total (Worker.steps program size) state.workers

/-- All threads have straight code before them, and every step is one of those that remain. -/
theorem steps_lt_of_step (shrinks : program.Shrinks size) {next : State Thread Call Lock Act Loc Value Result}
    {events : List (Return Thread Call Result)}
    (follows : ∀ thread, (state.workers thread).Follows (fun _ => True) fun _ rest => Straight rest)
    (stepped : step program state thread = some (next, events)) :
    next.steps program size < state.steps program size := by
  obtain ⟨effect, move, rfl, rfl⟩ := step_move stepped
  exact Count.total_update_lt (steps_lt_of_move shrinks (follows thread) move)

/-- No run is longer than its calls. -/
theorem run_length_le (shrinks : program.Shrinks size) {bound : Nat} (most : ∀ call, program.cost size call ≤ bound)
    {memory : Loc → Value} {calls : Thread → List Call} {schedule : List Thread}
    {trace : List (Return Thread Call Result)}
    (ran : (machine program).run (initial memory calls) schedule = some (state, trace)) :
    schedule.length ≤ bound * ∑ thread, (calls thread).length := by
  have bounded := (machine program).length_add_measure_le
    (fun state => ∀ thread, (state.workers thread).Follows (fun _ => True) fun _ rest => Straight rest)
    (State.steps program size)
    (fun _ _ _ _ follows stepped => ⟨follows_step (straight_inherited shrinks) follows stepped,
      steps_lt_of_step shrinks follows stepped⟩)
    (follows_initial fun _ _ _ => trivial) ran
  have start (thread : Thread) :
      (⟨.idle, calls thread⟩ : Worker Call Lock Act Result).steps program size ≤ bound * (calls thread).length := by
    have each : ∀ cost ∈ (calls thread).map (program.cost size), cost ≤ bound :=
      List.forall_mem_map.mpr fun call _ => most call
    have sum := List.sum_le_card_nsmul _ _ each
    rw [List.length_map, nsmul_eq_mul, Nat.mul_comm] at sum
    exact (Nat.zero_add _).trans_le sum
  calc schedule.length ≤ ∑ thread, Worker.steps program size ⟨.idle, calls thread⟩ :=
        (Nat.le_add_right _ _).trans bounded
    _ ≤ ∑ thread, bound * (calls thread).length := Finset.sum_le_sum fun thread _ => start thread
    _ = bound * ∑ thread, (calls thread).length := (Finset.mul_sum ..).symm

/-- Threads that never deadlock can finish from every reachable state. -/
theorem exists_finished (shrinks : program.Shrinks size) {memory : Loc → Value} {calls : Thread → List Call}
    (live : ∀ schedule state trace, (machine program).run (initial memory calls) schedule = some (state, trace) →
      ¬Deadlocked program state) {schedule : List Thread} {trace : List (Return Thread Call Result)}
    (ran : (machine program).run (initial memory calls) schedule = some (state, trace)) :
    ∃ later final events, (machine program).run state later = some (final, events) ∧
      ∀ thread, (final.workers thread).Finished := by
  have ⟨later, final, events, reached, _, finished⟩ := (machine program).exists_run_until
    (fun state => ∃ schedule trace, (machine program).run (initial memory calls) schedule = some (state, trace))
    (fun state => ∀ thread, (state.workers thread).Finished) (State.steps program size)
    (fun state reachable unfinished => ?_) ⟨schedule, trace, ran⟩
  · exact ⟨later, final, events, reached, finished⟩
  obtain ⟨schedule, trace, ran⟩ := reachable
  have ⟨thread, enabled⟩ : ∃ thread, (machine program).Enabled state thread := by
    by_contra none
    exact live schedule state trace ran ⟨not_forall.mp unfinished, not_exists.mp none⟩
  obtain ⟨⟨next, events⟩, stepped⟩ := Option.isSome_iff_exists.mp enabled
  have further := (machine program).run_cons_eq_some.mpr ⟨next, events, [], stepped, Machine.run_nil _ _, rfl⟩
  refine ⟨thread, next, events, stepped, ⟨_, _, (machine program).run_append ran further⟩, ?_⟩
  exact steps_lt_of_step shrinks (run_follows (straight_inherited shrinks) (fun _ _ _ => trivial) ran) stepped

end Ostep.Library.Locking
