import Ostep.Library.Machine
import Ostep.Library.Mutex

namespace Ostep.Library.Locking

/-- The instructions before a critical section. A failed try goes on with its other branch,
and `again` starts over. -/
inductive Instr (Lock Act : Type) where
  | lock (lock : Lock)
  | unlock (lock : Lock)
  | tryLock (lock : Lock) (otherwise : List (Instr Lock Act))
  | touch (act : Act)
  | again

/-- An access goes on with another access or ends with a result. -/
inductive Next (Act Result : Type) where
  | more (act : Act)
  | done (result : Result)
  deriving Repr, DecidableEq

/-- Each call takes its locks, makes its accesses and releases the locks that it still holds. -/
structure Program (Call Lock Act Loc Value Result : Type) where
  acquire : Call → List (Instr Lock Act)
  body : Call → Act
  release : Call → List Lock
  perform : Act → (Loc → Value) → (Loc → Value) × Next Act Result

inductive Pc (Call Lock Act Result : Type) where
  | idle
  | acquiring (call : Call) (rest : List (Instr Lock Act))
  | inside (call : Call) (act : Act)
  | releasing (call : Call) (rest : List Lock) (result : Result)

/-- A thread makes its calls in order. -/
structure Worker (Call Lock Act Result : Type) where
  pc : Pc Call Lock Act Result
  calls : List Call

/-- A mutex has at most one owner. -/
structure State (Thread Call Lock Act Loc Value Result : Type) where
  memory : Loc → Value
  owner : Lock → Option Thread
  workers : Thread → Worker Call Lock Act Result

/-- A call of a thread with its result. -/
structure Return (Thread Call Result : Type) where
  thread : Thread
  call : Call
  result : Result
  deriving Repr, DecidableEq

section Semantics

variable {Thread Call Lock Act Loc Value Result : Type}

/-- The owners, the memory, the thread and the events after one access. -/
structure Effect (Thread Call Lock Act Loc Value Result : Type) where
  owner : Lock → Option Thread
  memory : Loc → Value
  worker : Worker Call Lock Act Result
  events : List (Return Thread Call Result)

variable [DecidableEq Lock] (program : Program Call Lock Act Loc Value Result)

/-- One access of one thread. A thread waits for a mutex that has an owner. -/
def access (owner : Lock → Option Thread) (memory : Loc → Value) (thread : Thread) :
    Worker Call Lock Act Result → Option (Effect Thread Call Lock Act Loc Value Result)
  | ⟨.idle, []⟩ => none
  | ⟨.idle, call :: calls⟩ => some ⟨owner, memory, ⟨.acquiring call (program.acquire call), calls⟩, []⟩
  | ⟨.acquiring call [], calls⟩ => some ⟨owner, memory, ⟨.inside call (program.body call), calls⟩, []⟩
  | ⟨.acquiring call (.lock lock :: rest), calls⟩ =>
      if owner lock = none then
        some ⟨Function.update owner lock (some thread), memory, ⟨.acquiring call rest, calls⟩, []⟩
      else none
  | ⟨.acquiring call (.unlock lock :: rest), calls⟩ =>
      some ⟨Function.update owner lock none, memory, ⟨.acquiring call rest, calls⟩, []⟩
  | ⟨.acquiring call (.tryLock lock otherwise :: rest), calls⟩ =>
      if owner lock = none then
        some ⟨Function.update owner lock (some thread), memory, ⟨.acquiring call rest, calls⟩, []⟩
      else some ⟨owner, memory, ⟨.acquiring call otherwise, calls⟩, []⟩
  | ⟨.acquiring call (.touch act :: rest), calls⟩ =>
      match program.perform act memory with
      | (memory, .more next) => some ⟨owner, memory, ⟨.acquiring call (.touch next :: rest), calls⟩, []⟩
      | (memory, .done _) => some ⟨owner, memory, ⟨.acquiring call rest, calls⟩, []⟩
  | ⟨.acquiring call (.again :: _), calls⟩ =>
      some ⟨owner, memory, ⟨.acquiring call (program.acquire call), calls⟩, []⟩
  | ⟨.inside call act, calls⟩ =>
      match program.perform act memory with
      | (memory, .more next) => some ⟨owner, memory, ⟨.inside call next, calls⟩, []⟩
      | (memory, .done result) => some ⟨owner, memory, ⟨.releasing call (program.release call) result, calls⟩, []⟩
  | ⟨.releasing call [] result, calls⟩ => some ⟨owner, memory, ⟨.idle, calls⟩, [⟨thread, call, result⟩]⟩
  | ⟨.releasing call (lock :: rest) result, calls⟩ =>
      some ⟨Function.update owner lock none, memory, ⟨.releasing call rest result, calls⟩, []⟩

variable [DecidableEq Thread]

def step (state : State Thread Call Lock Act Loc Value Result) (thread : Thread) :
    Option (State Thread Call Lock Act Loc Value Result × List (Return Thread Call Result)) :=
  (access program state.owner state.memory thread (state.workers thread)).map fun effect =>
    (⟨effect.memory, effect.owner, Function.update state.workers thread effect.worker⟩, effect.events)

/-- A schedule names the thread that makes the next access. -/
def machine : Machine (State Thread Call Lock Act Loc Value Result) Thread (Return Thread Call Result) := ⟨step program⟩

/-- Every mutex starts free and every thread starts before its first call. -/
def initial (memory : Loc → Value) (calls : Thread → List Call) : State Thread Call Lock Act Loc Value Result where
  memory := memory
  owner := fun _ => none
  workers := fun thread => ⟨.idle, calls thread⟩

/-- All calls of the thread have returned. -/
def Worker.Finished (worker : Worker Call Lock Act Result) : Prop := worker.pc = .idle ∧ worker.calls = []

/-- The current call and the remaining calls of a thread. -/
def Worker.pending (worker : Worker Call Lock Act Result) : List Call :=
  match worker.pc with
  | .idle => worker.calls
  | .acquiring call _ | .inside call _ | .releasing call _ _ => call :: worker.calls

/-- Nothing can happen any more although a thread is not finished. -/
def Deadlocked (state : State Thread Call Lock Act Loc Value Result) : Prop :=
  (∃ thread, ¬(state.workers thread).Finished) ∧ ∀ thread, ¬(machine program).Enabled state thread

end Semantics

section Moves

variable {Thread Call Lock Act Loc Value Result : Type} [DecidableEq Lock]

/-- The accesses that a thread can make, with the owners, memory and events they leave. -/
inductive Move (program : Program Call Lock Act Loc Value Result) (owner : Lock → Option Thread)
    (memory : Loc → Value) (thread : Thread) :
    Worker Call Lock Act Result → Effect Thread Call Lock Act Loc Value Result → Prop where
  | start {call : Call} {calls : List Call} :
      Move program owner memory thread ⟨.idle, call :: calls⟩
        ⟨owner, memory, ⟨.acquiring call (program.acquire call), calls⟩, []⟩
  | enter {call : Call} {calls : List Call} :
      Move program owner memory thread ⟨.acquiring call [], calls⟩
        ⟨owner, memory, ⟨.inside call (program.body call), calls⟩, []⟩
  | lock {call : Call} {lock : Lock} {rest : List (Instr Lock Act)} {calls : List Call} (free : owner lock = none) :
      Move program owner memory thread ⟨.acquiring call (.lock lock :: rest), calls⟩
        ⟨Function.update owner lock (some thread), memory, ⟨.acquiring call rest, calls⟩, []⟩
  | unlock {call : Call} {lock : Lock} {rest : List (Instr Lock Act)} {calls : List Call} :
      Move program owner memory thread ⟨.acquiring call (.unlock lock :: rest), calls⟩
        ⟨Function.update owner lock none, memory, ⟨.acquiring call rest, calls⟩, []⟩
  | tried {call : Call} {lock : Lock} {otherwise rest : List (Instr Lock Act)} {calls : List Call}
      (free : owner lock = none) :
      Move program owner memory thread ⟨.acquiring call (.tryLock lock otherwise :: rest), calls⟩
        ⟨Function.update owner lock (some thread), memory, ⟨.acquiring call rest, calls⟩, []⟩
  | failed {call : Call} {lock : Lock} {otherwise rest : List (Instr Lock Act)} {calls : List Call}
      (taken : owner lock ≠ none) :
      Move program owner memory thread ⟨.acquiring call (.tryLock lock otherwise :: rest), calls⟩
        ⟨owner, memory, ⟨.acquiring call otherwise, calls⟩, []⟩
  | touch {call : Call} {act next : Act} {after : Loc → Value} {rest : List (Instr Lock Act)} {calls : List Call}
      (performed : program.perform act memory = (after, .more next)) :
      Move program owner memory thread ⟨.acquiring call (.touch act :: rest), calls⟩
        ⟨owner, after, ⟨.acquiring call (.touch next :: rest), calls⟩, []⟩
  | touched {call : Call} {act : Act} {after : Loc → Value} {result : Result} {rest : List (Instr Lock Act)}
      {calls : List Call} (performed : program.perform act memory = (after, .done result)) :
      Move program owner memory thread ⟨.acquiring call (.touch act :: rest), calls⟩
        ⟨owner, after, ⟨.acquiring call rest, calls⟩, []⟩
  | again {call : Call} {rest : List (Instr Lock Act)} {calls : List Call} :
      Move program owner memory thread ⟨.acquiring call (.again :: rest), calls⟩
        ⟨owner, memory, ⟨.acquiring call (program.acquire call), calls⟩, []⟩
  | act {call : Call} {act next : Act} {after : Loc → Value} {calls : List Call}
      (performed : program.perform act memory = (after, .more next)) :
      Move program owner memory thread ⟨.inside call act, calls⟩ ⟨owner, after, ⟨.inside call next, calls⟩, []⟩
  | commit {call : Call} {act : Act} {after : Loc → Value} {result : Result} {calls : List Call}
      (performed : program.perform act memory = (after, .done result)) :
      Move program owner memory thread ⟨.inside call act, calls⟩
        ⟨owner, after, ⟨.releasing call (program.release call) result, calls⟩, []⟩
  | release {call : Call} {lock : Lock} {rest : List Lock} {result : Result} {calls : List Call} :
      Move program owner memory thread ⟨.releasing call (lock :: rest) result, calls⟩
        ⟨Function.update owner lock none, memory, ⟨.releasing call rest result, calls⟩, []⟩
  | finish {call : Call} {result : Result} {calls : List Call} :
      Move program owner memory thread ⟨.releasing call [] result, calls⟩
        ⟨owner, memory, ⟨.idle, calls⟩, [⟨thread, call, result⟩]⟩

variable {program : Program Call Lock Act Loc Value Result} {owner : Lock → Option Thread} {memory : Loc → Value}
  {thread : Thread}

/-- Every access is one of the moves. -/
theorem access_move {worker : Worker Call Lock Act Result} {effect : Effect Thread Call Lock Act Loc Value Result}
    (accessed : access program owner memory thread worker = some effect) :
    Move program owner memory thread worker effect := by
  rcases worker with ⟨pc, calls⟩
  cases pc with
  | idle =>
      cases calls with
      | nil => cases accessed
      | cons call calls =>
          cases accessed
          exact .start
  | acquiring call rest =>
      rcases rest with _ | ⟨instr, rest⟩
      · cases accessed
        exact .enter
      cases instr with
      | lock lock =>
          simp only [access, Option.ite_none_right_eq_some] at accessed
          obtain ⟨free, same⟩ := accessed
          cases same
          exact .lock free
      | unlock lock =>
          cases accessed
          exact .unlock
      | tryLock lock otherwise =>
          simp only [access] at accessed
          split at accessed
          · next free =>
              cases accessed
              exact .tried free
          · next taken =>
              cases accessed
              exact .failed taken
      | touch act =>
          simp only [access] at accessed
          split at accessed
          · next performed =>
              cases accessed
              exact .touch performed
          · next performed =>
              cases accessed
              exact .touched performed
      | again =>
          cases accessed
          exact .again
  | inside call act =>
      simp only [access] at accessed
      split at accessed
      · next performed =>
          cases accessed
          exact .act performed
      · next performed =>
          cases accessed
          exact .commit performed
  | releasing call rest result =>
      rcases rest with _ | ⟨lock, rest⟩
      · cases accessed
        exact .finish
      · cases accessed
        exact .release

/-- A step is one move of one thread. -/
theorem step_move [DecidableEq Thread] {state next : State Thread Call Lock Act Loc Value Result}
    {events : List (Return Thread Call Result)} (stepped : step program state thread = some (next, events)) :
    ∃ effect, Move program state.owner state.memory thread (state.workers thread) effect ∧
      next = ⟨effect.memory, effect.owner, Function.update state.workers thread effect.worker⟩ ∧
      events = effect.events := by
  obtain ⟨effect, accessed, same⟩ := Option.map_eq_some_iff.mp stepped
  obtain ⟨rfl, rfl⟩ := Prod.mk.inj same
  exact ⟨effect, access_move accessed, rfl, rfl⟩

/-- A move adds no call. -/
theorem Move.mem_pending {worker : Worker Call Lock Act Result} {effect : Effect Thread Call Lock Act Loc Value Result}
    (move : Move program owner memory thread worker effect) {call : Call} (member : call ∈ effect.worker.pending) :
    call ∈ worker.pending := by
  cases move with
  | finish => exact List.mem_cons_of_mem _ member
  | _ => exact member

end Moves

section Ownership

variable {Call Lock Act Result : Type} [DecidableEq Lock]

/-- The locks that a thread holds are those that its remaining instructions release. -/
def owes (base : List Lock) : List (Instr Lock Act) → List Lock
  | [] => base
  | .lock lock :: rest => (owes base rest).erase lock
  | .unlock lock :: rest => lock :: owes base rest
  | .tryLock lock _ :: rest => (owes base rest).erase lock
  | .touch _ :: rest => owes base rest
  | .again :: _ => []

/-- Every lock is released once and both branches of a try hold the same locks. A thread that waits
for itself goes no further, so nothing is asked of its remaining instructions. -/
inductive Sound (quiet : Act → Prop) (base : List Lock) : List (Instr Lock Act) → Prop where
  | nil (distinct : base.Nodup) : Sound quiet base []
  | lock {lock : Lock} {rest : List (Instr Lock Act)} (paired : lock ∈ owes base rest)
      (later : lock ∉ (owes base rest).erase lock → Sound quiet base rest) : Sound quiet base (.lock lock :: rest)
  | unlock {lock : Lock} {rest : List (Instr Lock Act)} (once : lock ∉ owes base rest)
      (later : Sound quiet base rest) : Sound quiet base (.unlock lock :: rest)
  | tryLock {lock : Lock} {otherwise rest : List (Instr Lock Act)} (paired : lock ∈ owes base rest)
      (later : lock ∉ (owes base rest).erase lock → Sound quiet base rest)
      (same : owes base otherwise = (owes base rest).erase lock) (retreat : Sound quiet base otherwise) :
      Sound quiet base (.tryLock lock otherwise :: rest)
  | touch {act : Act} {rest : List (Instr Lock Act)} (silent : quiet act) (later : Sound quiet base rest) :
      Sound quiet base (.touch act :: rest)
  | again {rest : List (Instr Lock Act)} : Sound quiet base (.again :: rest)

variable {Loc Value : Type} (program : Program Call Lock Act Loc Value Result)

def Pc.held : Pc Call Lock Act Result → List Lock
  | .idle => []
  | .acquiring call rest => owes (program.release call) rest
  | .inside call _ => program.release call
  | .releasing _ rest _ => rest

def Pc.Sound (quiet : Act → Prop) : Pc Call Lock Act Result → Prop
  | .idle => True
  | .acquiring call rest => Locking.Sound quiet (program.release call) rest
  | .inside call _ => (program.release call).Nodup
  | .releasing call rest _ => (program.release call).Nodup ∧ rest.Nodup

/-- Every call starts without locks, and its instructions are sound. -/
structure Program.Balanced (quiet : Act → Prop) : Prop where
  empty : ∀ call, owes (program.release call) (program.acquire call) = []
  sound : ∀ call, Locking.Sound quiet (program.release call) (program.acquire call)
  quiet_more : ∀ act memory after next, quiet act → program.perform act memory = (after, .more next) → quiet next

variable {program} {quiet : Act → Prop}

/-- A lock that is taken and not held yet is added to the locks held. -/
theorem mem_owes_iff {base : List Lock} {rest : List (Instr Lock Act)} {lock : Lock}
    (paired : lock ∈ owes base rest) (other : Lock) :
    other ∈ owes base rest ↔ other = lock ∨ other ∈ (owes base rest).erase lock := by
  by_cases same : other = lock
  · exact iff_of_true (same ▸ paired) (Or.inl same)
  · rw [List.mem_erase_of_ne same, or_iff_right same]

variable {Thread : Type} [DecidableEq Thread]

/-- The owners of the mutexes are the threads that hold them. -/
structure Owned (program : Program Call Lock Act Loc Value Result) (quiet : Act → Prop)
    (state : State Thread Call Lock Act Loc Value Result) : Prop where
  owns : Mutex.Owns state.owner fun thread => (state.workers thread).pc.held program
  sound : ∀ thread, (state.workers thread).pc.Sound program quiet

variable {state : State Thread Call Lock Act Loc Value Result} {thread : Thread}

omit [DecidableEq Thread] in
/-- No mutex has an owner before the first step. -/
theorem initial_owned (memory : Loc → Value) (calls : Thread → List Call) :
    Owned program quiet (initial memory calls) where
  owns lock thread := by simp [initial, Pc.held]
  sound _ := trivial

omit [DecidableEq Thread] in
theorem Owned.mem_held (owned : Owned program quiet state) {lock : Lock} (owner : state.owner lock = some thread) :
    lock ∈ (state.workers thread).pc.held program := (owned.owns lock thread).mp owner

omit [DecidableEq Thread] in
/-- A thread that owns a mutex is inside a call. -/
theorem Owned.unfinished_of_owner (owned : Owned program quiet state) {lock : Lock}
    (owner : state.owner lock = some thread) : ¬(state.workers thread).Finished := by
  rintro ⟨idle, -⟩
  have held := owned.mem_held owner
  simp [idle, Pc.held] at held

omit [DecidableEq Thread] in
/-- A free lock is held by nobody. -/
theorem Owned.not_held (owned : Owned program quiet state) {lock : Lock} (free : state.owner lock = none)
    (thread : Thread) : lock ∉ (state.workers thread).pc.held program := by
  intro member
  rw [(owned.owns lock thread).mpr member] at free
  cases free

/-- A move keeps the owners of the mutexes. -/
theorem Owned.move (balanced : program.Balanced quiet) (owned : Owned program quiet state)
    {effect : Effect Thread Call Lock Act Loc Value Result}
    (move : Move program state.owner state.memory thread (state.workers thread) effect) :
    Mutex.Owns effect.owner
        (Function.update (fun other => (state.workers other).pc.held program) thread (effect.worker.pc.held program)) ∧
      effect.worker.pc.Sound program quiet := by
  have owns := owned.owns
  have sound := owned.sound thread
  have absent (lock : Lock) (free : state.owner lock = none) := owned.not_held free thread
  generalize current : state.workers thread = worker at move sound absent
  have held : (state.workers thread).pc.held program = worker.pc.held program := by rw [current]
  cases move with
  | @start call calls => exact ⟨owns.keep (held.symm ▸ balanced.empty call), balanced.sound call⟩
  | enter =>
      cases sound with
      | nil distinct => exact ⟨owns.keep held.symm, distinct⟩
  | @lock call lock rest calls free =>
      cases sound with
      | lock paired later => exact ⟨owns.take free (held.symm ▸ mem_owes_iff paired), later (absent lock free)⟩
  | @tried call lock otherwise rest calls free =>
      cases sound with
      | tryLock paired later => exact ⟨owns.take free (held.symm ▸ mem_owes_iff paired), later (absent lock free)⟩
  | failed taken =>
      cases sound with
      | tryLock paired later same retreat => exact ⟨owns.keep (held.symm ▸ same), retreat⟩
  | @unlock call lock rest calls =>
      cases sound with
      | unlock once later =>
          refine ⟨owns.release (held.symm ▸ List.mem_cons_self) fun other => ?_, later⟩
          rw [held]
          simp only [Pc.held, owes, List.mem_cons]
          grind
  | touch performed =>
      cases sound with
      | touch silent later =>
          exact ⟨owns.keep held.symm, .touch (balanced.quiet_more _ _ _ _ silent performed) later⟩
  | touched performed =>
      cases sound with
      | touch silent later => exact ⟨owns.keep held.symm, later⟩
  | @again call rest calls => exact ⟨owns.keep (held.symm ▸ balanced.empty call), balanced.sound call⟩
  | act performed => exact ⟨owns.keep held.symm, sound⟩
  | commit performed => exact ⟨owns.keep held.symm, sound, sound⟩
  | @release call lock rest result calls =>
      obtain ⟨once, later⟩ := List.nodup_cons.mp sound.2
      refine ⟨owns.release (held.symm ▸ List.mem_cons_self) fun other => ?_, sound.1, later⟩
      rw [held]
      simp only [Pc.held, List.mem_cons]
      grind
  | finish => exact ⟨owns.keep held.symm, trivial⟩

/-- Every step keeps the owners. -/
theorem Owned.step (balanced : program.Balanced quiet) (owned : Owned program quiet state)
    {next : State Thread Call Lock Act Loc Value Result} {events : List (Return Thread Call Result)}
    (stepped : step program state thread = some (next, events)) : Owned program quiet next := by
  obtain ⟨effect, move, rfl, rfl⟩ := step_move stepped
  obtain ⟨owns, sound⟩ := owned.move balanced move
  refine ⟨?_, (Function.forall_update_iff state.workers fun _ worker => worker.pc.Sound program quiet).mpr
    ⟨sound, fun other _ => owned.sound other⟩⟩
  have held := Function.comp_update (fun worker => Pc.held program worker.pc) state.workers thread effect.worker
  change Mutex.Owns effect.owner ((fun worker => Pc.held program worker.pc) ∘ Function.update state.workers thread _)
  rwa [held]

/-- Every run keeps the owners. -/
theorem run_owned (balanced : program.Balanced quiet) {memory : Loc → Value} {calls : Thread → List Call}
    {schedule : List Thread} {trace : List (Return Thread Call Result)}
    (ran : (machine program).run (initial memory calls) schedule = some (state, trace)) : Owned program quiet state :=
  (machine program).run_invariant (fun _ => Owned program quiet)
    (fun _ _ _ _ _ owned stepped => owned.step balanced stepped) (initial_owned memory calls) ran

/-- A call that returns has released different locks. -/
theorem run_returns_nodup (balanced : program.Balanced quiet) {memory : Loc → Value} {calls : Thread → List Call}
    {schedule : List Thread} {trace : List (Return Thread Call Result)}
    (ran : (machine program).run (initial memory calls) schedule = some (state, trace)) :
    ∀ event ∈ trace, (program.release event.call).Nodup := by
  refine ((machine program).run_invariant
    (fun past state => Owned program quiet state ∧ ∀ event ∈ past, (program.release event.call).Nodup)
    (fun past state thread next events before stepped => ?_) ⟨initial_owned memory calls, nofun⟩ ran).2
  refine ⟨before.1.step balanced stepped, List.forall_mem_append.mpr ⟨before.2, ?_⟩⟩
  obtain ⟨effect, move, rfl, rfl⟩ := step_move stepped
  have sound := before.1.sound thread
  generalize state.workers thread = worker at move sound
  cases move with
  | finish => exact List.forall_mem_singleton.mpr sound.1
  | _ => nofun

end Ownership

end Ostep.Library.Locking
