import Mathlib.Algebra.Group.Nat.Defs
import Ostep.Library.Mutex
import Ostep.Proof.Transfer.Move

namespace Ostep.Transfer

open Library

/-- The lock order as one number: the id first, then the address. -/
def rank (ids : Addr → BitVec 32) (address : Addr) : Nat := (ids address).toNat * 2 ^ 64 + address.toNat

theorem rank_lt (ids : Addr → BitVec 32) (address : Addr) : rank ids address < 2 ^ 96 := by
  have idBound := (ids address).isLt
  have addressBound := address.isLt
  unfold rank
  omega

/-- A call locks its two counters in one of the two orders. -/
theorem lockOrder_cases (ids : Addr → BitVec 32) (call : Call) :
    first ids call = call.source ∧ second ids call = call.target ∨
      first ids call = call.target ∧ second ids call = call.source := by
  unfold first second lockOrder
  split
  · exact Or.inl ⟨rfl, rfl⟩
  · split
    · exact Or.inr ⟨rfl, rfl⟩
    · split
      · exact Or.inl ⟨rfl, rfl⟩
      · exact Or.inr ⟨rfl, rfl⟩

/-- A call that locks has two different counters. -/
theorem source_ne_target {call : Call} (valid : earlyReturn call = none) : call.source ≠ call.target := by
  intro same
  unfold earlyReturn at valid
  split at valid
  · cases valid
  · split at valid
    · cases valid
    · cases valid

/-- The first lock of a call has a lower rank than the second, also when the ids are equal. -/
theorem rank_first_lt (ids : Addr → BitVec 32) {call : Call} (valid : earlyReturn call = none) :
    rank ids (first ids call) < rank ids (second ids call) := by
  have different : call.source.toNat ≠ call.target.toNat :=
    fun same => source_ne_target valid (BitVec.eq_of_toNat_eq same)
  have sourceBound := call.source.isLt
  have targetBound := call.target.isLt
  unfold first second lockOrder rank
  simp only [gt_iff_lt, BitVec.lt_def]
  split
  · dsimp only
    omega
  · split
    · dsimp only
      omega
    · split
      · dsimp only
        omega
      · dsimp only
        omega

theorem first_ne_second (ids : Addr → BitVec 32) {call : Call} (valid : earlyReturn call = none) :
    first ids call ≠ second ids call := by
  intro same
  have lower := rank_first_lt ids valid
  rw [same] at lower
  exact Nat.lt_irrefl _ lower

/-- The mutexes that a thread holds. -/
def Pc.held (ids : Addr → BitVec 32) : Pc → List Addr
  | .idle | .lockFirst _ => []
  | .lockSecond call | .unlockFirst call _ => [first ids call]
  | .test call | .readSource call | .writeSource call _ | .readTarget call | .writeTarget call _
  | .unlockSecond call _ => [first ids call, second ids call]

/-- The mutex that a thread is about to lock. -/
def Pc.wants (ids : Addr → BitVec 32) : Pc → Option Addr
  | .lockFirst call => some (first ids call)
  | .lockSecond call => some (second ids call)
  | _ => none

/-- The call that a thread is executing. -/
def Pc.call? : Pc → Option Call
  | .idle => none
  | .lockFirst call | .lockSecond call | .test call | .readSource call | .writeSource call _ | .readTarget call
  | .writeTarget call _ | .unlockSecond call _ | .unlockFirst call _ => some call

/-- A call in execution did not return early. -/
def Pc.Valid (pc : Pc) : Prop := ∀ call, pc.call? = some call → earlyReturn call = none

/-- A thread waits only for locks of a higher rank than the locks it holds. -/
theorem Pc.ordered {ids : Addr → BitVec 32} {pc : Pc} (valid : pc.Valid) {lock wanted : Addr}
    (holds : lock ∈ pc.held ids) (waits : pc.wants ids = some wanted) : rank ids lock < rank ids wanted := by
  cases pc with
  | lockSecond call =>
      obtain rfl := List.mem_singleton.mp holds
      obtain rfl := Option.some.inj waits
      exact rank_first_lt ids (valid call rfl)
  | lockFirst call => cases holds
  | _ => cases waits

variable {Thread : Type}

/-- The owners of the mutexes are the threads that hold them. -/
structure Locked (ids : Addr → BitVec 32) (state : State Thread) : Prop where
  owned : Mutex.Owns state.owner fun thread => (state.workers thread).pc.held ids
  valid : ∀ thread, (state.workers thread).pc.Valid

/-- No mutex has an owner before the first step. -/
theorem initial_locked (ids : Addr → BitVec 32) (values : Addr → Value) (programs : Thread → List Call) :
    Locked ids (initial values programs) where
  owned lock thread := by simp [initial, Pc.held]
  valid _ := nofun

/-- A thread that owns a mutex is inside a call. -/
theorem Locked.unfinished_of_owner {ids : Addr → BitVec 32} {state : State Thread} {thread : Thread}
    (locked : Locked ids state) {lock : Addr} (owner : state.owner lock = some thread) :
    ¬(state.workers thread).Finished := by
  rintro ⟨idle, -⟩
  have held := (locked.owned lock thread).mp owner
  simp [idle, Pc.held] at held

variable [DecidableEq Thread]

/-- An update of one thread updates the locks of that thread. -/
theorem held_update (ids : Addr → BitVec 32) (workers : Thread → Worker) (thread : Thread) (worker : Worker) :
    (fun other => (Function.update workers thread worker other).pc.held ids) =
      Function.update (fun other => (workers other).pc.held ids) thread (worker.pc.held ids) :=
  Function.comp_update (fun worker : Worker => worker.pc.held ids) workers thread worker

/-- An update of one thread keeps the other calls valid. -/
theorem valid_update {workers : Thread → Worker} (all : ∀ other, (workers other).pc.Valid) (thread : Thread)
    {worker : Worker} (valid : worker.pc.Valid) :
    ∀ other, (Function.update workers thread worker other).pc.Valid :=
  (Function.forall_update_iff workers fun _ worker => worker.pc.Valid).mpr ⟨valid, fun other _ => all other⟩

variable {ids : Addr → BitVec 32} {state : State Thread} {thread : Thread}

/-- A call that is past its early returns stays past them. -/
theorem Pc.Valid.of_call {pc next : Pc} (valid : pc.Valid) (same : next.call? = pc.call?) : next.Valid :=
  fun call current => valid call (same ▸ current)

/-- A move keeps the owners of the mutexes, and the moved thread is still inside a valid call. -/
theorem Locked.move (locked : Locked ids state) {before after : Worker} {owner : Addr → Option Thread}
    {values : Addr → Value} {events : List (Event Thread)} (current : state.workers thread = before)
    (move : Move ids state.owner state.values thread before owner values after events) :
    Mutex.Owns owner
        (Function.update (fun other => (state.workers other).pc.held ids) thread (after.pc.held ids)) ∧
      after.pc.Valid := by
  have valid := locked.valid thread
  have owned := locked.owned
  have held : (state.workers thread).pc.held ids = before.pc.held ids := by rw [current]
  rw [current] at valid
  cases move with
  | early returns => exact ⟨owned.keep held.symm, nofun⟩
  | start fresh =>
      refine ⟨owned.keep held.symm, fun other same => ?_⟩
      rwa [← Option.some.inj same]
  | lockFirst free => exact ⟨owned.take free (by simp [current, Pc.held]), valid.of_call rfl⟩
  | lockSecond free => exact ⟨owned.take free (by simp [current, Pc.held, or_comm]), valid.of_call rfl⟩
  | testFails short => exact ⟨owned.keep held.symm, valid.of_call rfl⟩
  | testPasses covered => exact ⟨owned.keep held.symm, valid.of_call rfl⟩
  | readSource => exact ⟨owned.keep held.symm, valid.of_call rfl⟩
  | writeSource => exact ⟨owned.keep held.symm, valid.of_call rfl⟩
  | readTarget => exact ⟨owned.keep held.symm, valid.of_call rfl⟩
  | writeTarget => exact ⟨owned.keep held.symm, valid.of_call rfl⟩
  | @unlockSecond call code calls =>
      have different := first_ne_second ids (valid call rfl)
      refine ⟨owned.release (by simp [current, Pc.held]) fun other => ?_, valid.of_call rfl⟩
      simp only [current, Pc.held, List.mem_cons, List.not_mem_nil, or_false]
      constructor
      · rintro rfl
        exact ⟨different, Or.inl rfl⟩
      · rintro ⟨notSecond, either⟩
        exact either.resolve_right notSecond
  | unlockFirst => exact ⟨owned.release (by simp [current, Pc.held]) (by simp [current, Pc.held]), nofun⟩

/-- Every step keeps the owners. -/
theorem Locked.step (locked : Locked ids state) {next : State Thread} {events : List (Event Thread)}
    (stepped : step ids state thread = some (next, events)) : Locked ids next := by
  obtain ⟨before, owner, values, after, current, move, rfl⟩ := step_move stepped
  obtain ⟨owned, valid⟩ := locked.move current move
  exact ⟨held_update ids state.workers thread after ▸ owned, valid_update locked.valid thread valid⟩

/-- Every run keeps the owners. -/
theorem run_locked {values : Addr → Value} {programs : Thread → List Call} {schedule : List Thread}
    {trace : List (Event Thread)}
    (ran : (machine ids).run (initial values programs) schedule = some (state, trace)) : Locked ids state :=
  (machine ids).run_invariant (fun _ => Locked ids) (fun _ _ _ _ _ locked stepped => locked.step stepped)
    (initial_locked ids values programs) ran

/-- An unfinished thread takes a step unless it waits for an owned mutex. -/
theorem enabled_of_unblocked (unfinished : ¬(state.workers thread).Finished)
    (unblocked : ∀ lock, (state.workers thread).pc.wants ids = some lock → state.owner lock = none) :
    (machine ids).Enabled state thread := by
  unfold Machine.Enabled
  simp only [machine, step]
  cases pc : (state.workers thread).pc with
  | idle =>
      cases calls : (state.workers thread).calls with
      | nil => exact absurd ⟨pc, calls⟩ unfinished
      | cons call rest => cases early : earlyReturn call <;> simp [early]
  | lockFirst call =>
      have free := unblocked (first ids call) (by rw [pc]; rfl)
      simp [free]
  | lockSecond call =>
      have free := unblocked (second ids call) (by rw [pc]; rfl)
      simp [free]
  | test call =>
      dsimp only
      split
      · rfl
      · rfl
  | _ => rfl

/-- Threads never deadlock, and no mutex stays locked after the last call. -/
theorem transfer_no_deadlock (ids : Addr → BitVec 32) (values : Addr → Value) (programs : Thread → List Call)
    (schedule : List Thread) (state : State Thread) (trace : List (Event Thread))
    (ran : (machine ids).run (initial values programs) schedule = some (state, trace)) :
    ((∃ thread, ¬(state.workers thread).Finished) → ∃ thread, (machine ids).Enabled state thread) ∧
      ((∀ thread, (state.workers thread).Finished) → ∀ lock, state.owner lock = none) := by
  have locked := run_locked ran
  constructor
  · rintro ⟨thread, unfinished⟩
    obtain ⟨last, reached, unblocked⟩ := Mutex.exists_unblocked (rank ids) (rank_lt ids)
      (fun lock other wanted owner waits =>
        Pc.ordered (locked.valid other) ((locked.owned lock other).mp owner) waits) thread
    refine ⟨last, enabled_of_unblocked ?_ unblocked⟩
    rcases reached with rfl | ⟨lock, owner⟩
    · exact unfinished
    · exact locked.unfinished_of_owner owner
  · intro finished lock
    cases owner : state.owner lock with
    | none => rfl
    | some thread => exact absurd (finished thread) (locked.unfinished_of_owner owner)

/-- Two threads that transfer in opposite directions between counters with equal ids do not deadlock. -/
theorem transfer_opposite_directions :
    ∃ state trace, (machine fun _ => 7).run
        (initial (fun _ => 10) fun thread : Bool => [if thread then ⟨64, 128, 3⟩ else ⟨128, 64, 5⟩])
        [true, false, true] = some (state, trace) ∧
      ∃ thread, (machine fun _ => 7).Enabled state thread := by
  have complete : ((machine fun _ => 7).run
      (initial (fun _ => 10) fun thread : Bool => [if thread then ⟨64, 128, 3⟩ else ⟨128, 64, 5⟩])
      [true, false, true]).map (fun result => (result.1.workers true).pc) =
        some (.lockSecond ⟨64, 128, 3⟩) := by decide
  obtain ⟨⟨state, trace⟩, ran, waiting⟩ := Option.map_eq_some_iff.mp complete
  refine ⟨state, trace, ran, (transfer_no_deadlock _ _ _ _ state trace ran).1 ⟨true, fun finished => ?_⟩⟩
  rw [finished.1] at waiting
  cases waiting

end Ostep.Transfer
