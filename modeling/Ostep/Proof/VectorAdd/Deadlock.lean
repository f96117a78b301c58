import Ostep.Construction.VectorAdd
import Ostep.Library.Progress

namespace Ostep.VectorAdd

open Library Locking

/-- Only the number of retries is accessed without a lock. -/
def Act.Quiet : Act → Prop
  | .readRetry | .writeRetry _ => True
  | _ => False

/-- Without the second lock a thread holds the first one, also when they are the same. -/
theorem erase_pair (first second : Lock) : [first, second].erase second = [first] := by
  by_cases same : first = second <;> simp [same]

/-- A thread that takes a second lock without waiting for itself has two different locks. -/
theorem nodup_of_alone {first second : Lock} (alone : second ∉ [first, second].erase second) :
    [first, second].Nodup := by
  rw [erase_pair, List.mem_singleton] at alone
  simp [Ne.symm alone]

theorem globalOrder_below {call : Call} (below : call.dst < call.src) :
    acquire .globalOrder call = [.lock (.vector call.dst), .lock (.vector call.src)] ∧
      release .globalOrder call = [.vector call.src, .vector call.dst] := by
  simp only [acquire, release, below, if_true, ne_eq, below.ne, not_false_eq_true, and_self]

theorem globalOrder_above {call : Call} (above : call.src < call.dst) :
    acquire .globalOrder call = [.lock (.vector call.src), .lock (.vector call.dst)] ∧
      release .globalOrder call = [.vector call.src, .vector call.dst] := by
  simp only [acquire, release, above, above.not_gt, if_true, if_false, ne_eq, above.ne', not_false_eq_true, and_self]

theorem globalOrder_same {call : Call} (same : call.dst = call.src) :
    acquire .globalOrder call = [.lock (.vector call.src)] ∧ release .globalOrder call = [.vector call.src] := by
  simp only [acquire, release, same, lt_irrefl, if_false, ne_eq, not_true_eq_false, and_self]

/-- Every version releases the locks that it takes. -/
theorem owes_acquire (version : Version) (call : Call) : owes (release version call) (acquire version call) = [] := by
  cases version with
  | globalOrder =>
      rcases lt_trichotomy call.dst call.src with below | same | above
      · rw [(globalOrder_below below).1, (globalOrder_below below).2]
        simp [owes]
      · rw [(globalOrder_same same).1, (globalOrder_same same).2]
        simp [owes]
      · rw [(globalOrder_above above).1, (globalOrder_above above).2]
        simp [owes, erase_pair]
  | _ => simp [acquire, release, owes, erase_pair]

theorem sound_acquire (version : Version) (call : Call) :
    Sound Act.Quiet (release version call) (acquire version call) := by
  cases version with
  | deadlock =>
      refine .lock ?_ fun _ => .lock ?_ fun alone => .nil (nodup_of_alone alone)
      · simp [owes, release, erase_pair]
      · simp [owes, release]
  | globalOrder =>
      rcases lt_trichotomy call.dst call.src with below | same | above
      · rw [(globalOrder_below below).1, (globalOrder_below below).2]
        exact .lock (by simp [owes]) fun _ => .lock (by simp [owes]) fun _ => .nil (by simp [below.ne'])
      · rw [(globalOrder_same same).1, (globalOrder_same same).2]
        exact .lock (by simp [owes]) fun _ => .nil (by simp)
      · rw [(globalOrder_above above).1, (globalOrder_above above).2]
        exact .lock (by simp [owes, erase_pair]) fun _ => .lock (by simp [owes])
          fun alone => .nil (nodup_of_alone alone)
  | avoidHoldAndWait =>
      refine .lock ?_ fun _ => .lock ?_ fun _ => .lock ?_ fun alone => .unlock ?_ (.nil (nodup_of_alone ?_))
      · simp [owes, release, erase_pair]
      · simp [owes, release, erase_pair]
      · simp [owes, release]
      · simp [owes, release]
      · simpa [owes, release] using alone
  | tryWait =>
      refine .tryLock ?_ (fun _ => .tryLock ?_ (fun alone => .nil (nodup_of_alone alone)) ?_ ?_) ?_ .again
      · simp [owes, release, erase_pair]
      · simp [owes, release]
      · simp [owes, release, erase_pair]
      · exact .touch trivial (.unlock (by simp [owes]) .again)
      · simp [owes, release, erase_pair]
  | nolock => exact .nil List.nodup_nil

theorem balanced (version : Version) : (vectorAdd version).Balanced Act.Quiet where
  empty := owes_acquire version
  sound := sound_acquire version
  quiet_more act memory after next quiet performed := by
    cases act with
    | readRetry =>
        cases performed
        trivial
    | writeRetry old => cases performed
    | _ => cases quiet

variable {Thread : Type} [DecidableEq Thread] {memory : Loc → Value} {calls : Thread → List Call}
  {schedule : List Thread} {state : State Thread Call Lock Act Loc Value Unit} {trace : List (Return Thread Call Unit)}

/-- The accesses that remain of a loop, with the releases and the return. -/
def Act.work : Act → Nat
  | .readDst _ i => 3 * (vectorSize - i) + 4
  | .readSrc _ i _ => 3 * (vectorSize - (i + 1)) + 6
  | .write _ i _ => 3 * (vectorSize - (i + 1)) + 5
  | .readAddend _ i => 2 * (vectorSize - i) + 4
  | .fetchAndAdd _ i _ => 2 * (vectorSize - (i + 1)) + 5
  | .readRetry => 5
  | .writeRetry _ => 4

omit [DecidableEq Thread] in
/-- Each access lowers the number of those that remain. -/
theorem Act.work_lt {act next : Act} {after : Loc → Value} (performed : perform act memory = (after, .more next)) :
    next.work < act.work := by
  cases act with
  | readDst other i | readAddend other i =>
      simp only [perform] at performed
      split at performed
      · cases performed
        simp only [Act.work]
        omega
      · cases performed
  | writeRetry old => cases performed
  | _ =>
      cases performed
      exact Nat.lt_succ_self _

/-- The last access is followed by the release of two locks and the return. -/
theorem Act.release_lt {act : Act} {after : Loc → Value} {result : Unit}
    (performed : perform act memory = (after, .done result)) : 3 < act.work := by
  cases act with
  | readDst other i | readAddend other i | writeRetry old => exact Nat.le_add_left 4 _
  | _ => cases performed

theorem length_release_le (version : Version) (call : Call) : (release version call).length ≤ 2 := by
  cases version with
  | globalOrder =>
      simp only [release]
      split <;> simp
  | _ => simp [release]

/-- A version that does not go back to its first lock comes closer to its end with every access. -/
theorem shrinks (version : Version) (straight : version ≠ .tryWait) : (vectorAdd version).Shrinks Act.work where
  straight call := by
    change Straight (acquire version call)
    cases version with
    | tryWait => exact absurd rfl straight
    | globalOrder =>
        rcases lt_trichotomy call.dst call.src with below | same | above
        · simp [Straight, (globalOrder_below below).1]
        · simp [Straight, (globalOrder_same same).1]
        · simp [Straight, (globalOrder_above above).1]
    | _ => simp [Straight, acquire]
  more _ _ _ _ performed := Act.work_lt performed
  done call _ _ _ _ performed :=
    (Nat.add_le_add_right (length_release_le version call) 1).trans_lt (Act.release_lt performed)

/-- The locks in the order of the addresses. -/
def Lock.address : Lock → Nat
  | .global => 0
  | .vector index => index

theorem Lock.address_lt (lock : Lock) : lock.address < 2 * maxThreads := by
  cases lock with
  | global => decide
  | vector index => exact index.isLt

/-- The version that compares the addresses never deadlocks, whatever its threads add to each other. -/
theorem globalOrder_not_deadlocked
    (ran : (machine (vectorAdd .globalOrder)).run (initial memory calls) schedule = some (state, trace)) :
    ¬Deadlocked (vectorAdd .globalOrder) state := by
  refine not_deadlocked_of_ordered (balanced .globalOrder) Lock.address Lock.address_lt (fun _ call _ => ?_) ran
  change Ordered Lock.address (release .globalOrder call) (acquire .globalOrder call)
  rcases lt_trichotomy call.dst call.src with below | same | above
  · rw [(globalOrder_below below).1, (globalOrder_below below).2]
    exact .lock (by simp [owes]) (.lock (by simpa [owes, Lock.address] using below) .nil)
  · rw [(globalOrder_same same).1, (globalOrder_same same).2]
    exact .lock (by simp [owes]) .nil
  · rw [(globalOrder_above above).1, (globalOrder_above above).2]
    exact .lock (by simp [owes, erase_pair]) (.lock (by simpa [owes, Lock.address, erase_pair] using above) .nil)

/-- Every run of the version that compares the addresses ends, and it ends with all calls returned. -/
theorem global_order_terminates [Fintype Thread] (memory : Loc → Value) (calls : Thread → List Call)
    (schedule : List Thread) (state : State Thread Call Lock Act Loc Value Unit)
    (trace : List (Return Thread Call Unit))
    (ran : (machine (vectorAdd .globalOrder)).run (initial memory calls) schedule = some (state, trace)) :
    schedule.length ≤ (3 * vectorSize + 8) * ∑ thread, (calls thread).length ∧
      ((∀ thread, ¬(machine (vectorAdd .globalOrder)).Enabled state thread) →
        ∀ thread, (state.workers thread).Finished) := by
  refine ⟨run_length_le (shrinks .globalOrder nofun) (fun call => ?_) ran,
    finished_of_stopped (globalOrder_not_deadlocked ran)⟩
  have two : (acquire .globalOrder call).length ≤ 2 := by
    rcases lt_trichotomy call.dst call.src with below | same | above
    · simp [(globalOrder_below below).1]
    · simp [(globalOrder_same same).1]
    · simp [(globalOrder_above above).1]
  exact Nat.add_le_add_right (Nat.add_le_add_right two (3 * vectorSize + 4)) 2

theorem two_lt_maxThreads : 2 < maxThreads := by
  decide

/-- Two threads that add to each other's source. -/
abbrev twoCrossed : Options := ⟨1, 2, true, false, two_lt_maxThreads⟩

/-- Two threads that add in both directions finish. -/
theorem global_order_terminates_crossed :
    ∃ schedule state trace,
      (machine (vectorAdd .globalOrder)).run twoCrossed.main schedule =
        some (state, trace) ∧
      schedule.length ≤ 616 ∧ ∀ thread, (state.workers thread).Finished := by
  obtain ⟨schedule, state, trace, ran, finished⟩ := exists_finished (shrinks .globalOrder nofun)
    (fun _ _ _ => globalOrder_not_deadlocked) (Machine.run_nil _ twoCrossed.main)
  obtain ⟨short, ends⟩ := global_order_terminates _ _ schedule state trace ran
  exact ⟨schedule, state, trace, ran, short, ends fun thread => not_enabled_of_finished (finished thread)⟩

section AvoidHoldAndWait

/-- The instructions that remain of the version with a global lock. -/
theorem suffix_inherited :
    Inherited (vectorAdd .avoidHoldAndWait) (fun call => call.dst ≠ call.src)
      (fun call rest => call.dst ≠ call.src ∧ rest <:+ acquire .avoidHoldAndWait call) where
  start call different := ⟨different, List.suffix_refl _⟩
  next call instr rest _ suffix := ⟨suffix.1, (List.suffix_cons instr rest).trans suffix.2⟩
  retreat call lock otherwise rest suffix := by simpa [acquire] using suffix.2.subset List.mem_cons_self
  touch call act next rest suffix := by simpa [acquire] using suffix.2.subset List.mem_cons_self

/-- A thread waits for the global lock with no lock, or for a vector with the global lock and without that vector. -/
theorem wants_cases {thread : Thread} (different : ∀ thread, ∀ call ∈ calls thread, call.dst ≠ call.src)
    (ran : (machine (vectorAdd .avoidHoldAndWait)).run (initial memory calls) schedule = some (state, trace))
    {lock : Lock} (waits : (state.workers thread).pc.wants = some lock) :
    lock = .global ∧ (state.workers thread).pc.held (vectorAdd .avoidHoldAndWait) = [] ∨
      .global ∈ (state.workers thread).pc.held (vectorAdd .avoidHoldAndWait) ∧
        lock ∉ (state.workers thread).pc.held (vectorAdd .avoidHoldAndWait) := by
  have code := (run_follows suffix_inherited different ran thread).2
  generalize (state.workers thread).pc = pc at waits code
  rcases pc with _ | ⟨call, _ | ⟨_ | _, rest⟩⟩ | _ | _
  all_goals cases waits
  obtain ⟨different, before, split⟩ := code call _ rfl
  have base : (vectorAdd .avoidHoldAndWait).release call = [.vector call.dst, .vector call.src] := rfl
  -- The lock is the first, the second or the third instruction.
  rcases before with _ | ⟨_, _ | ⟨_, _ | ⟨_, _ | ⟨_, before⟩⟩⟩⟩
  · obtain ⟨rfl, rfl⟩ : lock = .global ∧ rest = _ := by simpa [acquire] using split
    exact Or.inl ⟨rfl, by simp [Pc.held, base, owes, erase_pair]⟩
  · obtain ⟨-, rfl, rfl⟩ : _ ∧ lock = .vector call.dst ∧ rest = _ := by simpa [acquire] using split
    exact Or.inr (by simp [Pc.held, base, owes, erase_pair])
  · obtain ⟨-, -, rfl, rfl⟩ : _ ∧ _ ∧ lock = .vector call.src ∧ rest = _ := by simpa [acquire] using split
    exact Or.inr (by simp [Pc.held, base, owes, erase_pair, different.symm])
  · simp [acquire] at split
  · simp [acquire] at split

/-- The version with a global lock never deadlocks unless a call adds a vector to itself. -/
theorem avoidHoldAndWait_not_deadlocked (different : ∀ thread, ∀ call ∈ calls thread, call.dst ≠ call.src)
    (ran : (machine (vectorAdd .avoidHoldAndWait)).run (initial memory calls) schedule = some (state, trace)) :
    ¬Deadlocked (vectorAdd .avoidHoldAndWait) state := by
  have owned := run_owned (balanced .avoidHoldAndWait) ran
  rintro ⟨⟨thread, unfinished⟩, blocked⟩
  -- A thread with the global lock waits for a vector whose owner has released the global lock and waits for nothing.
  have holder (thread : Thread) (holds : .global ∈ (state.workers thread).pc.held (vectorAdd .avoidHoldAndWait)) :
      False := by
    have owner := (owned.owns .global thread).mpr holds
    obtain ⟨lock, other, waits, taken⟩ := exists_owner_of_blocked (owned.unfinished_of_owner owner) (blocked thread)
    have theirs := owned.mem_held taken
    obtain ⟨-, none⟩ | ⟨-, absent⟩ := wants_cases different ran waits
    · simp [none] at holds
    obtain ⟨next, last, wanted, -⟩ := exists_owner_of_blocked (owned.unfinished_of_owner taken) (blocked other)
    obtain ⟨-, none⟩ | ⟨also, -⟩ := wants_cases different ran wanted
    · simp [none] at theirs
    · exact absent (owned.owns.unique also holds ▸ theirs)
  obtain ⟨lock, other, waits, taken⟩ := exists_owner_of_blocked unfinished (blocked thread)
  obtain ⟨rfl, -⟩ | ⟨holds, -⟩ := wants_cases different ran waits
  · exact holder other (owned.mem_held taken)
  · exact holder thread holds

/-- Every run of the version with a global lock ends, and it ends with all calls returned unless a call adds a
vector to itself. -/
theorem avoid_hold_and_wait_terminates [Fintype Thread] (memory : Loc → Value) (calls : Thread → List Call)
    (different : ∀ thread, ∀ call ∈ calls thread, call.dst ≠ call.src) (schedule : List Thread)
    (state : State Thread Call Lock Act Loc Value Unit) (trace : List (Return Thread Call Unit))
    (ran : (machine (vectorAdd .avoidHoldAndWait)).run (initial memory calls) schedule = some (state, trace)) :
    schedule.length ≤ (3 * vectorSize + 10) * ∑ thread, (calls thread).length ∧
      ((∀ thread, ¬(machine (vectorAdd .avoidHoldAndWait)).Enabled state thread) →
        ∀ thread, (state.workers thread).Finished) :=
  ⟨run_length_le (shrinks .avoidHoldAndWait nofun) (fun _ => Nat.le_refl _) ran,
    finished_of_stopped (avoidHoldAndWait_not_deadlocked different ran)⟩

/-- Two threads that add in both directions finish. -/
theorem avoid_hold_and_wait_terminates_crossed :
    ∃ schedule state trace,
      (machine (vectorAdd .avoidHoldAndWait)).run twoCrossed.main schedule =
        some (state, trace) ∧
      schedule.length ≤ 620 ∧ ∀ thread, (state.workers thread).Finished := by
  have different : ∀ thread, ∀ call ∈ twoCrossed.worker thread, call.dst ≠ call.src := by
    decide
  obtain ⟨schedule, state, trace, ran, finished⟩ := exists_finished (shrinks .avoidHoldAndWait nofun)
    (fun _ _ _ => avoidHoldAndWait_not_deadlocked different)
    (Machine.run_nil _ twoCrossed.main)
  obtain ⟨short, ends⟩ := avoid_hold_and_wait_terminates _ _ different schedule state trace ran
  exact ⟨schedule, state, trace, ran, short, ends fun thread => not_enabled_of_finished (finished thread)⟩

end AvoidHoldAndWait

section Main

variable {options : Options}

/-- Threads that add in both directions between the same two vectors. -/
def Options.Crossed (options : Options) : Prop :=
  options.causeDeadlock = true ∧ options.enableParallelism = false ∧ 2 ≤ options.numThreads ∧ 1 ≤ options.loops

/-- The order in which the threads take their locks. With the option `-d` every second pair is swapped. -/
def Options.rank (options : Options) : Lock → Nat
  | .global => 0
  | .vector index =>
      if options.causeDeadlock ∧ index.val / 2 % 2 = 1 then index.val / 2 * 2 + (1 - index.val % 2) else index.val

theorem Options.rank_lt (options : Options) (lock : Lock) : options.rank lock < 2 * maxThreads := by
  cases lock with
  | global => exact Nat.succ_pos _
  | vector index =>
      have bound := index.isLt
      simp only [rank]
      split <;> omega

/-- The vectors of a thread are in the order of their ranks unless threads cross. -/
theorem Options.rank_dst_lt (straight : ¬options.Crossed) (thread : Fin options.numThreads) {call : Call}
    (member : call ∈ options.worker thread) :
    options.rank (.vector call.dst) < options.rank (.vector call.src) := by
  obtain ⟨some, rfl⟩ := List.mem_replicate.mp member
  have bound := thread.isLt
  rcases cause : options.causeDeadlock with _ | _ <;> rcases parallel : options.enableParallelism with _ | _
  · simp [vectorAddOrder, vector0, vector1, rank, cause, parallel]
  · simp [vectorAddOrder, vector0, vector1, rank, cause, parallel]
  · have alone : thread.val = 0 := by
      by_contra second
      exact straight ⟨cause, parallel, by omega, by omega⟩
    simp [vectorAddOrder, vector0, vector1, rank, cause, parallel, alone]
  · rcases Nat.mod_two_eq_zero_or_one thread.val with even | odd
    · have pair : (thread.val * 2 + 1) / 2 = thread.val := by omega
      simp [vectorAddOrder, vector0, vector1, rank, cause, parallel, even, pair]
    · have pair : (thread.val * 2 + 1) / 2 = thread.val := by omega
      have last : (thread.val * 2 + 1) % 2 = 1 := by omega
      simp [vectorAddOrder, vector0, vector1, rank, cause, parallel, odd, pair, last]

theorem zero_lt_maxThreads : 0 < 2 * maxThreads := by
  decide

theorem one_lt_maxThreads : 1 < 2 * maxThreads := by
  decide

def lowVector : Index := ⟨0, zero_lt_maxThreads⟩

def highVector : Index := ⟨1, one_lt_maxThreads⟩

/-- The call of a thread that shares the first two vectors with all others. -/
def sharedCall (swapped : Bool) : Call := if swapped then ⟨highVector, lowVector⟩ else ⟨lowVector, highVector⟩

theorem Options.worker_eq (crossed : options.Crossed) (thread : Fin options.numThreads) :
    options.worker thread = sharedCall (options.vectorAddOrder thread) ::
      List.replicate (options.loops - 1) (sharedCall (options.vectorAddOrder thread)) := by
  obtain ⟨cause, parallel, -, some⟩ := crossed
  have loops : options.loops = options.loops - 1 + 1 := by omega
  rw [worker, loops, List.replicate_succ, Nat.add_sub_cancel]
  cases options.vectorAddOrder thread <;> simp [sharedCall, lowVector, highVector, vector0, vector1, parallel]

def lowLock : Lock := .vector lowVector

def highLock : Lock := .vector highVector

/-- A thread that has started its first call. -/
def Options.started (options : Options) (version : Version) (thread : Fin options.numThreads) :
    Worker Call Lock Act Unit :=
  let call := sharedCall (options.vectorAddOrder thread)
  ⟨.acquiring call (acquire version call), List.replicate (options.loops - 1) call⟩

theorem Options.run_started (crossed : options.Crossed) (version : Version) :
    (machine (vectorAdd version)).run options.main (List.finRange options.numThreads) =
      some (⟨vectorInit, fun _ => none, options.started version⟩, []) := by
  refine (run_start (List.nodup_finRange options.numThreads)
    fun thread _ => congrArg (Worker.mk Pc.idle) (options.worker_eq crossed thread)).trans ?_
  simp only [List.mem_finRange, if_true]
  rfl

/-- Two threads that hold one vector each and wait for the other one block all threads. -/
theorem Options.exists_deadlocked (crossed : options.Crossed) :
    ∃ schedule state trace, (machine (vectorAdd .deadlock)).run options.main schedule = some (state, trace) ∧
      Deadlocked (vectorAdd .deadlock) state := by
  have ⟨cause, _, two, _⟩ := crossed
  let first : Fin options.numThreads := ⟨0, by omega⟩
  let second : Fin options.numThreads := ⟨1, by omega⟩
  let calls (swapped : Bool) := List.replicate (options.loops - 1) (sharedCall swapped)
  have different : second ≠ first := by simp [first, second]
  have apart : highLock ≠ lowLock := by decide
  have code (swapped : Bool) : acquire .deadlock (sharedCall swapped) =
      if swapped then [.lock highLock, .lock lowLock] else [.lock lowLock, .lock highLock] := by
    cases swapped <;> rfl
  have firstWaits : options.started .deadlock first =
      ⟨.acquiring (sharedCall false) [.lock lowLock, .lock highLock], calls false⟩ := by
    simp [started, vectorAddOrder, first, calls, code]
  have secondWaits : options.started .deadlock second =
      ⟨.acquiring (sharedCall true) [.lock highLock, .lock lowLock], calls true⟩ := by
    simp [started, vectorAddOrder, second, cause, calls, code]
  let owner := Function.update (fun _ => none) lowLock (some first)
  let workers := Function.update (options.started .deadlock) first
    ⟨.acquiring (sharedCall false) [.lock highLock], calls false⟩
  have firstTakes : (machine (vectorAdd .deadlock)).step ⟨vectorInit, fun _ => none, options.started .deadlock⟩ first =
      some (⟨vectorInit, owner, workers⟩, []) := step_lock firstWaits rfl
  have secondTakes := @step_lock _ _ _ _ _ _ _ _ _ (vectorAdd .deadlock) second vectorInit owner workers _ _ _ _
    ((Function.update_of_ne different _ _).trans secondWaits) (Function.update_of_ne apart _ _)
  have ran := (machine (vectorAdd .deadlock)).run_append (options.run_started crossed .deadlock)
    ((machine (vectorAdd .deadlock)).run_cons_eq_some.mpr ⟨_, _, _, firstTakes,
      (machine (vectorAdd .deadlock)).run_cons_eq_some.mpr ⟨_, _, _, secondTakes,
        (machine (vectorAdd .deadlock)).run_nil _, rfl⟩, rfl⟩)
  refine ⟨_, _, _, ran, ⟨first, ?_⟩, fun thread => ?_⟩
  · rintro ⟨idle, -⟩
    simp [workers, Function.update_of_ne different.symm] at idle
  · have waits : (Function.update workers second
        ⟨.acquiring (sharedCall true) [.lock lowLock], calls true⟩ thread).pc.wants = some lowLock ∨
        (Function.update workers second
          ⟨.acquiring (sharedCall true) [.lock lowLock], calls true⟩ thread).pc.wants = some highLock := by
      by_cases isSecond : thread = second
      · simp [isSecond, Pc.wants]
      by_cases isFirst : thread = first
      · simp [isFirst, different.symm, workers, Pc.wants]
      cases swapped : options.vectorAddOrder thread
      · simp [isSecond, isFirst, workers, started, swapped, code, Pc.wants]
      · simp [isSecond, isFirst, workers, started, swapped, code, Pc.wants]
    rcases waits with waits | waits
    · have taken : Function.update owner highLock (some second) lowLock = some first := by simp [owner, apart.symm]
      exact blocked_of_owner waits taken
    · have taken : Function.update owner highLock (some second) highLock = some second := Function.update_self ..
      exact blocked_of_owner waits taken

/-- The version without an order of its locks deadlocks under `main` exactly when two threads
add in both directions between the same vectors. -/
theorem main_deadlock_iff (options : Options) :
    (∃ schedule state trace, (machine (vectorAdd .deadlock)).run options.main schedule = some (state, trace) ∧
      Deadlocked (vectorAdd .deadlock) state) ↔ options.Crossed := by
  constructor
  · rintro ⟨schedule, state, trace, ran, deadlocked⟩
    by_contra straight
    refine not_deadlocked_of_ordered (balanced .deadlock) options.rank options.rank_lt
      (fun thread call member => ?_) ran deadlocked
    exact .lock (by simp [owes, vectorAdd, release, erase_pair])
      (.lock (by simpa [owes, vectorAdd, release, erase_pair] using Options.rank_dst_lt straight thread member) .nil)
  · exact Options.exists_deadlocked

end Main

end Ostep.VectorAdd
