import Mathlib.Data.BitVec
import Mathlib.Tactic.LinearCombination
import Mathlib.Tactic.Ring
import Ostep.Proof.VectorAdd.Serial

namespace Ostep.VectorAdd

open Library Locking

variable {Thread : Type} {memory : Loc → Value} {vector : Index} {i : Nat}

/-- What a call adds to a value when its source never changes. -/
def addend (memory : Loc → Value) (vector : Index) (i : Nat) (call : Call) : Value :=
  if call.dst = vector then memory (.value call.src i) else 0

/-- What the current call of a thread still adds to a value. -/
def due (memory : Loc → Value) (vector : Index) (i : Nat) : Pc Call Lock Act Unit → Value
  | .acquiring call _ => addend memory vector i call
  | .inside call (.readAddend _ j) => if j ≤ i then addend memory vector i call else 0
  | .inside call (.fetchAndAdd _ j _) => if j ≤ i then addend memory vector i call else 0
  | _ => 0

/-- What a thread still adds to a value. -/
def owed (memory : Loc → Value) (vector : Index) (i : Nat) (worker : Worker Call Lock Act Unit) : Value :=
  due memory vector i worker.pc + (worker.calls.map (addend memory vector i)).sum

/-- No source of a call is the destination of a call. -/
def Separate (calls : Thread → List Call) : Prop :=
  ∀ reader writer, ∀ read ∈ calls reader, ∀ written ∈ calls writer, read.src ≠ written.dst

/-- The access of a thread is one of its call, and the value that it has read is still there. -/
def Reads (memory : Loc → Value) : Pc Call Lock Act Unit → Prop
  | .acquiring _ rest => rest = []
  | .inside call act =>
      match act with
      | .readAddend other _ => other = call
      | .fetchAndAdd other j value => other = call ∧ value = memory (.value call.src j)
      | _ => False
  | _ => True

variable [DecidableEq Thread] [Fintype Thread]

/-- The values and what is still added to them are constant, and the sources are unchanged. -/
structure Conserved (memory : Loc → Value) (calls : Thread → List Call)
    (state : State Thread Call Lock Act Loc Value Unit) : Prop where
  among : ∀ thread, ∀ call ∈ (state.workers thread).pending, ∃ origin, call ∈ calls origin
  reads : ∀ thread, Reads memory (state.workers thread).pc
  sources : ∀ origin, ∀ call ∈ calls origin, ∀ j, state.memory (.value call.src j) = memory (.value call.src j)
  balance : ∀ vector, ∀ i < vectorSize,
    state.memory (.value vector i) + ∑ thread, owed memory vector i (state.workers thread) =
      memory (.value vector i) + ∑ thread, ((calls thread).map (addend memory vector i)).sum

omit [DecidableEq Thread] in
theorem initial_conserved (memory : Loc → Value) (calls : Thread → List Call) :
    Conserved memory calls (initial memory calls) where
  among thread call member := ⟨thread, member⟩
  reads _ := trivial
  sources _ _ _ _ := rfl
  balance vector i _ := by simp [initial, owed, due]

variable {calls : Thread → List Call} {state : State Thread Call Lock Act Loc Value Unit} {thread : Thread}

omit [DecidableEq Thread] [Fintype Thread] in
/-- Each move adds to the memory what it takes off the account of its thread. -/
theorem owed_move {owner : Lock → Option Thread} {before : Loc → Value} {worker : Worker Call Lock Act Unit}
    {effect : Effect Thread Call Lock Act Loc Value Unit}
    (move : Move (vectorAdd .nolock) owner before thread worker effect) (reads : Reads memory worker.pc)
    (inside : i < vectorSize) :
    effect.memory (.value vector i) + owed memory vector i effect.worker =
      before (.value vector i) + owed memory vector i worker := by
  cases move with
  | start => simp [owed, due]
  | enter => simp [owed, due, vectorAdd, body]
  | @act call act next after calls performed =>
      cases act with
      | readAddend other j =>
          simp only [vectorAdd, perform] at performed
          split at performed
          · cases performed
            rfl
          · cases performed
      | fetchAndAdd other j value =>
          obtain ⟨rfl, rfl⟩ := reads
          cases performed
          by_cases here : Loc.value vector i = .value other.dst j
          · obtain ⟨rfl, rfl⟩ := Loc.value.inj here
            have passed : ¬i + 1 ≤ i := Nat.not_succ_le_self i
            simp only [owed, due, addend, Function.update_self, passed, Nat.le_refl, if_true, if_false]
            ring
          · have same : due memory vector i (.inside other (.readAddend other (j + 1))) =
                due memory vector i (.inside other (.fetchAndAdd other j (memory (.value other.src j)))) := by
              by_cases target : other.dst = vector
              · have elsewhere : j + 1 ≤ i ↔ j ≤ i :=
                  ⟨by omega, fun before => by grind⟩
                simp only [due, elsewhere]
              · simp only [due, addend, target, if_false, ite_self]
            simp only [owed, same, Function.update_of_ne here]
      | _ => exact reads.elim
  | @commit call act after result calls performed =>
      cases act with
      | readAddend other j =>
          simp only [vectorAdd, perform] at performed
          split at performed
          · cases performed
          · next beyond =>
              cases performed
              have passed : ¬j ≤ i := by omega
              simp only [owed, due, passed, if_false]
      | fetchAndAdd other j value => cases performed
      | _ => exact reads.elim
  | release => rfl
  | finish => rfl
  | _ => cases reads

omit [DecidableEq Thread] [Fintype Thread] in
/-- A thread only changes the destination of its call. -/
theorem memory_move {owner : Lock → Option Thread} {before : Loc → Value} {worker : Worker Call Lock Act Unit}
    {effect : Effect Thread Call Lock Act Loc Value Unit}
    (move : Move (vectorAdd .nolock) owner before thread worker effect) (reads : Reads memory worker.pc)
    (untouched : ∀ call ∈ worker.pending, vector ≠ call.dst) (i : Nat) :
    effect.memory (.value vector i) = before (.value vector i) := by
  cases move with
  | @act call act next after calls performed =>
      cases act with
      | readAddend other j =>
          simp only [vectorAdd, perform] at performed
          split at performed <;> cases performed
          rfl
      | fetchAndAdd other j value =>
          obtain ⟨rfl, rfl⟩ := reads
          cases performed
          exact Function.update_of_ne (fun here => untouched other List.mem_cons_self (Loc.value.inj here).1) ..
      | _ => exact reads.elim
  | @commit call act after result calls performed =>
      cases act with
      | readAddend other j =>
          simp only [vectorAdd, perform] at performed
          split at performed <;> cases performed
          rfl
      | fetchAndAdd other j value => cases performed
      | _ => exact reads.elim
  | touch | touched => cases reads
  | _ => rfl

omit [DecidableEq Thread] [Fintype Thread] in
theorem Reads.move {owner : Lock → Option Thread} {before : Loc → Value} {worker : Worker Call Lock Act Unit}
    {effect : Effect Thread Call Lock Act Loc Value Unit} (reads : Reads memory worker.pc)
    (unchanged : ∀ call ∈ worker.pending, ∀ i, before (.value call.src i) = memory (.value call.src i))
    (move : Move (vectorAdd .nolock) owner before thread worker effect) : Reads memory effect.worker.pc := by
  cases move with
  | @act call act next after calls performed =>
      cases act with
      | readAddend other j =>
          obtain rfl : other = call := reads
          simp only [vectorAdd, perform] at performed
          split at performed <;> cases performed
          exact ⟨rfl, unchanged other List.mem_cons_self j⟩
      | fetchAndAdd other j value =>
          cases performed
          exact reads.1
      | _ => exact reads.elim
  | start | enter => rfl
  | commit | release | finish => trivial
  | _ => cases reads

theorem Conserved.step {next : State Thread Call Lock Act Loc Value Unit} {events : List (Return Thread Call Unit)}
    (separate : Separate calls) (conserved : Conserved memory calls state)
    (stepped : Locking.step (vectorAdd .nolock) state thread = some (next, events)) :
    Conserved memory calls next := by
  obtain ⟨effect, move, rfl, rfl⟩ := step_move stepped
  have reads := conserved.reads thread
  refine ⟨?_, ?_, fun origin call member j => ?_, fun vector i inside => ?_⟩
  · exact (Function.forall_update_iff state.workers
      fun _ worker => ∀ call ∈ worker.pending, ∃ origin, call ∈ calls origin).mpr
      ⟨fun call member => conserved.among thread call (move.mem_pending member), fun other _ => conserved.among other⟩
  · refine (Function.forall_update_iff state.workers fun _ worker => Reads memory worker.pc).mpr
      ⟨reads.move (fun call member => ?_) move, fun other _ => conserved.reads other⟩
    obtain ⟨origin, called⟩ := conserved.among thread call member
    exact conserved.sources origin call called
  · have untouched (own : Call) (pending : own ∈ (state.workers thread).pending) : call.src ≠ own.dst := by
      obtain ⟨writer, called⟩ := conserved.among thread own pending
      exact separate origin writer call member own called
    exact (memory_move move reads untouched j).trans (conserved.sources origin call member j)
  · have exchanged := Count.sum_update (owed memory vector i) state.workers thread effect.worker
    have moved : effect.memory (.value vector i) + owed memory vector i effect.worker =
        state.memory (.value vector i) + owed memory vector i (state.workers thread) := owed_move move reads inside
    have balance := conserved.balance vector i inside
    linear_combination balance + moved + exchanged

/-- Calls whose sources never change add up. -/
theorem runSerial_eq {order : List Call} (separate : ∀ read ∈ order, ∀ written ∈ order, read.src ≠ written.dst)
    (memory : Loc → Value) (vector : Index) (inside : i < vectorSize) :
    runSerial memory order (.value vector i) =
      memory (.value vector i) + (order.map (addend memory vector i)).sum := by
  induction order generalizing memory with
  | nil => simp [runSerial]
  | cons call rest ih =>
      have added : addInto call memory (.value vector i) =
          memory (.value vector i) + addend memory vector i call := by
        by_cases target : call.dst = vector
        · simp [addInto, addend, target, inside]
        · simp [addInto, addend, target, Ne.symm target]
      have kept : rest.map (addend (addInto call memory) vector i) = rest.map (addend memory vector i) := by
        refine List.map_congr_left fun later member => ?_
        have unchanged := separate later (List.mem_cons_of_mem _ member) call List.mem_cons_self
        simp only [addend, addInto_other unchanged]
      have rest_eq := ih (fun read member written => separate read (List.mem_cons_of_mem _ member) written ∘
        List.mem_cons_of_mem _) (addInto call memory)
      calc runSerial memory (call :: rest) (.value vector i)
          = runSerial (addInto call memory) rest (.value vector i) := rfl
        _ = memory (.value vector i) + addend memory vector i call + (rest.map (addend memory vector i)).sum := by
            rw [rest_eq, added, kept]
        _ = memory (.value vector i) + ((call :: rest).map (addend memory vector i)).sum := by
            rw [List.map_cons, List.sum_cons, add_assoc]

theorem nolock_inherited :
    Inherited (vectorAdd .nolock) (fun _ => True) (fun _ rest => rest = []) where
  start _ _ := rfl
  next _ _ _ _ more := nomatch more
  retreat _ _ _ _ more := nomatch more
  touch _ _ _ _ more := nomatch more

omit [Fintype Thread] in
/-- A thread without locks waits for nothing. -/
theorem nolock_not_deadlocked {schedule : List Thread} {trace : List (Return Thread Call Unit)}
    (ran : (machine (vectorAdd .nolock)).run (initial memory calls) schedule = some (state, trace)) :
    ¬Deadlocked (vectorAdd .nolock) state := by
  rintro ⟨⟨thread, unfinished⟩, blocked⟩
  obtain ⟨lock, other, waits, -⟩ := exists_owner_of_blocked unfinished (blocked thread)
  have code := (run_follows nolock_inherited (fun _ _ _ => trivial) ran thread).2
  generalize (state.workers thread).pc = pc at waits code
  rcases pc with _ | ⟨call, _ | ⟨instr, rest⟩⟩ | _ | _
  case acquiring.cons => cases code call _ rfl
  all_goals cases waits

omit [DecidableEq Thread] in
theorem runSerial_eq_balance (separate : Separate calls) {order : List Call}
    (same : (order : Multiset Call) = ∑ thread, (calls thread : Multiset Call)) (inside : i < vectorSize) :
    runSerial memory order (.value vector i) =
      memory (.value vector i) + ∑ thread, ((calls thread).map (addend memory vector i)).sum := by
  have origin (call : Call) (member : call ∈ order) : ∃ thread, call ∈ calls thread := by
    have among : call ∈ ∑ thread, (calls thread : Multiset Call) := same ▸ member
    simpa [Multiset.mem_sum] using among
  have apart (read : Call) (reads : read ∈ order) (written : Call) (writes : written ∈ order) :
      read.src ≠ written.dst := by
    obtain ⟨reader, first⟩ := origin read reads
    obtain ⟨writer, second⟩ := origin written writes
    exact separate reader writer read first written second
  have total : (order.map (addend memory vector i)).sum =
      ∑ thread, ((calls thread).map (addend memory vector i)).sum := by
    have split := map_sum (Multiset.sumAddMonoidHom.comp (Multiset.mapAddMonoidHom (addend memory vector i)))
      (fun thread => (calls thread : Multiset Call)) Finset.univ
    rw [← same] at split
    simpa using split
  rw [runSerial_eq apart memory vector inside, total]

/-- Every run without locks ends with all calls returned. When no source is a destination, it leaves what the calls
leave in any serial order. -/
theorem nolock_any_order (memory : Loc → Value) (calls : Thread → List Call) (schedule : List Thread)
    (state : State Thread Call Lock Act Loc Value Unit) (trace : List (Return Thread Call Unit))
    (ran : (machine (vectorAdd .nolock)).run (initial memory calls) schedule = some (state, trace)) :
    schedule.length ≤ (2 * vectorSize + 6) * ∑ thread, (calls thread).length ∧
      ((∀ thread, ¬(machine (vectorAdd .nolock)).Enabled state thread) →
        (∀ thread, (state.workers thread).Finished) ∧
          (Separate calls → ∀ order : List Call, (order : Multiset Call) = ∑ thread, (calls thread : Multiset Call) →
            ∀ vector, ∀ i < vectorSize,
              state.memory (.value vector i) = runSerial memory order (.value vector i))) := by
  refine ⟨run_length_le (shrinks .nolock nofun) (fun _ => Nat.le_of_ble_eq_true rfl) ran, fun stopped => ?_⟩
  have finished := finished_of_stopped (nolock_not_deadlocked ran) stopped
  refine ⟨finished, fun separate order same vector i inside => ?_⟩
  have conserved : Conserved memory calls state :=
    (machine (vectorAdd .nolock)).run_invariant (fun _ state => Conserved memory calls state)
      (fun _ _ _ _ _ conserved stepped => conserved.step separate stepped) (initial_conserved memory calls) ran
  have nothing (thread : Thread) : owed memory vector i (state.workers thread) = 0 := by
    simp [owed, (finished thread).1, (finished thread).2, due]
  have balance := conserved.balance vector i inside
  rw [Finset.sum_congr rfl fun thread _ => nothing thread, Finset.sum_const_zero, add_zero] at balance
  rw [balance, runSerial_eq_balance separate same inside]

/-- Two threads that add the same source to the same destination. -/
abbrev twoShared : Options := ⟨1, 2, false, false, two_lt_maxThreads⟩

/-- Two threads that add the second vector to the first one leave twice its values. -/
theorem nolock_any_order_shared :
    ∃ schedule state trace,
      (machine (vectorAdd .nolock)).run twoShared.main schedule =
        some (state, trace) ∧
      schedule.length ≤ 412 ∧ ∀ i < vectorSize, state.memory (.value ⟨0, by decide⟩ i) = 2 := by
  have separate : Separate twoShared.worker := by
    unfold Separate
    decide
  obtain ⟨schedule, state, trace, ran, finished⟩ := exists_finished (shrinks .nolock nofun)
    (fun _ _ _ => nolock_not_deadlocked) (Machine.run_nil _ twoShared.main)
  obtain ⟨short, ends⟩ := nolock_any_order _ _ schedule state trace ran
  obtain ⟨-, same⟩ := ends fun thread => not_enabled_of_finished (finished thread)
  refine ⟨schedule, state, trace, ran, short, fun i inside => ?_⟩
  rw [same separate [sharedCall false, sharedCall false] rfl _ i inside]
  simp [runSerial, addInto, sharedCall, lowVector, highVector, Options.vectorInit, inside]

end Ostep.VectorAdd
