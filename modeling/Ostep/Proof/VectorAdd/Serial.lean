import Ostep.Library.Serial
import Ostep.Proof.VectorAdd.Deadlock

namespace Ostep.VectorAdd

open Library Locking Linear

/-- The lock of a vector guards its values. -/
def guard : Loc → Option Lock
  | .value vector _ => some (.vector vector)
  | .retry => none

/-- The values before an index have been added. -/
def Partial (call : Call) (i : Nat) (memory logical : Loc → Value) : Prop :=
  ∀ vector j, vector = call.dst ∨ vector = call.src →
    memory (.value vector j) = if vector = call.dst ∧ j < i then addInto call logical (.value vector j)
      else logical (.value vector j)

/-- What a call relies on between its accesses. -/
def Inside (call : Call) (act : Act) (memory logical : Loc → Value) : Prop :=
  match act with
  | .readDst other i => other = call ∧ i ≤ vectorSize ∧ Partial call i memory logical
  | .readSrc other i left =>
      other = call ∧ i < vectorSize ∧ Partial call i memory logical ∧ left = logical (.value call.dst i)
  | .write other i sum =>
      other = call ∧ i < vectorSize ∧ Partial call i memory logical ∧ sum = addInto call logical (.value call.dst i)
  | _ => False

variable {version : Version} {call : Call} {memory logical : Loc → Value}

theorem mem_release_iff (locked : version ≠ .nolock) (call : Call) (vector : Index) :
    Lock.vector vector ∈ release version call ↔ vector = call.dst ∨ vector = call.src := by
  cases version with
  | globalOrder =>
      rcases lt_trichotomy call.dst call.src with below | same | above
      · simp [(globalOrder_below below).2, or_comm]
      · simp [(globalOrder_same same).2, same]
      · simp [(globalOrder_above above).2, or_comm]
  | nolock => exact absurd rfl locked
  | _ => simp [release]

/-- The two vectors of a call are among those that its locks guard. -/
theorem eq_of_agree (locked : version ≠ .nolock) {first second : Loc → Value}
    (agree : Agree guard (release version call) first second) {vector : Index}
    (mine : vector = call.dst ∨ vector = call.src) (j : Nat) : first (.value vector j) = second (.value vector j) :=
  agree _ _ rfl ((mem_release_iff locked call vector).mpr mine)

/-- The sums of a call depend only on its two vectors. -/
theorem addInto_congr {first second : Loc → Value}
    (same : ∀ vector j, vector = call.dst ∨ vector = call.src → first (.value vector j) = second (.value vector j))
    (vector : Index) (j : Nat) (mine : vector = call.dst ∨ vector = call.src) :
    addInto call first (.value vector j) = addInto call second (.value vector j) := by
  simp only [addInto, same _ _ mine, same call.dst j (Or.inl rfl), same call.src j (Or.inr rfl)]

theorem addInto_other {vector : Index} (other : vector ≠ call.dst) (memory : Loc → Value) (j : Nat) :
    addInto call memory (.value vector j) = memory (.value vector j) := by
  simp only [addInto, other, false_and, if_false]

/-- A value that has not been added yet is still there. -/
theorem Partial.unread {i : Nat} (begun : Partial call i memory logical) {vector : Index}
    (mine : vector = call.dst ∨ vector = call.src) : memory (.value vector i) = logical (.value vector i) := by
  rw [begun vector i mine, if_neg fun before => Nat.lt_irrefl i before.2]

theorem Partial.write {i : Nat} (begun : Partial call i memory logical) :
    Partial call (i + 1)
      (Function.update memory (.value call.dst i) (addInto call logical (.value call.dst i))) logical := by
  intro vector j mine
  by_cases here : vector = call.dst ∧ j = i
  · obtain ⟨rfl, rfl⟩ := here
    rw [Function.update_self, if_pos ⟨rfl, Nat.lt_succ_self j⟩]
  · have apart : Loc.value vector j ≠ .value call.dst i := fun same => here (Loc.value.inj same)
    have before : vector = call.dst ∧ j < i + 1 ↔ vector = call.dst ∧ j < i := by grind
    rw [Function.update_of_ne apart, begun vector j mine]
    simp only [before]

/-- A call relies only on its two vectors. -/
theorem Inside.relies (locked : version ≠ .nolock) {act : Act} {memory' logical' : Loc → Value}
    (inside : Inside call act memory logical) (sameMemory : Agree guard (release version call) memory' memory)
    (sameLogical : Agree guard (release version call) logical' logical) : Inside call act memory' logical' := by
  have memories (vector : Index) (j : Nat) (mine : vector = call.dst ∨ vector = call.src) :=
    eq_of_agree locked sameMemory mine j
  have logicals (vector : Index) (j : Nat) (mine : vector = call.dst ∨ vector = call.src) :=
    eq_of_agree locked sameLogical mine j
  have carry {i : Nat} (begun : Partial call i memory logical) : Partial call i memory' logical' := by
    intro vector j mine
    rw [memories vector j mine, begun vector j mine, addInto_congr logicals vector j mine, logicals vector j mine]
  cases act with
  | readDst other i => exact ⟨inside.1, inside.2.1, carry inside.2.2⟩
  | readSrc other i left =>
      refine ⟨inside.1, inside.2.1, carry inside.2.2.1, ?_⟩
      rw [logicals _ _ (Or.inl rfl), inside.2.2.2]
  | write other i sum =>
      refine ⟨inside.1, inside.2.1, carry inside.2.2.1, ?_⟩
      rw [addInto_congr logicals _ _ (Or.inl rfl), inside.2.2.2]
  | _ => exact inside

/-- Each access of the loop changes only the destination. -/
theorem Inside.goes (locked : version ≠ .nolock) {act next : Act} {after : Loc → Value}
    (inside : Inside call act memory logical) (performed : perform act memory = (after, .more next)) :
    Inside call next after logical ∧ AgreeOff guard (release version call) after memory := by
  cases act with
  | readDst other i =>
      obtain ⟨rfl, -, begun⟩ := inside
      simp only [perform] at performed
      split at performed
      · next within =>
          cases performed
          exact ⟨⟨rfl, within, begun, begun.unread (Or.inl rfl)⟩, fun _ _ _ _ => rfl⟩
      · cases performed
  | readSrc other i left =>
      obtain ⟨rfl, within, begun, rfl⟩ := inside
      cases performed
      refine ⟨⟨rfl, within, begun, ?_⟩, fun _ _ _ _ => rfl⟩
      rw [begun.unread (Or.inr rfl), addInto, if_pos ⟨rfl, within⟩]
  | write other i sum =>
      obtain ⟨rfl, within, begun, rfl⟩ := inside
      cases performed
      refine ⟨⟨rfl, within, begun.write⟩, fun loc lock guards apart => Function.update_of_ne ?_ _ _⟩
      rintro rfl
      cases guards
      exact apart ((mem_release_iff locked _ _).mpr (Or.inl rfl))
  | _ => exact inside.elim

/-- The loop ends with all values added. -/
theorem Inside.ends (locked : version ≠ .nolock) {act : Act} {after : Loc → Value} {result : Unit}
    (inside : Inside call act memory logical) (performed : perform act memory = (after, .done result)) :
    Agree guard (release version call) after (addInto call logical) ∧ after = memory := by
  cases act with
  | readDst other i =>
      obtain ⟨rfl, within, begun⟩ := inside
      simp only [perform] at performed
      split at performed
      · cases performed
      · next beyond =>
          cases performed
          refine ⟨?_, rfl⟩
          rintro (⟨vector, j⟩ | _) lock guards member
          · cases guards
            rw [begun vector j ((mem_release_iff locked _ _).mp member), Nat.le_antisymm within (Nat.not_lt.mp beyond)]
            simp only [addInto]
            split
            · rfl
            · rfl
          · cases guards
  | readSrc other i left => cases performed
  | write other i sum => cases performed
  | _ => exact inside.elim

/-- The loop of a locked version adds the source to the destination. -/
theorem guarded (locked : version ≠ .nolock) :
    Guarded (vectorAdd version) Act.Quiet guard (fun call memory => ((), addInto call memory)) Inside where
  begins call memory logical agree := by
    have starts : body version call = .readDst call 0 := by cases version <;> first | rfl | exact absurd rfl locked
    change Inside call (body version call) memory logical
    rw [starts]
    refine ⟨rfl, Nat.zero_le _, fun vector j mine => ?_⟩
    rw [if_neg fun before => Nat.not_lt_zero j before.2]
    exact eq_of_agree locked agree mine j
  relies _ _ _ _ _ _ inside := inside.relies locked
  goes _ _ _ _ _ _ inside := inside.goes locked
  ends _ _ _ _ _ _ inside performed := by
    obtain ⟨agree, rfl⟩ := inside.ends locked performed
    exact ⟨rfl, agree, fun _ _ _ _ => rfl⟩
  applies call logical := by
    rintro (⟨vector, j⟩ | _) lock guards apart
    · cases guards
      exact addInto_other (fun same => apart ((mem_release_iff locked _ _).mpr (Or.inl same))) logical j
    · cases guards
  silent act memory after next quiet performed := by
    rintro (⟨vector, j⟩ | _) lock guards -
    · cases act with
      | readRetry =>
          cases performed
          rfl
      | writeRetry old =>
          have apart : Loc.value vector j ≠ .retry := nofun
          cases performed
          exact Function.update_of_ne apart _ _
      | _ => exact quiet.elim
    · cases guards

theorem replay_addInto (memory : Loc → Value) (calls : List Call) :
    (replay (fun call memory => ((), addInto call memory)) memory calls).2 = runSerial memory calls := by
  induction calls generalizing memory with
  | nil => rfl
  | cons call rest ih => exact ih (addInto call memory)

variable {Thread : Type} [DecidableEq Thread]

theorem release_nodup_iff (locked : version ≠ .nolock) (other : version ≠ .globalOrder) (call : Call) :
    (release version call).Nodup ↔ call.dst ≠ call.src := by
  cases version with
  | nolock => exact absurd rfl locked
  | globalOrder => exact absurd rfl other
  | _ => simp [release]

/-- Interleaved calls of a locked version take effect in a serial order that keeps the order of each thread.
Vectors that are not locked show the values of this order. The three versions that do not compare the vectors never
return from a call that adds a vector to itself. -/
theorem vector_add_serialisable (version : Version) (locked : version ≠ .nolock) (memory : Loc → Value)
    (calls : Thread → List Call) (schedule : List Thread) (state : State Thread Call Lock Act Loc Value Unit)
    (trace : List (Return Thread Call Unit))
    (ran : (machine (vectorAdd version)).run (initial memory calls) schedule = some (state, trace)) :
    (∃ order : List (Return Thread Call Unit),
      (∀ vector i, state.owner (.vector vector) = none →
        state.memory (.value vector i) = runSerial memory (order.map Return.call) (.value vector i)) ∧
      (∀ thread, callsOf thread trace <+: callsOf thread order ∧
        (callsOf thread order).map Prod.fst <+: calls thread) ∧
      ((∀ thread, (state.workers thread).Finished) →
        (∀ lock, state.owner lock = none) ∧ ∀ thread, (callsOf thread order).map Prod.fst = calls thread)) ∧
    (version ≠ .globalOrder → ∀ event ∈ trace, event.call.dst ≠ event.call.src) := by
  obtain ⟨order, logical, serial⟩ := run_serial (balanced version) (guarded locked) ran
  refine ⟨⟨order, fun vector i free => ?_, fun thread => ?_, fun finished => ?_⟩, fun other event member => ?_⟩
  · rw [← replay_addInto, serial.replayed]
    exact serial.shown.free _ _ rfl free
  · refine ⟨?_, (serial.stories thread).calls_begin⟩
    rw [(serial.stories thread).commits_eq]
    exact List.prefix_append _ _
  · exact ⟨serial.owned.free_of_finished finished, fun thread => serial.calls_eq (finished thread)⟩
  · exact (release_nodup_iff locked other _).mp (run_returns_nodup (balanced version) ran event member)

/-- Two threads that add in both directions return both calls and leave the values of a serial order of them. -/
theorem vector_add_serialisable_crossed :
    ∃ schedule state trace, ∃ order : List (Return (Fin twoCrossed.numThreads) Call Unit),
      (machine (vectorAdd .globalOrder)).run twoCrossed.main schedule = some (state, trace) ∧
      (∀ thread, (state.workers thread).Finished) ∧
      (∀ vector i, state.memory (.value vector i) =
        runSerial Options.vectorInit (order.map Return.call) (.value vector i)) ∧
      ∀ thread, (callsOf thread order).map Prod.fst = twoCrossed.worker thread := by
  obtain ⟨schedule, state, trace, ran, finished⟩ := exists_finished (shrinks .globalOrder nofun)
    (fun _ _ _ => globalOrder_not_deadlocked) (Machine.run_nil _ twoCrossed.main)
  obtain ⟨⟨order, shown, -, complete⟩, -⟩ := vector_add_serialisable .globalOrder nofun Options.vectorInit
    twoCrossed.worker schedule state trace ran
  obtain ⟨free, same⟩ := complete finished
  exact ⟨schedule, state, trace, order, ran, finished, fun vector i => shown vector i (free _), same⟩

end Ostep.VectorAdd
