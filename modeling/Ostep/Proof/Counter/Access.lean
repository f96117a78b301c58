import Mathlib.Tactic.LinearCombination
import Mathlib.Tactic.Ring
import Ostep.Library.Count
import Ostep.Library.Mutex
import Ostep.Construction.Counter

namespace Ostep.Counter

open Library Library.Count Library.Mutex

variable {Id Thread : Type}

/-- The mutexes that a thread holds. -/
def Pc.held : Pc Id → List (Lock Id)
  | .outside | .lockLocal _ | .lockGet => []
  | .readLocal id | .writeLocal id _ | .testLocal id | .lockGlobal id | .resetLocal id _
  | .unlockLocal id => [.llock id]
  | .readOperands id | .readBatch id _ | .readValue id _ | .writeValue id _ _
  | .unlockGlobal id _ => [.glock, .llock id]
  | .readGet | .unlockGet _ => [.glock]

/-- What a thread has read is still there. -/
def Pc.Sound (counter : Approx Id) : Pc Id → Prop
  | .writeLocal id read => read = counter.localValue id
  | .readBatch _ value => value = counter.value
  | .readValue id batch => batch = counter.localValue id
  | .writeValue id value batch => value = counter.value ∧ batch = counter.localValue id
  | .unlockGlobal id batch | .resetLocal id batch => batch = counter.localValue id
  | .unlockGet tmp => tmp = counter.value
  | _ => True

/-- The increment that a thread has stored and not completed, and its batch while it is stored twice. -/
def Pc.surplus : Pc Id → Word
  | .testLocal _ | .lockGlobal _ | .readOperands _ | .readBatch _ _ | .readValue _ _ | .writeValue _ _ _
  | .unlockLocal _ => 1
  | .unlockGlobal _ batch | .resetLocal _ batch => 1 + batch
  | _ => 0

/-- The mutexes protect what a thread has read. -/
theorem Pc.Sound.frame {before after : Approx Id} {pc : Pc Id} (sound : pc.Sound before)
    (value : .glock ∈ pc.held → after.value = before.value)
    (locals : ∀ id, .llock id ∈ pc.held → after.localValue id = before.localValue id) : pc.Sound after := by
  cases pc with
  | writeLocal id read => exact sound.trans (locals id (by simp [Pc.held])).symm
  | readBatch id read => exact sound.trans (value (by simp [Pc.held])).symm
  | readValue id batch => exact sound.trans (locals id (by simp [Pc.held])).symm
  | writeValue id read batch =>
      exact ⟨sound.1.trans (value (by simp [Pc.held])).symm, sound.2.trans (locals id (by simp [Pc.held])).symm⟩
  | unlockGlobal id batch => exact sound.trans (locals id (by simp [Pc.held])).symm
  | resetLocal id batch => exact sound.trans (locals id (by simp [Pc.held])).symm
  | unlockGet tmp => exact sound.trans (value (by simp [Pc.held])).symm
  | _ => trivial

/-- A thread outside the sections of the local locks has no surplus. -/
theorem Pc.surplus_eq_zero {pc : Pc Id} (outside : ¬pc.HoldsLocal) : pc.surplus = 0 := by
  cases pc with
  | outside => rfl
  | lockLocal id => rfl
  | readLocal id => rfl
  | writeLocal id read => rfl
  | lockGet => rfl
  | readGet => rfl
  | unlockGet tmp => rfl
  | _ => exact absurd trivial outside

theorem held_update [DecidableEq Thread] (threads : Thread → Pc Id) (thread : Thread) (next : Pc Id) :
    (fun other => (Function.update threads thread next other).held) =
      Function.update (fun other => (threads other).held) thread next.held :=
  Function.comp_update Pc.held threads thread next

variable [DecidableEq Id]

/-- The accesses of a thread, with their guards. -/
inductive Access (counter : Approx Id) (thread : Thread) (owner : Lock Id → Option Thread) :
    Pc Id → Approx Id → (Lock Id → Option Thread) → Pc Id → List (Event Thread) → Prop where
  | lockLocal (id : Id) (free : owner (.llock id) = none) :
      Access counter thread owner (.lockLocal id) counter (Function.update owner (.llock id) (some thread))
        (.readLocal id) []
  | readLocal (id : Id) :
      Access counter thread owner (.readLocal id) counter owner (.writeLocal id (counter.localValue id)) []
  | writeLocal (id : Id) (read : Word) :
      Access counter thread owner (.writeLocal id read)
        { counter with localValue := Function.update counter.localValue id (read + 1) } owner (.testLocal id) []
  | flush (id : Id) : Access counter thread owner (.testLocal id) counter owner (.lockGlobal id) []
  | skip (id : Id) : Access counter thread owner (.testLocal id) counter owner (.unlockLocal id) []
  | lockGlobal (id : Id) (free : owner .glock = none) :
      Access counter thread owner (.lockGlobal id) counter (Function.update owner .glock (some thread))
        (.readOperands id) []
  | valueFirst (id : Id) :
      Access counter thread owner (.readOperands id) counter owner (.readBatch id counter.value) []
  | batchFirst (id : Id) :
      Access counter thread owner (.readOperands id) counter owner (.readValue id (counter.localValue id)) []
  | readBatch (id : Id) (value : Word) :
      Access counter thread owner (.readBatch id value) counter owner (.writeValue id value (counter.localValue id)) []
  | readValue (id : Id) (batch : Word) :
      Access counter thread owner (.readValue id batch) counter owner (.writeValue id counter.value batch) []
  | writeValue (id : Id) (value batch : Word) :
      Access counter thread owner (.writeValue id value batch) { counter with value := value + batch } owner
        (.unlockGlobal id batch) [.flushed batch]
  | unlockGlobal (id : Id) (batch : Word) :
      Access counter thread owner (.unlockGlobal id batch) counter (Function.update owner .glock none)
        (.resetLocal id batch) []
  | resetLocal (id : Id) (batch : Word) :
      Access counter thread owner (.resetLocal id batch)
        { counter with localValue := Function.update counter.localValue id 0 } owner (.unlockLocal id) []
  | unlockLocal (id : Id) :
      Access counter thread owner (.unlockLocal id) counter (Function.update owner (.llock id) none) .outside
        [.incremented thread]
  | lockGet (free : owner .glock = none) :
      Access counter thread owner .lockGet counter (Function.update owner .glock (some thread)) .readGet []
  | readGet : Access counter thread owner .readGet counter owner (.unlockGet counter.value) []
  | unlockGet (tmp : Word) :
      Access counter thread owner (.unlockGet tmp) counter (Function.update owner .glock none) .outside
        [.got thread tmp]

variable {counter after : Approx Id} {owner owner' : Lock Id → Option Thread} {thread : Thread} {pc next : Pc Id}
  {events : List (Event Thread)}

theorem access_cases {valueFirst : Bool}
    (accessed : access counter owner thread valueFirst pc = some (after, owner', next, events)) :
    Access counter thread owner pc after owner' next events := by
  cases pc with
  | outside => cases accessed
  | lockLocal id =>
      simp only [access, Option.ite_none_right_eq_some] at accessed
      obtain ⟨free, same⟩ := accessed
      cases same
      exact .lockLocal id free
  | readLocal id =>
      cases accessed
      exact .readLocal id
  | writeLocal id read =>
      cases accessed
      exact .writeLocal id read
  | testLocal id =>
      simp only [access] at accessed
      split at accessed
      · cases accessed
        exact .flush id
      · cases accessed
        exact .skip id
  | lockGlobal id =>
      simp only [access, Option.ite_none_right_eq_some] at accessed
      obtain ⟨free, same⟩ := accessed
      cases same
      exact .lockGlobal id free
  | readOperands id =>
      simp only [access] at accessed
      split at accessed
      · cases accessed
        exact .valueFirst id
      · cases accessed
        exact .batchFirst id
  | readBatch id value =>
      cases accessed
      exact .readBatch id value
  | readValue id batch =>
      cases accessed
      exact .readValue id batch
  | writeValue id value batch =>
      cases accessed
      exact .writeValue id value batch
  | unlockGlobal id batch =>
      cases accessed
      exact .unlockGlobal id batch
  | resetLocal id batch =>
      cases accessed
      exact .resetLocal id batch
  | unlockLocal id =>
      cases accessed
      exact .unlockLocal id
  | lockGet =>
      simp only [access, Option.ite_none_right_eq_some] at accessed
      obtain ⟨free, same⟩ := accessed
      cases same
      exact .lockGet free
  | readGet =>
      cases accessed
      exact .readGet
  | unlockGet tmp =>
      cases accessed
      exact .unlockGet tmp

/-- A thread changes only what its mutexes protect. -/
theorem Access.frame (moved : Access counter thread owner pc after owner' next events) :
    (.glock ∉ pc.held → after.value = counter.value) ∧
    ∀ id, .llock id ∉ pc.held → after.localValue id = counter.localValue id := by
  cases moved with
  | writeLocal id read =>
      refine ⟨fun _ => rfl, fun other absent => Function.update_of_ne (fun same => absent ?_) ..⟩
      simp [Pc.held, same]
  | writeValue id value batch => exact ⟨fun absent => absurd (by simp [Pc.held]) absent, fun _ _ => rfl⟩
  | resetLocal id batch =>
      refine ⟨fun _ => rfl, fun other absent => Function.update_of_ne (fun same => absent ?_) ..⟩
      simp [Pc.held, same]
  | _ => exact ⟨fun _ => rfl, fun _ _ => rfl⟩

/-- An access remembers what it has read. -/
theorem Access.sound (moved : Access counter thread owner pc after owner' next events) (sound : pc.Sound counter) :
    next.Sound after := by
  cases moved with
  | readLocal id => rfl
  | valueFirst id => rfl
  | batchFirst id => rfl
  | readBatch id value => exact ⟨sound, rfl⟩
  | readValue id batch => exact ⟨rfl, sound⟩
  | writeValue id value batch => exact sound.2
  | unlockGlobal id batch => exact sound
  | readGet => rfl
  | _ => trivial

/-- An access takes or releases the mutex it names. -/
theorem Access.owns [DecidableEq Thread] {held : Thread → List (Lock Id)}
    (moved : Access counter thread owner pc after owner' next events) (owned : Owns owner held)
    (current : held thread = pc.held) : Owns owner' (Function.update held thread next.held) := by
  cases moved with
  | lockLocal id free =>
      apply owned.take free
      simp [current, Pc.held]
  | lockGlobal id free =>
      apply owned.take free
      simp [current, Pc.held]
  | lockGet free =>
      apply owned.take free
      simp [current, Pc.held]
  | unlockGlobal id batch =>
      refine owned.release (by simp [current, Pc.held]) fun other => ?_
      rw [current]
      cases other <;> simp [Pc.held]
  | unlockLocal id =>
      refine owned.release (by simp [current, Pc.held]) fun other => ?_
      simp [current, Pc.held]
  | unlockGet tmp =>
      refine owned.release (by simp [current, Pc.held]) fun other => ?_
      simp [current, Pc.held]
  | _ => exact owned.keep current.symm

theorem completed_append (past events : List (Event Thread)) :
    completed (past ++ events) = completed past + completed events := List.countP_append

theorem flushed_append (past events : List (Event Thread)) :
    flushed (past ++ events) = flushed past ++ flushed events := List.filterMap_append

/-- The value grows by the flushed batches only. -/
theorem Access.flushes (moved : Access counter thread owner pc after owner' next events) (sound : pc.Sound counter) :
    after.value = counter.value + (flushed events).sum := by
  cases moved with
  | writeValue id value batch =>
      change value + batch = counter.value + (batch + 0)
      rw [sound.1, add_zero]
  | _ => exact (add_zero _).symm

/-- Every access balances what is stored against what is completed. -/
theorem Access.balance [Fintype Id] (moved : Access counter thread owner pc after owner' next events)
    (sound : pc.Sound counter) :
    after.value + ∑ id, after.localValue id + pc.surplus =
      counter.value + ∑ id, counter.localValue id + next.surplus + BitVec.ofNat 32 (completed events) := by
  cases moved with
  | writeLocal id read =>
      have change := sum_update (fun value : Word => value) counter.localValue id (read + 1)
      have same : read = counter.localValue id := sound
      change counter.value + ∑ other, Function.update counter.localValue id (read + 1) other + 0 =
        counter.value + ∑ other, counter.localValue other + 1 + 0
      linear_combination change + same
  | writeValue id value batch =>
      change value + batch + ∑ other, counter.localValue other + 1 =
        counter.value + ∑ other, counter.localValue other + (1 + batch) + 0
      rw [sound.1]
      ring
  | resetLocal id batch =>
      have change := sum_update (fun value : Word => value) counter.localValue id 0
      have same : batch = counter.localValue id := sound
      change counter.value + ∑ other, Function.update counter.localValue id 0 other + (1 + batch) =
        counter.value + ∑ other, counter.localValue other + 1 + 0
      linear_combination change + same
  | unlockLocal id =>
      change counter.value + ∑ other, counter.localValue other + 1 =
        counter.value + ∑ other, counter.localValue other + 0 + 1
      rw [add_zero]
  | _ => exact (add_zero _).symm

end Ostep.Counter
