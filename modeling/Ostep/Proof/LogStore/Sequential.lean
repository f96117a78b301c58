import Ostep.Proof.LogStore.Contents

namespace Ostep.LogStore
open Library

/-- A later put replaces the value of its key. -/
theorem latest_append_put (puts : List (Int × Int)) (key value : Int) :
    latest (puts ++ [(key, value)]) = Function.update (latest puts) key (some value) := by
  funext other
  by_cases same : other = key
  · subst same
    simp [latest]
  · rw [Function.update_of_ne same]
    simp [latest, Ne.symm same]

/-- The loop copies the values of the store below its bound. -/
theorem cleanLoop_copied {store : Store} {values : Int → Option Int} (holds : Holds store values)
    (memory : Int → Entry) (bound : Nat) (inside : bound ≤ store.keyRange.toNat) :
    ∃ copy, cleanLoop store (cleanStart memory) bound = some copy ∧ Copied values bound copy := by
  induction bound with
  | zero => exact ⟨_, rfl, cleanStart_copied values memory⟩
  | succ bound ih =>
      obtain ⟨copy, ran, done⟩ := ih (by omega)
      obtain ⟨next, stepped, advanced⟩ := done.step holds (by omega) fun _ _ present => present
      refine ⟨next, by rw [cleanLoop, ran, Option.bind_some, stepped], ?_⟩
      rwa [Function.update_eq_self] at advanced

/-- A clean keeps the values of the store. Above the threshold it leaves one entry for each present key. -/
theorem Holds.clean_head {store : Store} {values : Int → Option Int} (holds : Holds store values)
    (memory : Int → Entry) :
    ∃ next, logstoreClean memory store = some next ∧ Holds next values ∧
      next.capacity = store.capacity ∧ next.keyRange = store.keyRange ∧
      next.head = if belowThreshold store then store.head else rank values store.keyRange.toNat := by
  unfold logstoreClean
  split
  · exact ⟨store, rfl, holds, rfl, rfl, rfl⟩
  · obtain ⟨copy, ran, done⟩ := cleanLoop_copied holds memory store.keyRange.toNat (Nat.le_refl _)
    exact ⟨cleanSwitch store copy, by rw [ran, Option.map_some],
      done.switch holds rfl fun _ _ present => present, rfl, rfl, done.newHead⟩

/-- A clean on either side of the threshold keeps the values of the store. -/
theorem Holds.clean {store : Store} {values : Int → Option Int} (holds : Holds store values)
    (memory : Int → Entry) :
    ∃ next, logstoreClean memory store = some next ∧ Holds next values ∧
      next.capacity = store.capacity ∧ next.keyRange = store.keyRange := by
  obtain ⟨next, cleaned, kept, sameCapacity, sameRange, -⟩ := holds.clean_head memory
  exact ⟨next, cleaned, kept, sameCapacity, sameRange⟩

/-- An allowed call succeeds and keeps the latest values. -/
theorem machine_step_latest {capacity keyRange : Int} {past : List Call} {store : Store} {call : Call}
    (holds : Holds store (latest (past.filterMap Call.written)) ∧
      store.capacity = capacity ∧ store.keyRange = keyRange)
    (allowed : Allowed store call) :
    ∃ next events, machine.step store call = some (next, events) ∧
      Holds next (latest ((past ++ [call]).filterMap Call.written)) ∧
      next.capacity = capacity ∧ next.keyRange = keyRange := by
  obtain ⟨holds, rfl, rfl⟩ := holds
  cases call with
  | put key value =>
      obtain ⟨next, stepped, advanced, sameCapacity, sameRange⟩ :=
        holds.put value allowed.1 allowed.2.1 allowed.2.2
      refine ⟨next, [], by simp [machine, stepped], ?_, sameCapacity, sameRange⟩
      rw [List.filterMap_append]
      change Holds next (latest (past.filterMap Call.written ++ [(key, value)]))
      rwa [latest_append_put]
  | get key =>
      have read := holds.get allowed.1 allowed.2
      refine ⟨store, [(latest (past.filterMap Call.written) key).getD (-1)],
        by simp only [machine, read, Option.map_some], ?_, rfl, rfl⟩
      rwa [List.filterMap_append, List.filterMap_cons_none rfl, List.filterMap_nil, List.append_nil]
  | clean memory =>
      obtain ⟨next, stepped, advanced, sameCapacity, sameRange⟩ := holds.clean memory
      refine ⟨next, [], by simp [machine, stepped], ?_, sameCapacity, sameRange⟩
      rwa [List.filterMap_append, List.filterMap_cons_none rfl, List.filterMap_nil, List.append_nil]

/-- Every allowed call sequence succeeds; a get then returns the value of the most recent put,
and a clean at that moment changes no get. -/
theorem logstore_refines_map (capacity keyRange : Int) (calls : List Call)
    (allowed : machine.Along Allowed (logstoreCreate capacity keyRange) calls) :
    ∃ store replies, machine.run (logstoreCreate capacity keyRange) calls = some (store, replies) ∧
      (∀ key, 0 ≤ key → key < keyRange →
        logstoreGet store key = some ((latest (calls.filterMap Call.written) key).getD (-1))) ∧
      ∀ memory, ∃ cleaned, logstoreClean memory store = some cleaned ∧
        ∀ key, 0 ≤ key → key < keyRange → logstoreGet cleaned key = logstoreGet store key := by
  obtain ⟨store, replies, ran, holds, sameCapacity, sameRange⟩ := machine.run_exists_along Allowed
    (fun past store => Holds store (latest (past.filterMap Call.written)) ∧
      store.capacity = capacity ∧ store.keyRange = keyRange)
    (fun past store call holds allowed => machine_step_latest holds allowed)
    ⟨logstoreCreate_holds capacity keyRange, rfl, rfl⟩ allowed
  subst sameCapacity sameRange
  refine ⟨store, replies, ran, fun key low high => holds.get low high, fun memory => ?_⟩
  obtain ⟨cleaned, stepped, kept, -, sameRange⟩ := holds.clean memory
  refine ⟨cleaned, stepped, fun key low high => ?_⟩
  rw [kept.get low (by rwa [sameRange]), holds.get low high]

/-- Two overwritten keys survive a clean above the threshold. -/
theorem logstore_four_puts :
    ∃ store replies, machine.run (logstoreCreate 5 3)
        [.put 1 10, .put 2 7, .put 1 20, .put 1 30, .clean fun _ => ⟨0, 0⟩, .get 0] = some (store, replies) ∧
      logstoreGet store 1 = some 30 ∧ logstoreGet store 2 = some 7 ∧ logstoreGet store 0 = some (-1) := by
  obtain ⟨store, replies, ran, gets, -⟩ := logstore_refines_map 5 3
    [.put 1 10, .put 2 7, .put 1 20, .put 1 30, .clean fun _ => ⟨0, 0⟩, .get 0]
    (by decide)
  exact ⟨store, replies, ran, gets 1 (by decide) (by decide), gets 2 (by decide) (by decide),
    gets 0 (by decide) (by decide)⟩

end Ostep.LogStore
