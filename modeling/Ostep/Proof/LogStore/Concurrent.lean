import Ostep.Proof.LogStore.Sequential

namespace Ostep.LogStore
open Library

/-- The cleaner has copied a map of the keys below its loop index.
Every copied key is still present in the store. -/
def Cleaner.Copies (keyRange : Int) (values copied : Int → Option Int) : Cleaner → Prop
  | .idle => True
  | .copying key copy => ∃ bound : Nat, key = bound ∧ bound ≤ keyRange.toNat ∧ Copied copied bound copy ∧
      ∀ index : Nat, index < bound → (copied (index : Int)).isSome → (values (index : Int)).isSome

/-- The store holds one map and the cleaner has copied part of another. -/
structure SharedHolds (shared : Shared) (values copied : Int → Option Int) : Prop where
  holds : Holds shared.store values
  copies : shared.cleaner.Copies shared.store.keyRange values copied

/-- A put keeps the copied part. -/
theorem Cleaner.Copies.put {keyRange : Int} {values copied : Int → Option Int} {cleaner : Cleaner}
    (copies : cleaner.Copies keyRange values copied) (key value : Int) :
    cleaner.Copies keyRange (Function.update values key (some value)) copied := by
  cases cleaner with
  | idle => trivial
  | copying next copy =>
      obtain ⟨bound, same, inside, done, live⟩ := copies
      refine ⟨bound, same, inside, done, fun index below present => ?_⟩
      by_cases equal : (index : Int) = key
      · simp [equal]
      · rw [Function.update_of_ne equal]
        exact live index below present

/-- One iteration of the copy loop copies the stored value of its key. -/
theorem Cleaner.Copies.copy {store : Store} {values copied : Int → Option Int} {bound : Nat} {copy : Copy}
    (holds : Holds store values) (copies : (Cleaner.copying bound copy).Copies store.keyRange values copied)
    (inside : (bound : Int) < store.keyRange) :
    ∃ after, cleanCopy store bound copy = some after ∧
      (Cleaner.copying (bound + 1 : Nat) after).Copies store.keyRange values
        (Function.update copied bound (values bound)) := by
  obtain ⟨_, same, -, done, live⟩ := copies
  obtain rfl := Int.ofNat.inj same
  obtain ⟨after, copyStep, advanced⟩ := done.step holds inside live
  refine ⟨after, copyStep, bound + 1, rfl, by omega, advanced, fun index below present => ?_⟩
  rcases Nat.lt_succ_iff_lt_or_eq.mp below with less | rfl
  · rw [Function.update_of_ne (by omega)] at present
    exact live index less present
  · rwa [Function.update_self] at present

/-- Each step of the shared store acts on the stored map and on the copied map. -/
theorem SharedHolds.step {shared next : Shared} {values copied : Int → Option Int} {action : Action}
    {events : List (Int × Int)} (state : SharedHolds shared values copied)
    (allowed : SharedAllowed shared action)
    (stepped : sharedStep shared action = some (next, events)) :
    next.store.keyRange = shared.store.keyRange ∧
    match action with
    | .put key value => SharedHolds next (Function.update values key (some value)) copied ∧
        next.cleaner = shared.cleaner
    | .get _ => next = shared
    | .testThreshold _ => ∀ fresh, SharedHolds next values fresh
    | .copy => ∃ bound : Nat, (∃ copy, shared.cleaner = .copying bound copy) ∧
        (∃ copy, next.cleaner = .copying (bound + 1 : Nat) copy) ∧
        SharedHolds next values (Function.update copied bound (values bound))
    | .switch => SharedHolds next copied copied := by
  obtain ⟨holds, copies⟩ := state
  cases action with
  | put key value =>
      obtain ⟨store, put, advanced, -, sameRange⟩ := holds.put value allowed.1 allowed.2.1 allowed.2.2
      simp only [sharedStep, put, Option.map_some, Option.some.injEq, Prod.mk.injEq] at stepped
      obtain ⟨rfl, -⟩ := stepped
      refine ⟨sameRange, ⟨advanced, ?_⟩, rfl⟩
      simpa only [sameRange] using copies.put key value
  | get key =>
      simp only [sharedStep, Option.map_eq_some_iff, Prod.mk.injEq] at stepped
      obtain ⟨_, -, rfl, -⟩ := stepped
      exact ⟨rfl, rfl⟩
  | testThreshold memory =>
      simp only [sharedStep] at stepped
      split at stepped
      · simp only [Option.some.injEq, Prod.mk.injEq] at stepped
        obtain ⟨rfl, -⟩ := stepped
        refine ⟨rfl, fun fresh => ⟨holds, ?_⟩⟩
        cases belowThreshold shared.store
        · exact ⟨0, rfl, Nat.zero_le _, cleanStart_copied fresh memory, fun _ below => by omega⟩
        · trivial
      · simp at stepped
  | copy =>
      simp only [sharedStep] at stepped
      split at stepped
      · rename_i key copy working
        split at stepped
        · rename_i inside
          rw [working] at copies
          obtain ⟨bound, rfl⟩ : ∃ bound : Nat, key = bound := copies.imp fun _ part => part.1
          obtain ⟨after, copyStep, advanced⟩ := copies.copy holds inside
          simp only [copyStep, Option.map_some, Option.some.injEq, Prod.mk.injEq] at stepped
          obtain ⟨rfl, -⟩ := stepped
          exact ⟨rfl, bound, ⟨copy, working⟩, ⟨after, rfl⟩, holds, advanced⟩
        · simp at stepped
      · simp at stepped
  | switch =>
      simp only [sharedStep] at stepped
      split at stepped
      · rename_i key copy working
        split at stepped
        · simp at stepped
        · rename_i outside
          rw [working] at copies
          obtain ⟨bound, rfl, inside, done, live⟩ := copies
          simp only [Option.some.injEq, Prod.mk.injEq] at stepped
          obtain ⟨rfl, -⟩ := stepped
          exact ⟨rfl, done.switch holds (by omega) live, trivial⟩
      · simp at stepped

theorem sharedStart_holds (capacity keyRange : Int) (copied : Int → Option Int) :
    SharedHolds (sharedStart capacity keyRange) (fun _ => none) copied :=
  ⟨logstoreCreate_holds capacity keyRange, trivial⟩

/-- A put ahead of the loop index leaves the copied keys as they are in the store. -/
theorem Cleaner.Copies.put_ahead {keyRange : Int} {values : Int → Option Int} {cleaner : Cleaner}
    (copies : cleaner.Copies keyRange values values) (key value : Int)
    (ahead : cleaner.Unread key) :
    cleaner.Copies keyRange (Function.update values key (some value))
      (Function.update values key (some value)) := by
  cases cleaner with
  | idle => trivial
  | copying next copy =>
      obtain ⟨bound, rfl, inside, done, -⟩ := copies
      have above : (bound : Int) ≤ key := ahead
      refine ⟨bound, rfl, inside, done.congr fun index below => ?_, fun _ _ present => present⟩
      exact Function.update_of_ne (by omega) _ _

/-- A conforming step keeps the latest values in the store and in the copied part. -/
theorem SharedHolds.step_latest {actions : List Action} {shared next : Shared} {action : Action}
    {events : List (Int × Int)}
    (state : SharedHolds shared (latest (actions.filterMap Action.written))
      (latest (actions.filterMap Action.written)))
    (allowed : SharedAllowed shared action) (ahead : PutAhead shared action)
    (stepped : sharedStep shared action = some (next, events)) :
    SharedHolds next (latest ((actions ++ [action]).filterMap Action.written))
      (latest ((actions ++ [action]).filterMap Action.written)) := by
  obtain ⟨sameRange, effect⟩ := state.step allowed stepped
  have silent (quiet : action.written = none) :
      (actions ++ [action]).filterMap Action.written = actions.filterMap Action.written := by
    rw [List.filterMap_append, List.filterMap_cons_none quiet, List.filterMap_nil, List.append_nil]
  cases action with
  | put key value =>
      obtain ⟨⟨holds, -⟩, sameCleaner⟩ := effect
      have written : (actions ++ [Action.put key value]).filterMap Action.written =
          actions.filterMap Action.written ++ [(key, value)] := by
        rw [List.filterMap_append]
        rfl
      rw [written, latest_append_put]
      refine ⟨holds, ?_⟩
      rw [sameRange, sameCleaner]
      exact state.copies.put_ahead key value ahead
  | get key =>
      rw [silent rfl, effect]
      exact state
  | testThreshold memory =>
      rw [silent rfl]
      exact effect _
  | copy =>
      obtain ⟨bound, -, -, advanced⟩ := effect
      rw [Function.update_eq_self] at advanced
      rw [silent rfl]
      exact advanced
  | switch =>
      rw [silent rfl]
      exact effect

/-- A clean with all its remaining steps installs a map that keeps the copied keys. -/
theorem finish_clean {values copied : Int → Option Int} (remaining : Nat) {shared : Shared} {bound : Nat}
    {copy : Copy} (state : SharedHolds shared values copied) (working : shared.cleaner = .copying bound copy)
    (rest : bound + remaining = shared.store.keyRange.toNat) :
    ∃ final copied',
      sharedMachine.run shared (List.replicate remaining Action.copy ++ [Action.switch]) = some (final, []) ∧
      Holds final.store copied' ∧ final.store.keyRange = shared.store.keyRange ∧
      ∀ key : Nat, key < bound → copied' key = copied key := by
  induction remaining generalizing shared bound copy copied with
  | zero =>
      obtain ⟨holds, copies⟩ := state
      rw [working] at copies
      obtain ⟨_, same, inside, done, live⟩ := copies
      obtain rfl := Int.ofNat.inj same
      have complete : ¬(bound : Int) < shared.store.keyRange := by omega
      refine ⟨⟨cleanSwitch shared.store copy, .idle⟩, copied, ?_, done.switch holds (by omega) live, rfl,
        fun _ _ => rfl⟩
      simp [Machine.run, sharedMachine, sharedStep, working, complete]
  | succ remaining ih =>
      have copies := state.copies
      rw [working] at copies
      have unread : (bound : Int) < shared.store.keyRange := by omega
      obtain ⟨after, copyStep, advanced⟩ := copies.copy state.holds unread
      let next : Shared := { shared with cleaner := .copying (bound + 1 : Nat) after }
      have stepped : sharedStep shared .copy = some (next, []) := by
        simp [sharedStep, working, unread, copyStep, next]
      obtain ⟨final, copied', ran, holds, sameRange, kept⟩ :=
        ih (show SharedHolds next _ _ from ⟨state.holds, advanced⟩) rfl
          (show bound + 1 + remaining = shared.store.keyRange.toNat by omega)
      refine ⟨final, copied', ?_, holds, sameRange, fun key below => ?_⟩
      · rw [List.replicate_succ, List.cons_append]
        exact sharedMachine.run_cons_eq_some.mpr ⟨_, [], [], stepped, ran, rfl⟩
      · rw [kept key (by omega), Function.update_of_ne (by omega)]

/-- A put behind the loop index is lost when the clean ends: a get returns the earlier value. -/
theorem put_behind_lost {shared : Shared} {values : Int → Option Int} {key : Int}
    (value : Int) (state : SharedHolds shared values values) (low : 0 ≤ key)
    (high : key < shared.store.keyRange) (read : ¬shared.cleaner.Unread key)
    (room : shared.store.head < shared.store.capacity) :
    ∃ remaining final, sharedMachine.run shared
        (Action.put key value :: List.replicate remaining Action.copy ++ [Action.switch]) = some (final, []) ∧
      logstoreGet final.store key = some ((values key).getD (-1)) := by
  cases working : shared.cleaner with
  | idle =>
      rw [working] at read
      exact absurd trivial read
  | copying next copy =>
      have copies := state.copies
      rw [working] at copies read
      obtain ⟨bound, rfl, inside, -⟩ := copies
      have behind : key < bound := not_le.mp read
      obtain ⟨index, rfl⟩ := Int.eq_ofNat_of_zero_le low
      obtain ⟨store, put, -, -, -⟩ := state.holds.put value low high room
      have stepped : sharedStep shared (.put index value) = some ({ shared with store }, []) := by
        simp [sharedStep, put]
      obtain ⟨sameRange, after, -⟩ := state.step
        (show SharedAllowed shared (.put index value) from ⟨low, high, room⟩) stepped
      change store.keyRange = shared.store.keyRange at sameRange
      obtain ⟨final, copied, ran, holds, finalRange, kept⟩ :=
        finish_clean (shared.store.keyRange.toNat - bound) after working
          (show bound + (shared.store.keyRange.toNat - bound) = store.keyRange.toNat by omega)
      refine ⟨shared.store.keyRange.toNat - bound, final, ?_, ?_⟩
      · exact sharedMachine.run_cons_eq_some.mpr ⟨_, [], [], stepped, ran, rfl⟩
      · rw [holds.get low (by rw [finalRange]; exact sameRange ▸ high), kept index (by omega)]

/-- In every interleaving whose puts during a clean go to keys that the clean has not read yet,
a get returns the value of the most recent put.
A put that breaks this rule is lost when the clean ends, and a get returns the earlier value. -/
theorem logstore_concurrent_latest (capacity keyRange : Int) (schedule : List Action) (final : Shared)
    (trace : List (Int × Int))
    (allowed : sharedMachine.Along SharedAllowed (sharedStart capacity keyRange) schedule)
    (ahead : sharedMachine.Along PutAhead (sharedStart capacity keyRange) schedule)
    (ran : sharedMachine.run (sharedStart capacity keyRange) schedule = some (final, trace)) :
    (∀ key, 0 ≤ key → key < keyRange →
      logstoreGet final.store key = some ((latest (schedule.filterMap Action.written) key).getD (-1))) ∧
    ∀ key value, 0 ≤ key → key < keyRange → ¬final.cleaner.Unread key →
      final.store.head < final.store.capacity →
      ∃ remaining last, sharedMachine.run final
          (.put key value :: List.replicate remaining .copy ++ [.switch]) = some (last, []) ∧
        logstoreGet last.store key = some ((latest (schedule.filterMap Action.written) key).getD (-1)) := by
  have reached := sharedMachine.run_invariant_along
    (fun shared action => SharedAllowed shared action ∧ PutAhead shared action)
    (fun actions _ shared => SharedHolds shared (latest (actions.filterMap Action.written))
      (latest (actions.filterMap Action.written)) ∧ shared.store.keyRange = keyRange)
    (fun actions _ shared action next events state conforming stepped =>
      ⟨state.1.step_latest conforming.1 conforming.2 stepped,
        (state.1.step conforming.1 stepped).1.trans state.2⟩)
    ⟨sharedStart_holds capacity keyRange _, rfl⟩ (sharedMachine.along_and allowed ahead) ran
  obtain ⟨state, rfl⟩ := reached
  refine ⟨fun key low high => state.holds.get low high, fun key value low high read room => ?_⟩
  exact put_behind_lost value state low high read room

/-- A put of a key that the clean has not read yet survives the switch. -/
theorem logstore_put_ahead_kept :
    ∃ final trace, sharedMachine.run (sharedStart 5 2)
        [.put 0 1, .put 0 2, .put 1 3, .put 1 4, .testThreshold fun _ => ⟨0, 0⟩, .copy, .put 1 9, .copy,
          .switch] = some (final, trace) ∧
      logstoreGet final.store 1 = some 9 := by
  have complete : (sharedMachine.run (sharedStart 5 2)
      [.put 0 1, .put 0 2, .put 1 3, .put 1 4, .testThreshold fun _ => ⟨0, 0⟩, .copy, .put 1 9, .copy,
        .switch]).isSome := by decide
  obtain ⟨⟨final, trace⟩, ran⟩ := Option.isSome_iff_exists.mp complete
  obtain ⟨gets, -⟩ := logstore_concurrent_latest 5 2 _ final trace (by decide) (by decide) ran
  exact ⟨final, trace, ran, gets 1 (by decide) (by decide)⟩

/-- A put of a key that the clean has read is lost, although it is in range and in capacity. -/
theorem logstore_concurrent_put_lost :
    sharedMachine.Along SharedAllowed (sharedStart 5 1)
      [.put 0 1, .put 0 2, .put 0 3, .put 0 4, .testThreshold fun _ => ⟨0, 0⟩, .copy, .put 0 9, .switch] ∧
    ∃ final trace, sharedMachine.run (sharedStart 5 1)
        [.put 0 1, .put 0 2, .put 0 3, .put 0 4, .testThreshold fun _ => ⟨0, 0⟩, .copy, .put 0 9, .switch] =
          some (final, trace) ∧
      latest [(0, 1), (0, 2), (0, 3), (0, 4), (0, 9)] 0 = some 9 ∧ logstoreGet final.store 0 = some 4 := by
  refine ⟨by decide, ?_⟩
  have complete : (sharedMachine.run (sharedStart 5 1)
      [.put 0 1, .put 0 2, .put 0 3, .put 0 4, .testThreshold fun _ => ⟨0, 0⟩, .copy, .put 0 9,
        .switch]).map (fun result => logstoreGet result.1.store 0) = some (some 4) := by decide
  obtain ⟨⟨final, trace⟩, ran, value⟩ := Option.map_eq_some_iff.mp complete
  exact ⟨final, trace, ran, by decide, value⟩

end Ostep.LogStore
