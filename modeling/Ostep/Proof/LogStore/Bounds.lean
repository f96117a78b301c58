import Ostep.Library.History
import Ostep.Proof.LogStore.Sequential

namespace Ostep.LogStore

open Library Library.History

/-- The store has as many entries and the same keys as the usage of its calls. -/
structure Tracks (capacity keyRange : Int) (usage : Usage) (store : Store) (values : Int → Option Int) : Prop where
  holds : Holds store values
  sameCapacity : store.capacity = capacity
  sameRange : store.keyRange = keyRange
  head : store.head = usage.entries
  keys : ∀ key, key ∈ usage.keys ↔ 0 ≤ key ∧ key < keyRange ∧ (values key).isSome

variable {capacity keyRange : Int} {store : Store} {values : Int → Option Int} {call : Call} {calls : List Call}

theorem logstoreCreate_tracks (capacity keyRange : Int) :
    Tracks capacity keyRange ⟨0, ∅⟩ (logstoreCreate capacity keyRange) fun _ => none where
  holds := logstoreCreate_holds capacity keyRange
  sameCapacity := rfl
  sameRange := rfl
  head := rfl
  keys key := by simp

/-- A put that returns has found room for one more entry. -/
theorem logstorePut_eq_some {key value : Int} {next : Store} (made : logstorePut store key value = some next) :
    store.head < store.capacity ∧ next.head = store.head + 1 := by
  simp only [logstorePut, writeArray, Option.bind_eq_bind, Option.bind_eq_some_iff, Option.ite_none_right_eq_some,
    Option.some.injEq, Option.pure_def] at made
  obtain ⟨_, ⟨inside, -⟩, _, -, rfl⟩ := made
  exact ⟨inside.2, rfl⟩

/-- A call on a valid key that finds room succeeds, and the store follows the usage. -/
theorem Tracks.step {usage : Usage} (tracks : Tracks capacity keyRange usage store values)
    (valid : ValidKey keyRange call) (room : ∀ key value, call = .put key value → usage.entries < capacity) :
    ∃ next events values', machine.step store call = some (next, events) ∧
      Tracks capacity keyRange (usage.next capacity call) next values' := by
  obtain ⟨holds, rfl, rfl, head, keys⟩ := tracks
  cases call with
  | put key value =>
      have space : store.head < store.capacity := head ▸ room key value rfl
      obtain ⟨next, stepped, advanced, sameCapacity, sameRange⟩ := holds.put value valid.1 valid.2 space
      refine ⟨next, [], _, by simp only [machine, stepped, Option.map_some],
        advanced, sameCapacity, sameRange, ?_, fun other => ?_⟩
      · rw [(logstorePut_eq_some stepped).2, head]
        rfl
      · rw [Usage.next, Finset.mem_insert, keys]
        by_cases same : other = key
        · rw [same, Function.update_self]
          exact iff_of_true (Or.inl rfl) ⟨valid.1, valid.2, rfl⟩
        · rw [Function.update_of_ne same, or_iff_right same]
  | get key =>
      have read := holds.get valid.1 valid.2
      exact ⟨store, [(values key).getD (-1)], values, by simp only [machine, read, Option.map_some],
        holds, rfl, rfl, head, keys⟩
  | clean memory =>
      obtain ⟨next, stepped, kept, sameCapacity, sameRange, newHead⟩ := holds.clean_head memory
      refine ⟨next, [], values, by simp only [machine, stepped, Option.map_some], ?_⟩
      simp only [rank_eq_card keys, belowThreshold, head, decide_eq_true_eq] at newHead
      rw [Usage.next]
      split_ifs with below
      · exact ⟨kept, sameCapacity, sameRange, newHead.trans (if_pos below), keys⟩
      · exact ⟨kept, sameCapacity, sameRange, newHead.trans (if_neg below), keys⟩

theorem usage_append_one (capacity : Int) (calls : List Call) (call : Call) :
    usage capacity (calls ++ [call]) = (usage capacity calls).next capacity call := by
  rw [usage, List.foldl_append]
  rfl

/-- Every put of the sequence finds room after the calls before it. -/
theorem leavesRoom_iff_always :
    LeavesRoom capacity calls ↔ Always (fun before call =>
      ∀ key value, call = .put key value → (usage capacity before).entries < capacity) calls := by
  constructor
  · rintro leaves before call after split key value rfl
    exact leaves before key value after split
  · intro always before key value after split
    exact always before _ after split key value rfl

theorem leavesRoom_nil (capacity : Int) : LeavesRoom capacity [] := leavesRoom_iff_always.mpr always_nil

/-- A sequence leaves room when its beginning does and its last put comes before the log is full. -/
theorem leavesRoom_append_one :
    LeavesRoom capacity (calls ++ [call]) ↔
      LeavesRoom capacity calls ∧ ∀ key value, call = .put key value → (usage capacity calls).entries < capacity := by
  rw [leavesRoom_iff_always, leavesRoom_iff_always, always_append_iff]

/-- A sequence that leaves room runs, and its store follows the usage. -/
theorem run_tracks (valid : ∀ call ∈ calls, ValidKey keyRange call) (leaves : LeavesRoom capacity calls) :
    ∃ store replies values, machine.run (logstoreCreate capacity keyRange) calls = some (store, replies) ∧
      Tracks capacity keyRange (usage capacity calls) store values := by
  induction calls using List.reverseRecOn with
  | nil => exact ⟨_, _, _, rfl, logstoreCreate_tracks capacity keyRange⟩
  | append_singleton calls call ih =>
      obtain ⟨earlier, last⟩ := leavesRoom_append_one.mp leaves
      obtain ⟨store, replies, values, ran, tracks⟩ :=
        ih (fun call member => valid call (List.mem_append_left _ member)) earlier
      obtain ⟨next, events, values', stepped, follows⟩ :=
        tracks.step (valid call (List.mem_append_right _ List.mem_cons_self)) last
      rw [usage_append_one]
      exact ⟨next, _, values',
        machine.run_append ran (machine.run_cons_eq_some.mpr ⟨next, events, [], stepped, rfl, rfl⟩), follows⟩

/-- A sequence that stays in bounds leaves room, since a put at the capacity does not return. -/
theorem InBounds.leavesRoom (valid : ∀ call ∈ calls, ValidKey keyRange call)
    (bounds : InBounds capacity keyRange calls) : LeavesRoom capacity calls := by
  induction calls using List.reverseRecOn with
  | nil => exact leavesRoom_nil capacity
  | append_singleton calls call ih =>
      have earlierValid : ∀ call ∈ calls, ValidKey keyRange call :=
        fun call member => valid call (List.mem_append_left _ member)
      have earlier := ih earlierValid fun before inside => bounds before (inside.trans (List.prefix_append _ _))
      refine leavesRoom_append_one.mpr ⟨earlier, ?_⟩
      rintro key value rfl
      obtain ⟨store, replies, values, ran, tracks⟩ := run_tracks earlierValid earlier
      obtain ⟨final, trace, whole, -⟩ := bounds _ List.prefix_rfl
      rw [machine.run_append_eq ran, Option.map_eq_some_iff] at whole
      obtain ⟨⟨_, _⟩, continued, -⟩ := whole
      obtain ⟨next, events, _, stepped, -⟩ := machine.run_cons_eq_some.mp continued
      obtain ⟨_, put, -⟩ := Option.map_eq_some_iff.mp stepped
      have room := (logstorePut_eq_some put).1
      rwa [tracks.head, tracks.sameCapacity] at room

/-- The store stays inside its arrays exactly when the calls leave room for every put. -/
theorem logstore_in_bounds_iff (capacity keyRange : Int) (size : 1 ≤ capacity) (calls : List Call)
    (valid : ∀ call ∈ calls, ValidKey keyRange call) :
    InBounds capacity keyRange calls ↔ LeavesRoom capacity calls := by
  refine ⟨InBounds.leavesRoom valid, ?_⟩
  rintro leaves before ⟨after, rfl⟩
  obtain ⟨store, replies, values, ran, tracks⟩ :=
    run_tracks (fun call member => valid call (List.mem_append_left _ member))
      fun first key value rest split => leaves first key value (rest ++ after)
        (by rw [split, List.append_assoc, List.cons_append])
  have bound := tracks.holds.headBound
  rw [tracks.sameCapacity, max_eq_left (by omega)] at bound
  exact ⟨store, replies, ran, tracks.holds.headNonneg, bound⟩

/-- A clean of the full log makes room for the next put. -/
theorem logstore_clean_in_time :
    InBounds 2 1 [.put 0 10, .put 0 20, .clean fun _ => ⟨0, 0⟩, .put 0 30] := by
  refine (logstore_in_bounds_iff 2 1 (by decide) _ (by decide)).mpr ?_
  change LeavesRoom 2
    (((([] ++ [Call.put 0 10]) ++ [Call.put 0 20]) ++ [Call.clean fun _ => ⟨0, 0⟩]) ++ [Call.put 0 30])
  simp only [leavesRoom_append_one, leavesRoom_nil, true_and]
  exact ⟨⟨⟨fun _ _ _ => by decide, fun _ _ _ => by decide⟩, nofun⟩, fun _ _ _ => by decide⟩

/-- The third put of one key writes past a log of two entries. -/
theorem logstore_overwrites_overflow :
    machine.run (logstoreCreate 2 1) [.put 0 10, .put 0 20, .put 0 30] = none ∧
    ¬InBounds 2 1 [.put 0 10, .put 0 20, .put 0 30] := by
  have fails : machine.run (logstoreCreate 2 1) [.put 0 10, .put 0 20, .put 0 30] = none := rfl
  refine ⟨fails, fun bounds => ?_⟩
  obtain ⟨store, replies, ran, -⟩ := bounds _ List.prefix_rfl
  rw [fails] at ran
  cases ran

end Ostep.LogStore
