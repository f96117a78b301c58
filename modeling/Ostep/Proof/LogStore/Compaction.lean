import Ostep.Proof.LogStore.Sequential

namespace Ostep.LogStore

open Library

variable {store cleaned : Store} {values : Int → Option Int} {puts : List (Int × Int)}

/-- The keys that were put are those with a latest value. -/
theorem mem_keysPut {key : Int} : key ∈ keysPut puts ↔ (latest puts key).isSome := by
  simp [keysPut, latest]

/-- Every rank below the last one belongs to a present key. -/
theorem exists_of_lt_rank {bound index : Nat} (below : index < rank values bound) :
    ∃ key < bound, (values (key : Int)).isSome ∧ rank values key = index := by
  induction bound with
  | zero => exact absurd below (Nat.not_lt_zero index)
  | succ bound ih =>
      rw [rank_succ] at below
      by_cases earlier : index < rank values bound
      · obtain ⟨key, less, present, same⟩ := ih earlier
        exact ⟨key, less.trans (Nat.lt_succ_self bound), present, same⟩
      · have present : (values (bound : Int)).isSome := by
          by_contra absent
          rw [if_neg absent] at below
          omega
        rw [if_pos present] at below
        exact ⟨bound, Nat.lt_succ_self bound, present, by omega⟩

/-- The log has one entry for each present key at the rank of the key. -/
structure Packed (store : Store) (values : Int → Option Int) : Prop where
  head : store.head = rank values store.keyRange.toNat
  absent : ∀ key : Nat, key < store.keyRange.toNat → values key = none → store.imap key = -1
  present : ∀ (key : Nat) value, key < store.keyRange.toNat → values key = some value →
    store.imap key = rank values key ∧ store.buffer (rank values key) = ⟨key, value⟩

/-- A clean at the threshold packs the log. -/
theorem Holds.clean_packed (holds : Holds store values) (filled : belowThreshold store = false)
    (memory : Int → Entry) :
    ∃ next, logstoreClean memory store = some next ∧ Packed next values ∧ Holds next values ∧
      next.keyRange = store.keyRange := by
  obtain ⟨copy, ran, done⟩ := cleanLoop_copied holds memory store.keyRange.toNat (Nat.le_refl _)
  refine ⟨cleanSwitch store copy, ?_, ⟨done.newHead, done.absent, done.present⟩,
    done.switch holds rfl fun _ _ present => present, rfl⟩
  rw [logstoreClean, filled, ran]
  rfl

/-- The entry at each position of a packed log belongs to a present key. -/
theorem Packed.entry (packed : Packed store values) {index : Int} (low : 0 ≤ index) (high : index < store.head) :
    ∃ (key : Nat) (value : Int), key < store.keyRange.toNat ∧ values key = some value ∧
      rank values key = index ∧ store.buffer index = ⟨key, value⟩ := by
  obtain ⟨position, rfl⟩ := Int.eq_ofNat_of_zero_le low
  rw [packed.head] at high
  obtain ⟨key, below, present, same⟩ := exists_of_lt_rank (Int.ofNat_lt.mp high)
  obtain ⟨value, stored⟩ := Option.isSome_iff_exists.mp present
  have entry := (packed.present key value below stored).2
  rw [same] at entry
  exact ⟨key, value, below, stored, congrArg Int.ofNat same, entry⟩

/-- Two packed stores of the same values have the same log. -/
theorem Packed.sameLog {other : Store} (packed : Packed store values) (again : Packed other values)
    (sameRange : other.keyRange = store.keyRange) : SameLog store other where
  head := by rw [packed.head, again.head, sameRange]
  imap key low high := by
    obtain ⟨key, rfl⟩ := Int.eq_ofNat_of_zero_le low
    have below : key < store.keyRange.toNat := by omega
    have belowOther : key < other.keyRange.toNat := by rwa [sameRange]
    cases stored : values key with
    | none => rw [packed.absent key below stored, again.absent key belowOther stored]
    | some value =>
        rw [(packed.present key value below stored).1, (again.present key value belowOther stored).1]
  buffer index low high := by
    obtain ⟨key, value, below, stored, same, entry⟩ := packed.entry low high
    have belowOther : key < other.keyRange.toNat := by rwa [sameRange]
    rw [entry, ← same]
    exact (again.present key value belowOther stored).2

/-- A packed store stays as it is when it is cleaned again. -/
theorem Packed.clean_again (packed : Packed store values) (holds : Holds store values) (memory : Int → Entry) :
    ∃ next, logstoreClean memory store = some next ∧ SameLog store next := by
  cases filled : belowThreshold store with
  | true =>
      refine ⟨store, ?_, rfl, fun _ _ _ => rfl, fun _ _ _ => rfl⟩
      rw [logstoreClean, filled, if_pos rfl]
  | false =>
      obtain ⟨next, made, again, -, sameRange⟩ := holds.clean_packed filled memory
      exact ⟨next, made, packed.sameLog again sameRange⟩

/-- A packed log is the compacted log of the puts with the same latest values. -/
theorem Packed.compacts (packed : Packed cleaned (latest puts)) (sameRange : cleaned.keyRange = store.keyRange)
    (inRange : ∀ key ∈ keysPut puts, 0 ≤ key ∧ key < store.keyRange) (shrinks : cleaned.head ≤ store.head) :
    Compacts puts store cleaned where
  head := by
    rw [packed.head, sameRange, rank_eq_card]
    intro key
    rw [← mem_keysPut]
    exact ⟨fun member => ⟨(inRange key member).1, (inRange key member).2, member⟩, fun inside => inside.2.2⟩
  ordered first second low less high := by
    obtain ⟨key, value, -, stored, same, entry⟩ := packed.entry low (less.trans high)
    obtain ⟨later, other, -, -, sameLater, laterEntry⟩ := packed.entry (low.trans less.le) high
    rw [entry, laterEntry]
    -- A later rank belongs to a larger key.
    by_contra notLess
    have ranks := rank_le_rank (latest puts) (Int.ofNat_le.mp (Int.not_lt.mp notLess))
    omega
  entries index low high := by
    obtain ⟨key, value, -, stored, -, entry⟩ := packed.entry low high
    rw [entry, mem_keysPut]
    exact ⟨Option.isSome_iff_exists.mpr ⟨value, stored⟩, stored⟩
  positions key member := by
    obtain ⟨low, high⟩ := inRange key member
    obtain ⟨value, stored⟩ := Option.isSome_iff_exists.mp (mem_keysPut.mp member)
    obtain ⟨key, rfl⟩ := Int.eq_ofNat_of_zero_le low
    have below : key < cleaned.keyRange.toNat := by
      rw [sameRange]
      omega
    obtain ⟨position, entry⟩ := packed.present key value below stored
    have smaller := rank_lt_rank below (mem_keysPut.mp member)
    rw [position, entry, packed.head]
    exact ⟨Int.natCast_nonneg _, Int.ofNat_lt.mpr smaller, rfl⟩
  others key low high missing := by
    obtain ⟨key, rfl⟩ := Int.eq_ofNat_of_zero_le low
    have below : key < cleaned.keyRange.toNat := by
      rw [sameRange]
      omega
    exact packed.absent key below (Option.not_isSome_iff_eq_none.mp (mt mem_keysPut.mpr missing))
  shrinks := shrinks

/-- The keys of allowed puts are keys of the store. -/
theorem keysPut_inRange {keyRange : Int} {past : List Call} {call : Call} (sameRange : store.keyRange = keyRange)
    (allowed : Allowed store call)
    (inRange : ∀ key ∈ keysPut (past.filterMap Call.written), 0 ≤ key ∧ key < keyRange) :
    ∀ key ∈ keysPut ((past ++ [call]).filterMap Call.written), 0 ≤ key ∧ key < keyRange := by
  subst sameRange
  intro key member
  rw [keysPut, List.filterMap_append, List.map_append, List.toFinset_append, Finset.mem_union] at member
  rcases member with earlier | last
  · exact inRange key earlier
  · cases call with
    | put other value =>
        obtain rfl : key = other := by simpa [Call.written] using last
        exact ⟨allowed.1, allowed.2.1⟩
    | get other => simp [Call.written] at last
    | clean memory => simp [Call.written] at last

/-- Every allowed call sequence succeeds. If the store is then filled to four fifths, a clean compacts its log exactly,
and a further clean leaves the log, the imap and the head as they are. -/
theorem logstore_clean_compacts (capacity keyRange : Int) (calls : List Call)
    (allowed : machine.Along Allowed (logstoreCreate capacity keyRange) calls) :
    ∃ store replies, machine.run (logstoreCreate capacity keyRange) calls = some (store, replies) ∧
      (4 * store.capacity ≤ 5 * store.head → ∀ memory, ∃ cleaned, logstoreClean memory store = some cleaned ∧
        Compacts (calls.filterMap Call.written) store cleaned ∧
        ∀ fresh, ∃ again, logstoreClean fresh cleaned = some again ∧ SameLog cleaned again) := by
  obtain ⟨store, replies, ran, ⟨holds, -, sameRange⟩, inRange⟩ := machine.run_exists_along Allowed
    (fun past store => (Holds store (latest (past.filterMap Call.written)) ∧
      store.capacity = capacity ∧ store.keyRange = keyRange) ∧
      ∀ key ∈ keysPut (past.filterMap Call.written), 0 ≤ key ∧ key < keyRange)
    (fun past store call holds allowed => by
      obtain ⟨next, events, stepped, advanced⟩ := machine_step_latest holds.1 allowed
      exact ⟨next, events, stepped, advanced, keysPut_inRange holds.1.2.2 allowed holds.2⟩)
    ⟨⟨logstoreCreate_holds capacity keyRange, rfl, rfl⟩, nofun⟩ allowed
  refine ⟨store, replies, ran, fun full memory => ?_⟩
  have filled : belowThreshold store = false := decide_eq_false (Int.not_lt.mpr full)
  obtain ⟨cleaned, made, packed, kept, cleanedRange⟩ := holds.clean_packed filled memory
  refine ⟨cleaned, made, ?_, packed.clean_again kept⟩
  have shrinks : cleaned.head ≤ store.head := by
    rw [packed.head, cleanedRange]
    rcases le_or_gt 0 store.keyRange with low | negative
    · exact holds.rank_le_head _ (Int.toNat_of_nonneg low).le
    · rw [Int.toNat_of_nonpos negative.le]
      exact holds.headNonneg
  exact packed.compacts cleanedRange (sameRange ▸ inRange) shrinks

/-- Three puts of two keys are compacted to two entries. -/
theorem logstore_clean_three_puts :
    ∃ store replies cleaned, machine.run (logstoreCreate 3 2) [.put 1 10, .put 0 7, .put 1 20] = some (store, replies) ∧
      logstoreClean (fun _ => ⟨0, 0⟩) store = some cleaned ∧
      Compacts [(1, 10), (0, 7), (1, 20)] store cleaned ∧ cleaned.head = 2 := by
  obtain ⟨store, replies, ran, compacts⟩ :=
    logstore_clean_compacts 3 2 [.put 1 10, .put 0 7, .put 1 20] (by decide)
  obtain ⟨same, -⟩ := Prod.mk.inj (Option.some.inj ran)
  obtain ⟨cleaned, made, compacted, -⟩ := compacts (by rw [← same]; decide) fun _ => ⟨0, 0⟩
  exact ⟨store, replies, cleaned, ran, made, compacted, compacted.head⟩

end Ostep.LogStore
