import Ostep.Construction.LogStore
import Mathlib.Data.Finset.Card
import Mathlib.Data.Finset.Max
import Mathlib.Order.Interval.Finset.Nat

namespace Ostep.LogStore
open Library

/-- The store maps each key of its range to the given value. -/
structure Holds (store : Store) (values : Int → Option Int) : Prop where
  headNonneg : 0 ≤ store.head
  headBound : store.head ≤ max store.capacity 0
  absent : ∀ key, 0 ≤ key → key < store.keyRange → values key = none → store.imap key = -1
  present : ∀ key value, 0 ≤ key → key < store.keyRange → values key = some value →
    0 ≤ store.imap key ∧ store.imap key < store.head ∧ store.buffer (store.imap key) = ⟨key, value⟩

theorem logstoreCreate_holds (capacity keyRange : Int) :
    Holds (logstoreCreate capacity keyRange) fun _ => none where
  headNonneg := Int.le_refl 0
  headBound := le_max_right capacity 0
  absent _ _ _ _ := rfl
  present key value _ _ none_ := by simp at none_

/-- A get returns the value of its key or the absence mark. -/
theorem Holds.get {store : Store} {values : Int → Option Int} (holds : Holds store values) {key : Int}
    (low : 0 ≤ key) (high : key < store.keyRange) :
    logstoreGet store key = some ((values key).getD (-1)) := by
  have found : readImap store key = some (store.imap key) := if_pos ⟨low, high⟩
  cases stored : values key with
  | none =>
      simp [logstoreGet, found, holds.absent key low high stored]
  | some value =>
      obtain ⟨nonneg, below, entry⟩ := holds.present key value low high stored
      have bound := holds.headBound
      have read : readBuffer store (store.imap key) = some ⟨key, value⟩ := by
        rw [readBuffer, if_pos ⟨nonneg, by omega⟩, entry]
      simp [logstoreGet, found, read, not_lt.mpr nonneg]

/-- A put below the capacity changes the value of its key only. -/
theorem Holds.put {store : Store} {values : Int → Option Int} (holds : Holds store values)
    {key : Int} (value : Int) (low : 0 ≤ key) (high : key < store.keyRange)
    (room : store.head < store.capacity) :
    ∃ next, logstorePut store key value = some next ∧
      Holds next (Function.update values key (some value)) ∧
      next.capacity = store.capacity ∧ next.keyRange = store.keyRange := by
  have headNonneg := holds.headNonneg
  refine ⟨{ store with
    buffer := Function.update store.buffer store.head ⟨key, value⟩
    imap := Function.update store.imap key store.head
    head := store.head + 1 }, ?_, ⟨?_, ?_, ?_, ?_⟩, rfl, rfl⟩
  · simp [logstorePut, writeArray, headNonneg, room, low, high]
  · change 0 ≤ store.head + 1
    omega
  · change store.head + 1 ≤ max store.capacity 0
    omega
  · intro other otherLow otherHigh none_
    by_cases same : other = key
    · simp [same] at none_
    · rw [Function.update_of_ne same] at none_
      simpa [same] using holds.absent other otherLow otherHigh none_
  · intro other stored otherLow otherHigh some_
    by_cases same : other = key
    · subst same
      rw [Function.update_self] at some_
      obtain rfl := Option.some.inj some_
      simp only [Function.update_self]
      exact ⟨headNonneg, by omega, trivial⟩
    · rw [Function.update_of_ne same] at some_
      obtain ⟨nonneg, below, entry⟩ := holds.present other stored otherLow otherHigh some_
      simp only [Function.update_of_ne same]
      refine ⟨nonneg, by omega, ?_⟩
      rw [Function.update_of_ne (by omega), entry]

/-- The number of present keys below a bound. -/
def rank (values : Int → Option Int) (bound : Nat) : Nat :=
  ((Finset.range bound).filter fun key : Nat => (values key).isSome).card

@[simp] theorem rank_zero (values : Int → Option Int) : rank values 0 = 0 := rfl

theorem rank_succ (values : Int → Option Int) (bound : Nat) :
    rank values (bound + 1) = rank values bound + if (values (bound : Int)).isSome then 1 else 0 := by
  unfold rank
  rw [Finset.range_add_one, Finset.filter_insert]
  split
  · rw [Finset.card_insert_of_notMem (by simp)]
  · rw [Nat.add_zero]

/-- A map with more present keys has a larger rank. -/
theorem rank_mono {small large : Int → Option Int} {bound : Nat}
    (inside : ∀ key : Nat, key < bound → (small (key : Int)).isSome → (large (key : Int)).isSome) :
    rank small bound ≤ rank large bound := by
  apply Finset.card_le_card
  intro key member
  rw [Finset.mem_filter, Finset.mem_range] at member ⊢
  exact ⟨member.1, inside key member.1 member.2⟩

theorem rank_congr {values values' : Int → Option Int} {bound : Nat}
    (same : ∀ key : Nat, key < bound → values' (key : Int) = values (key : Int)) :
    rank values' bound = rank values bound := by
  apply le_antisymm
  · exact rank_mono fun key below present => by rwa [← same key below]
  · exact rank_mono fun key below present => by rwa [same key below]

theorem rank_le_rank (values : Int → Option Int) {low high : Nat} (ordered : low ≤ high) :
    rank values low ≤ rank values high :=
  Finset.card_le_card (Finset.filter_subset_filter _ (Finset.range_subset_range.mpr ordered))

/-- A present key comes before the rank of every larger bound. -/
theorem rank_lt_rank {values : Int → Option Int} {key bound : Nat} (below : key < bound)
    (present : (values (key : Int)).isSome) : rank values key < rank values bound := by
  have next := rank_succ values key
  rw [if_pos present] at next
  have later := rank_le_rank values (show key + 1 ≤ bound from below)
  omega

/-- The rank over all keys counts the present ones. -/
theorem rank_eq_card {values : Int → Option Int} {keyRange : Int} {keys : Finset Int}
    (present : ∀ key, key ∈ keys ↔ 0 ≤ key ∧ key < keyRange ∧ (values key).isSome) :
    rank values keyRange.toNat = keys.card := by
  have injective : Function.Injective fun index : Nat => (index : Int) := fun _ _ => Int.ofNat.inj
  rw [rank, ← Finset.card_image_of_injective _ injective]
  congr 1
  ext key
  rw [Finset.mem_image, present]
  constructor
  · rintro ⟨index, member, rfl⟩
    obtain ⟨below, stored⟩ := Finset.mem_filter.mp member
    rw [Finset.mem_range] at below
    exact ⟨Int.natCast_nonneg index, by omega, stored⟩
  · rintro ⟨low, high, stored⟩
    obtain ⟨index, rfl⟩ := Int.eq_ofNat_of_zero_le low
    refine ⟨index, Finset.mem_filter.mpr ⟨?_, stored⟩, rfl⟩
    rw [Finset.mem_range]
    omega

/-- Distinct keys have distinct log entries, so the log has room for every present key. -/
theorem Holds.rank_le_head {store : Store} {values : Int → Option Int} (holds : Holds store values)
    (bound : Nat) (inside : (bound : Int) ≤ store.keyRange) : (rank values bound : Int) ≤ store.head := by
  have entries (key : Nat) (member : key ∈ (Finset.range bound).filter fun key : Nat => (values key).isSome) :
      0 ≤ store.imap key ∧ store.imap key < store.head ∧ (store.buffer (store.imap key)).key = key := by
    rw [Finset.mem_filter, Finset.mem_range] at member
    obtain ⟨value, stored⟩ := Option.isSome_iff_exists.mp member.2
    obtain ⟨nonneg, below, entry⟩ :=
      holds.present key value (Int.natCast_nonneg key) (by omega) stored
    exact ⟨nonneg, below, by rw [entry]⟩
  have headNonneg := holds.headNonneg
  have counted : rank values bound ≤ (Finset.range store.head.toNat).card := by
    refine Finset.card_le_card_of_injOn (fun key => (store.imap key).toNat) ?_ ?_
    · intro key member
      obtain ⟨nonneg, below, -⟩ := entries key member
      simp only [Finset.coe_range, Set.mem_Iio]
      omega
    · intro left leftMember right rightMember same
      obtain ⟨leftNonneg, -, leftKey⟩ := entries left leftMember
      obtain ⟨rightNonneg, -, rightKey⟩ := entries right rightMember
      have offsets : store.imap left = store.imap right := by
        simp only at same
        omega
      rw [offsets, rightKey] at leftKey
      exact (Int.ofNat.inj leftKey).symm
  rw [Finset.card_range] at counted
  omega

/-- The new arrays hold the copied keys below the loop index in increasing key order. -/
structure Copied (copied : Int → Option Int) (bound : Nat) (copy : Copy) : Prop where
  newHead : copy.newHead = rank copied bound
  absent : ∀ key : Nat, key < bound → copied key = none → copy.newImap key = -1
  beyond : ∀ key : Nat, bound ≤ key → copy.newImap key = -1
  present : ∀ (key : Nat) value, key < bound → copied key = some value →
    copy.newImap key = rank copied key ∧ copy.newBuffer (rank copied key) = ⟨key, value⟩

theorem cleanStart_copied (copied : Int → Option Int) (memory : Int → Entry) :
    Copied copied 0 (cleanStart memory) where
  newHead := rfl
  absent key below := by omega
  beyond _ _ := rfl
  present key value below := by omega

/-- Copies of equal maps are the same. -/
theorem Copied.congr {copied copied' : Int → Option Int} {bound : Nat} {copy : Copy}
    (done : Copied copied bound copy)
    (same : ∀ key : Nat, key < bound → copied' (key : Int) = copied (key : Int)) :
    Copied copied' bound copy where
  newHead := by rw [done.newHead, rank_congr same]
  absent key below none_ := done.absent key below ((same key below).symm.trans none_)
  beyond := done.beyond
  present key value below some_ := by
    rw [rank_congr fun lower less => same lower (less.trans below)]
    exact done.present key value below ((same key below).symm.trans some_)

section Extend

variable {copied : Int → Option Int} {bound : Nat} {copy : Copy}

/-- The iteration of a key changes no smaller key. -/
theorem update_older (value : Option Int) {key : Nat} (below : key < bound) :
    Function.update copied (bound : Int) value (key : Int) = copied (key : Int) :=
  Function.update_of_ne (by omega) _ _

theorem rank_update (value : Option Int) {key : Nat} (below : key ≤ bound) :
    rank (Function.update copied (bound : Int) value) key = rank copied key :=
  rank_congr fun _ less => update_older value (less.trans_le below)

/-- The iteration of an absent key copies nothing. -/
theorem Copied.skip (done : Copied copied bound copy) :
    Copied (Function.update copied bound none) (bound + 1) copy where
  newHead := by
    rw [rank_succ, rank_update none (Nat.le_refl bound), done.newHead]
    simp
  absent key below none_ := by
    rcases Nat.lt_succ_iff_lt_or_eq.mp below with less | rfl
    · rw [update_older none less] at none_
      exact done.absent key less none_
    · exact done.beyond key (Nat.le_refl key)
  beyond key above := done.beyond key (by omega)
  present key value below some_ := by
    rcases Nat.lt_succ_iff_lt_or_eq.mp below with less | rfl
    · rw [update_older none less] at some_
      rw [rank_update none less.le]
      exact done.present key value less some_
    · simp at some_

/-- The iteration of a present key appends its entry to the new buffer. -/
theorem Copied.append (done : Copied copied bound copy) (value : Int) :
    Copied (Function.update copied bound (some value)) (bound + 1) {
      newBuffer := Function.update copy.newBuffer copy.newHead ⟨bound, value⟩
      newImap := Function.update copy.newImap bound copy.newHead
      newHead := copy.newHead + 1 } where
  newHead := by
    rw [rank_succ, rank_update (some value) (Nat.le_refl bound), done.newHead]
    simp
  absent key less none_ := by
    rcases Nat.lt_succ_iff_lt_or_eq.mp less with less | rfl
    · rw [update_older (some value) less] at none_
      simp only [Function.update_of_ne (show (key : Int) ≠ bound by omega)]
      exact done.absent key less none_
    · simp at none_
  beyond key above := by
    simp only [Function.update_of_ne (show (key : Int) ≠ bound by omega)]
    exact done.beyond key (by omega)
  present key value' less some_ := by
    rcases Nat.lt_succ_iff_lt_or_eq.mp less with less | rfl
    · rw [update_older (some value) less] at some_
      rw [rank_update (some value) less.le]
      obtain ⟨offset, copiedEntry⟩ := done.present key value' less some_
      have lower := rank_lt_rank less (Option.isSome_iff_exists.mpr ⟨value', some_⟩)
      simp only [Function.update_of_ne (show (key : Int) ≠ bound by omega)]
      refine ⟨offset, ?_⟩
      rw [Function.update_of_ne (by rw [done.newHead]; omega), copiedEntry]
    · rw [Function.update_self] at some_
      obtain rfl := Option.some.inj some_
      rw [rank_update (some value) (Nat.le_refl key)]
      simp [done.newHead]

end Extend

/-- One iteration copies the current value of its key. -/
theorem Copied.step {store : Store} {values copied : Int → Option Int} {bound : Nat} {copy : Copy}
    (holds : Holds store values) (done : Copied copied bound copy) (inside : (bound : Int) < store.keyRange)
    (live : ∀ key : Nat, key < bound → (copied (key : Int)).isSome → (values (key : Int)).isSome) :
    ∃ next, cleanCopy store bound copy = some next ∧
      Copied (Function.update copied bound (values bound)) (bound + 1) next := by
  have boundNonneg : (0 : Int) ≤ bound := Int.natCast_nonneg bound
  have found : readImap store bound = some (store.imap bound) := if_pos ⟨boundNonneg, inside⟩
  obtain stored | ⟨value, stored⟩ := (values bound).eq_none_or_eq_some
  · have mark := holds.absent bound boundNonneg inside stored
    rw [stored]
    exact ⟨copy, by simp [cleanCopy, found, mark], done.skip⟩
  · obtain ⟨nonneg, below, entry⟩ := holds.present bound value boundNonneg inside stored
    have headBound := holds.headBound
    have read : readBuffer store (store.imap bound) = some ⟨bound, value⟩ := by
      rw [readBuffer, if_pos ⟨nonneg, by omega⟩, entry]
    -- The copied keys and this key are present, so their number is at most the old head.
    have room : 0 ≤ copy.newHead ∧ copy.newHead < store.capacity := by
      have whole := holds.rank_le_head (bound + 1) (by omega)
      have part := rank_mono live
      rw [rank_succ, stored] at whole
      simp only [Option.isSome_some, if_true] at whole
      rw [done.newHead]
      omega
    rw [stored]
    refine ⟨_, ?_, done.append value⟩
    simp [cleanCopy, found, nonneg, read, writeArray, room, boundNonneg, inside]

/-- The switch installs the copied map. -/
theorem Copied.switch {store : Store} {values copied : Int → Option Int} {bound : Nat} {copy : Copy}
    (holds : Holds store values) (done : Copied copied bound copy) (complete : bound = store.keyRange.toNat)
    (live : ∀ key : Nat, key < bound → (copied (key : Int)).isSome → (values (key : Int)).isSome) :
    Holds (cleanSwitch store copy) copied := by
  have smaller : (rank copied bound : Int) ≤ store.head := by
    rcases Nat.eq_zero_or_pos bound with rfl | positive
    · simpa using holds.headNonneg
    · have whole := holds.rank_le_head bound (by omega)
      have part := rank_mono live
      omega
  have headBound := holds.headBound
  refine ⟨?_, ?_, ?_, ?_⟩
  · change 0 ≤ copy.newHead
    rw [done.newHead]
    exact Int.natCast_nonneg _
  · change copy.newHead ≤ max store.capacity 0
    rw [done.newHead]
    omega
  · intro key low high none_
    obtain ⟨index, rfl⟩ := Int.eq_ofNat_of_zero_le low
    change (index : Int) < store.keyRange at high
    exact done.absent index (by omega) none_
  · intro key value low high some_
    obtain ⟨index, rfl⟩ := Int.eq_ofNat_of_zero_le low
    change (index : Int) < store.keyRange at high
    have below : index < bound := by omega
    obtain ⟨offset, entry⟩ := done.present index value below some_
    have lower := rank_lt_rank below (Option.isSome_iff_exists.mpr ⟨value, some_⟩)
    change 0 ≤ copy.newImap index ∧ copy.newImap index < copy.newHead ∧
      copy.newBuffer (copy.newImap index) = ⟨index, value⟩
    rw [offset, done.newHead, entry]
    exact ⟨Int.natCast_nonneg _, by omega, rfl⟩

end Ostep.LogStore
