import Ostep.Proof.SparseSet.Entries
import Mathlib.Data.Finset.Card
import Mathlib.Data.List.Nodup

namespace Ostep.Sparse
open Library

/-- The members of one leaf. -/
def inLeaf (members : Finset Value) (lvl1 : Level) : Finset Value :=
  members.filter fun value => getLvl1Idx value = lvl1

/-- The table and the dense array link each member to its dense index.
A leaf counter may exceed the members of its leaf, but not the number of inserting adds. -/
structure Represents (set : SparseSet) (members : Finset Value) (inserted : Nat) : Prop where
  active : set.count ≤ set.maxActive
  indexed : ∀ index < set.count, entry set (set.dense index) = index
  listed : ∀ value, entry set value ≠ uint32Max →
    entry set value < set.count ∧ set.dense (entry set value) = value
  member : ∀ value, value ∈ members ↔ entry set value ≠ uint32Max
  card : members.card = set.count.toNat
  counted : ∀ lvl1, (inLeaf members lvl1).card ≤ (set.level2Counts lvl1).toNat
  bounded : ∀ lvl1, (set.level2Counts lvl1).toNat ≤ inserted

theorem ssCreate_represents (memory : Value → Value) (universeSize maxActive : Value) :
    Represents (ssCreate memory universeSize maxActive) ∅ 0 where
  active := BitVec.le_def.mpr (Nat.zero_le _)
  indexed index below := by simp [ssCreate] at below
  listed value present := by simp [entry, ssCreate] at present
  member value := by simp [entry, ssCreate]
  card := rfl
  counted lvl1 := by simp [inLeaf]
  bounded lvl1 := by simp [ssCreate]

variable {set : SparseSet} {members : Finset Value} {inserted : Nat} {value : Value}

theorem Represents.contains (represents : Represents set members inserted) (value : Value) :
    ssContains set value = decide (value ∈ members) := by
  rw [Bool.eq_iff_iff, ssContains_iff, decide_eq_true_eq, represents.member]

/-- A live index is never the absent mark. -/
theorem ne_uint32Max_of_lt {index bound : Value} (below : index < bound) : index ≠ uint32Max := by
  have mark : uint32Max = 0xFFFFFFFF#32 := by decide
  rw [mark]
  bv_omega

/-- The state after an inserting add. -/
def added (set : SparseSet) (value : Value) : SparseSet :=
  let linked := relink (allocateLeaf set (getLvl1Idx value)) value set.count
  { linked with
    dense := Function.update set.dense set.count value
    count := set.count + 1
    level2Counts := Function.update set.level2Counts (getLvl1Idx value)
      (set.level2Counts (getLvl1Idx value) + 1) }

@[simp] theorem added_maxActive (set : SparseSet) (value : Value) :
    (added set value).maxActive = set.maxActive := allocateLeaf_maxActive set _

@[simp] theorem added_universeSize (set : SparseSet) (value : Value) :
    (added set value).universeSize = set.universeSize := allocateLeaf_universeSize set _

/-- An inserting add makes no invalid access. -/
theorem ssAdd_eq_added (absent : ssContains set value = false)
    (room : set.count < set.maxActive) (inside : value ≤ set.universeSize) :
    ssAdd set value = some (0, added set value) := by
  have accepted : ¬(set.count ≥ set.maxActive ∨ value > set.universeSize) := by
    rw [not_or]
    exact ⟨by bv_omega, by bv_omega⟩
  rw [ssAdd, if_neg (by simp [absent]), if_neg accepted]
  simp only [writeLeaf_eq _ value set.count (allocateLeaf_isSome set (getLvl1Idx value)), Option.bind_eq_bind,
    Option.bind_some]
  have listed : writeDense (relink (allocateLeaf set (getLvl1Idx value)) value set.count)
      (relink (allocateLeaf set (getLvl1Idx value)) value set.count).count value =
      some { relink (allocateLeaf set (getLvl1Idx value)) value set.count with
        dense := Function.update set.dense set.count value } := by
    simp [writeDense, relink, room]
  rw [listed]
  simp [added, relink]

theorem entry_added (set : SparseSet) (value other : Value) :
    entry (added set value) other = if other = value then set.count else entry set other := by
  have linked := entry_relink _ value set.count (allocateLeaf_isSome set (getLvl1Idx value)) other
  rw [entry_allocateLeaf] at linked
  exact linked

/-- Inserting a value adds it to its own leaf only. -/
theorem inLeaf_insert (absent : value ∉ members) (lvl1 : Level) :
    (inLeaf (insert value members) lvl1).card =
      (inLeaf members lvl1).card + if lvl1 = getLvl1Idx value then 1 else 0 := by
  unfold inLeaf
  by_cases same : lvl1 = getLvl1Idx value
  · rw [Finset.filter_insert, if_pos same.symm, Finset.card_insert_of_notMem (by simp [absent]), if_pos same]
  · rw [Finset.filter_insert, if_neg (Ne.symm same), if_neg same, Nat.add_zero]

/-- Erasing a member takes it from its own leaf only. -/
theorem inLeaf_erase (present : value ∈ members) (lvl1 : Level) :
    (inLeaf (members.erase value) lvl1).card + (if lvl1 = getLvl1Idx value then 1 else 0) =
      (inLeaf members lvl1).card := by
  have restored := inLeaf_insert (Finset.notMem_erase value members) lvl1
  rw [Finset.insert_erase present] at restored
  exact restored.symm

/-- An inserting add counts its value in its own leaf only. -/
theorem Represents.counts_added (represents : Represents set members inserted) (few : inserted + 1 < 2 ^ 32)
    (lvl1 : Level) : ((added set value).level2Counts lvl1).toNat =
      (set.level2Counts lvl1).toNat + if lvl1 = getLvl1Idx value then 1 else 0 := by
  have bound := represents.bounded lvl1
  by_cases same : lvl1 = getLvl1Idx value
  · subst same
    simp only [added, Function.update_self, if_true]
    bv_omega
  · simp [added, same]

/-- An inserting add keeps the link from each active index and back. -/
theorem Represents.indexed_added (represents : Represents set members inserted) (absent : value ∉ members)
    {index : Value} (below : index < set.count + 1) :
    entry (added set value) (Function.update set.dense set.count value index) = index := by
  rw [entry_added]
  by_cases last : index = set.count
  · subst last
    simp
  · have old : index < set.count := by bv_omega
    have linked := represents.indexed index old
    have different : set.dense index ≠ value := by
      rintro rfl
      apply absent
      rw [represents.member, linked]
      exact ne_uint32Max_of_lt old
    rw [Function.update_of_ne last, if_neg different, linked]

/-- An inserting add keeps the link from each present value and back. -/
theorem Represents.listed_added (represents : Represents set members inserted) (room : set.count < set.maxActive)
    {other : Value} (present : entry (added set value) other ≠ uint32Max) :
    entry (added set value) other < set.count + 1 ∧
      Function.update set.dense set.count value (entry (added set value) other) = other := by
  rw [entry_added] at present ⊢
  by_cases same : other = value
  · subst same
    rw [if_pos rfl]
    exact ⟨by bv_omega, Function.update_self _ _ _⟩
  · rw [if_neg same] at present ⊢
    obtain ⟨below, back⟩ := represents.listed other present
    refine ⟨by bv_omega, ?_⟩
    rw [Function.update_of_ne (by bv_omega), back]

/-- An inserting add keeps the representation. -/
theorem Represents.add (represents : Represents set members inserted) (absent : value ∉ members)
    (room : set.count < set.maxActive) (few : inserted + 1 < 2 ^ 32) :
    Represents (added set value) (insert value members) (inserted + 1) where
  active := by
    rw [added_maxActive]
    change set.count + 1 ≤ set.maxActive
    bv_omega
  indexed _ below := represents.indexed_added absent below
  listed _ present := represents.listed_added room present
  member other := by
    rw [Finset.mem_insert, entry_added]
    by_cases same : other = value
    · simp [same, ne_uint32Max_of_lt room]
    · simp [same, represents.member]
  card := by
    have grown : (set.count + 1).toNat = set.count.toNat + 1 := by bv_omega
    change (insert value members).card = (set.count + 1).toNat
    rw [Finset.card_insert_of_notMem absent, represents.card, grown]
  counted lvl1 := by
    have old := represents.counted lvl1
    rw [inLeaf_insert absent, represents.counts_added few]
    omega
  bounded lvl1 := by
    have old := represents.bounded lvl1
    rw [represents.counts_added few]
    split <;> omega

/-- The state after a removal, before the leaf is released. -/
def unlinked (set : SparseSet) (value : Value) : SparseSet :=
  let index := entry set value
  let last := set.dense (set.count - 1)
  let linked := relink (relink set last index) value uint32Max
  { linked with
    dense := Function.update set.dense index last
    level2Counts := Function.update set.level2Counts (getLvl1Idx value)
      (set.level2Counts (getLvl1Idx value) - 1)
    count := set.count - 1 }

/-- The last dense value is linked to the last index. -/
theorem Represents.last (represents : Represents set members inserted) (present : value ∈ members) :
    set.count - 1 < set.count ∧ entry set (set.dense (set.count - 1)) = set.count - 1 := by
  obtain ⟨below, -⟩ := represents.listed value ((represents.member value).mp present)
  have smaller : set.count - 1 < set.count := by bv_omega
  exact ⟨smaller, represents.indexed _ smaller⟩

/-- The last dense value is present. -/
theorem Represents.last_marked (represents : Represents set members inserted) (present : value ∈ members) :
    entry set (set.dense (set.count - 1)) ≠ uint32Max := by
  obtain ⟨smaller, linked⟩ := represents.last present
  rw [linked]
  exact ne_uint32Max_of_lt smaller

/-- Removing a member makes no invalid access. -/
theorem Represents.ssRemove_eq (represents : Represents set members inserted) (present : value ∈ members) :
    ssRemove set value = some (0, releaseLeaf (unlinked set value) (getLvl1Idx value)) := by
  have marked := (represents.member value).mp present
  obtain ⟨below, back⟩ := represents.listed value marked
  have active := represents.active
  obtain ⟨leaf, held⟩ := leaf_of_entry marked
  have found : ssContains set value = true := (ssContains_iff set value).mpr marked
  have lastHeld : (set.sparse (getLvl1Idx (set.dense (set.count - 1)))).isSome := by
    obtain ⟨other, lastLeaf⟩ := leaf_of_entry (represents.last_marked present)
    rw [lastLeaf]
    rfl
  have read : readLeaf set (getLvl1Idx value) (getLvl2Idx value) = some (entry set value) := by
    simp [readLeaf, entry, held]
  have readLast : readDense set (set.count - 1) = some (set.dense (set.count - 1)) := by
    rw [readDense, if_pos (by bv_omega)]
  have inside : entry set value < set.maxActive := by bv_omega
  let moved : SparseSet :=
    { set with dense := Function.update set.dense (entry set value) (set.dense (set.count - 1)) }
  have stored : writeDense set (entry set value) (set.dense (set.count - 1)) = some moved := by
    rw [writeDense, if_pos inside]
  have reread : readDense moved (entry set value) = some (set.dense (set.count - 1)) := by
    rw [readDense, if_pos inside]
    exact congrArg some (Function.update_self ..)
  have linked := writeLeaf_eq moved (set.dense (set.count - 1)) (entry set value) lastHeld
  have cleared := writeLeaf_eq (relink moved (set.dense (set.count - 1)) (entry set value))
    value uint32Max (by rw [isSome_relink]; exact Option.isSome_iff_exists.mpr ⟨leaf, held⟩)
  rw [ssRemove, if_neg (by simp [found])]
  simp only [Option.bind_eq_bind, read, readLast, stored, reread, linked, cleared, Option.bind_some]
  rfl

/-- The removed value loses its entry and the last value takes its index. -/
theorem entry_unlinked (heldLast : (set.sparse (getLvl1Idx (set.dense (set.count - 1)))).isSome)
    (held : (set.sparse (getLvl1Idx value)).isSome) (other : Value) :
    entry (unlinked set value) other =
      if other = value then uint32Max
      else if other = set.dense (set.count - 1) then entry set value else entry set other := by
  have inner := entry_relink set (set.dense (set.count - 1)) (entry set value) heldLast other
  have outer := entry_relink (relink set (set.dense (set.count - 1)) (entry set value)) value uint32Max
    (by rwa [isSome_relink]) other
  rw [inner] at outer
  exact outer

theorem Represents.entry_unlinked (represents : Represents set members inserted) (present : value ∈ members)
    (other : Value) : entry (unlinked set value) other =
      if other = value then uint32Max
      else if other = set.dense (set.count - 1) then entry set value else entry set other :=
  Sparse.entry_unlinked (Option.isSome_iff_exists.mpr (leaf_of_entry (represents.last_marked present)))
    (Option.isSome_iff_exists.mpr (leaf_of_entry ((represents.member value).mp present))) other

/-- A removal takes its value from the count of its own leaf only. -/
theorem Represents.counts_unlinked (represents : Represents set members inserted) (present : value ∈ members)
    (lvl1 : Level) : ((unlinked set value).level2Counts lvl1).toNat +
      (if lvl1 = getLvl1Idx value then 1 else 0) = (set.level2Counts lvl1).toNat := by
  by_cases same : lvl1 = getLvl1Idx value
  · subst same
    have positive : 0 < (inLeaf members (getLvl1Idx value)).card :=
      Finset.card_pos.mpr ⟨value, by simp [inLeaf, present]⟩
    have enough := represents.counted (getLvl1Idx value)
    simp only [unlinked, Function.update_self, if_true]
    bv_omega
  · simp [unlinked, same]

/-- A removal keeps the link from each active index and back. -/
theorem Represents.indexed_unlinked (represents : Represents set members inserted) (present : value ∈ members)
    {index : Value} (inside : index < set.count - 1) :
    entry (unlinked set value)
      (Function.update set.dense (entry set value) (set.dense (set.count - 1)) index) = index := by
  obtain ⟨smaller, lastLinked⟩ := represents.last present
  rw [represents.entry_unlinked present]
  by_cases hole : index = entry set value
  · -- The hole is below the last index, so the last value is not the removed one.
    subst hole
    have different : set.dense (set.count - 1) ≠ value := by
      intro same
      rw [same] at lastLinked
      bv_omega
    rw [Function.update_self, if_neg different, if_pos rfl]
  · have linked := represents.indexed index (by bv_omega)
    have notRemoved : set.dense index ≠ value := by
      intro same
      rw [same] at linked
      exact hole linked.symm
    have notLast : set.dense index ≠ set.dense (set.count - 1) := by
      intro same
      rw [same, lastLinked] at linked
      bv_omega
    rw [Function.update_of_ne hole, if_neg notRemoved, if_neg notLast, linked]

/-- A removal keeps the link from each remaining value and back. -/
theorem Represents.listed_unlinked (represents : Represents set members inserted) (present : value ∈ members)
    {other : Value} (kept : entry (unlinked set value) other ≠ uint32Max) :
    entry (unlinked set value) other < set.count - 1 ∧
      Function.update set.dense (entry set value) (set.dense (set.count - 1)) (entry (unlinked set value) other) =
        other := by
  obtain ⟨below, back⟩ := represents.listed value ((represents.member value).mp present)
  rw [represents.entry_unlinked present] at kept ⊢
  by_cases removed : other = value
  · simp [removed] at kept
  · rw [if_neg removed] at kept ⊢
    by_cases moved : other = set.dense (set.count - 1)
    · rw [if_pos moved]
      have different : entry set value ≠ set.count - 1 := by
        intro same
        apply removed
        rw [moved, ← same, back]
      exact ⟨by bv_omega, by rw [Function.update_self, moved]⟩
    · rw [if_neg moved] at kept ⊢
      obtain ⟨inside, listed⟩ := represents.listed other kept
      have notLast : entry set other ≠ set.count - 1 := by
        intro same
        apply moved
        rw [← same, listed]
      have notHole : entry set other ≠ entry set value := by
        intro same
        apply removed
        rw [← listed, same, back]
      exact ⟨by bv_omega, by rw [Function.update_of_ne notHole, listed]⟩

/-- A removal keeps the representation. -/
theorem Represents.remove (represents : Represents set members inserted) (present : value ∈ members) :
    Represents (unlinked set value) (members.erase value) inserted where
  active := by
    have active := represents.active
    have smaller := (represents.last present).1
    change set.count - 1 ≤ set.maxActive
    bv_omega
  indexed _ inside := represents.indexed_unlinked present inside
  listed _ kept := represents.listed_unlinked present kept
  member other := by
    rw [Finset.mem_erase, represents.entry_unlinked present]
    by_cases removed : other = value
    · simp [removed]
    · rw [if_neg removed]
      by_cases moved : other = set.dense (set.count - 1)
      · have member := (represents.member other).mpr (moved ▸ represents.last_marked present)
        rw [if_pos moved]
        simp [removed, member, (represents.member value).mp present]
      · rw [if_neg moved, represents.member]
        exact and_iff_right removed
  card := by
    have smaller := (represents.last present).1
    change (members.erase value).card = (set.count - 1).toNat
    rw [Finset.card_erase_of_mem present, represents.card]
    bv_omega
  counted lvl1 := by
    have old := represents.counted lvl1
    have leaf := inLeaf_erase present lvl1
    have count := represents.counts_unlinked present lvl1
    omega
  bounded lvl1 := by
    have old := represents.bounded lvl1
    have count := represents.counts_unlinked present lvl1
    omega

/-- A leaf with a zero counter holds no member. -/
theorem Represents.release (lvl1 : Level) (represents : Represents set members inserted) :
    Represents (releaseLeaf set lvl1) members inserted := by
  unfold releaseLeaf
  split
  · rename_i empty
    have noMember (value : Value) (inside : getLvl1Idx value = lvl1) : entry set value = uint32Max := by
      by_contra present
      have positive : 0 < (inLeaf members lvl1).card :=
        Finset.card_pos.mpr ⟨value, by simp [inLeaf, inside, (represents.member value).mpr present]⟩
      have enough := represents.counted lvl1
      rw [empty] at enough
      simp only [BitVec.ofNat_eq_ofNat, BitVec.toNat_ofNat, Nat.zero_mod] at enough
      omega
    have same (value : Value) :
        entry { set with sparse := Function.update set.sparse lvl1 none } value = entry set value := by
      by_cases inside : getLvl1Idx value = lvl1
      · rw [noMember value inside]
        simp [entry, inside]
      · simp [entry, Function.update_of_ne inside]
    exact {
      active := represents.active
      indexed := fun index below => by rw [same]; exact represents.indexed index below
      listed := fun value present => by rw [same] at present ⊢; exact represents.listed value present
      member := fun value => by rw [same]; exact represents.member value
      card := represents.card
      counted := represents.counted
      bounded := represents.bounded }
  · exact represents

/-- Clearing keeps the representation although some counters stay. -/
theorem Represents.clear (represents : Represents set members inserted) : Represents (ssClear set) ∅ inserted where
  active := BitVec.le_def.mpr (Nat.zero_le _)
  indexed index below := by simp [ssClear] at below
  listed value present := absurd (entry_ssClear set value) present
  member value := by simp [entry_ssClear]
  card := rfl
  counted lvl1 := by simp [inLeaf]
  bounded lvl1 := by
    have old := represents.bounded lvl1
    simp only [ssClear, clearCounts]
    split
    · simp
    · exact old

/-- The members fill the active range exactly when their number is the maximum. -/
theorem Represents.full_iff (represents : Represents set members inserted) :
    set.count ≥ set.maxActive ↔ members.card = set.maxActive.toNat := by
  have active := represents.active
  rw [represents.card]
  constructor
  · intro full
    bv_omega
  · intro equal
    bv_omega

theorem Represents.ssAdd_member (represents : Represents set members inserted) (present : value ∈ members) :
    ssAdd set value = some (0, set) := by
  rw [ssAdd, if_pos (by simp [represents.contains, present])]

theorem Represents.ssAdd_reject (represents : Represents set members inserted) (absent : value ∉ members)
    (rejected : members.card = set.maxActive.toNat ∨ value > set.universeSize) :
    ssAdd set value = some (-1, set) := by
  rw [← represents.full_iff] at rejected
  rw [ssAdd, if_neg (by simp [represents.contains, absent]), if_pos rejected]

theorem Represents.ssAdd_insert (represents : Represents set members inserted) (absent : value ∉ members)
    (accepted : ¬(members.card = set.maxActive.toNat ∨ value > set.universeSize)) :
    set.count < set.maxActive ∧ ssAdd set value = some (0, added set value) := by
  rw [← represents.full_iff, not_or] at accepted
  have room : set.count < set.maxActive := by bv_omega
  exact ⟨room, ssAdd_eq_added (by simp [represents.contains, absent]) room (by bv_omega)⟩

/-- An inserting add extends the membership test whatever the counters hold. -/
theorem Represents.contains_added (represents : Represents set members inserted) (room : set.count < set.maxActive)
    (other : Value) : ssContains (added set value) other = decide (other ∈ insert value members) := by
  rw [Bool.eq_iff_iff, ssContains_iff, decide_eq_true_eq, entry_added, Finset.mem_insert,
    represents.member]
  by_cases same : other = value
  · simp [same, ne_uint32Max_of_lt room]
  · simp [same]

theorem Represents.ssRemove_absent (represents : Represents set members inserted) (absent : value ∉ members) :
    ssRemove set value = some (-1, set) := by
  rw [ssRemove, if_pos (by simp [represents.contains, absent])]

/-- The positions below the count are 32-bit indices. -/
theorem ofNat_lt_count {index : Nat} (below : index < set.count.toNat) :
    BitVec.ofNat 32 index < set.count ∧ (BitVec.ofNat 32 index).toNat = index := by
  have bound := set.count.isLt
  have same : (BitVec.ofNat 32 index).toNat = index := by rw [BitVec.toNat_ofNat, Nat.mod_eq_of_lt (by omega)]
  exact ⟨by rwa [BitVec.lt_def, same], same⟩

/-- The active values are the dense entries below the count. -/
theorem mem_denseList : value ∈ denseList set ↔ ∃ index < set.count, set.dense index = value := by
  rw [denseList, List.mem_map]
  constructor
  · rintro ⟨index, member, rfl⟩
    exact ⟨BitVec.ofNat 32 index, (ofNat_lt_count (List.mem_range.mp member)).1, rfl⟩
  · rintro ⟨index, below, rfl⟩
    refine ⟨index.toNat, List.mem_range.mpr (BitVec.lt_def.mp below), ?_⟩
    rw [BitVec.ofNat_toNat, BitVec.setWidth_eq]

/-- The active range lists each member exactly once. -/
theorem Represents.denseList_exact (represents : Represents set members inserted) :
    (denseList set).Nodup ∧ ∀ value, value ∈ denseList set ↔ value ∈ members := by
  constructor
  · refine List.Nodup.map_on ?_ List.nodup_range
    intro left leftMember right rightMember same
    obtain ⟨leftInside, leftExact⟩ := ofNat_lt_count (List.mem_range.mp leftMember)
    obtain ⟨rightInside, rightExact⟩ := ofNat_lt_count (List.mem_range.mp rightMember)
    have linked := represents.indexed _ leftInside
    rw [same, represents.indexed _ rightInside] at linked
    rw [← leftExact, ← rightExact, linked]
  · intro value
    rw [mem_denseList, represents.member]
    constructor
    · rintro ⟨index, below, rfl⟩
      rw [represents.indexed index below]
      exact ne_uint32Max_of_lt below
    · intro linked
      exact ⟨entry set value, represents.listed value linked⟩

end Ostep.Sparse
