import Mathlib.Algebra.Group.Nat.Defs
import Ostep.Construction.SparseSet

namespace Ostep.Sparse

/-- The table entry of a value; a missing leaf holds only absent marks. -/
def entry (set : SparseSet) (value : Value) : Value :=
  match set.sparse (getLvl1Idx value) with
  | none => uint32Max
  | some leaf => leaf (getLvl2Idx value)

theorem getLvl1Idx_val (value : Value) : (getLvl1Idx value).val = value.toNat / 2 ^ 16 := by
  simp [getLvl1Idx, Nat.shiftRight_eq_div_pow]

theorem getLvl2Idx_val (value : Value) : (getLvl2Idx value).val = value.toNat % 2 ^ 16 := by
  have masked : value.toNat &&& (2 ^ 16 - 1) = value.toNat % 2 ^ 16 := Nat.and_two_pow_sub_one_eq_mod _ _
  simpa [getLvl2Idx, BitVec.toNat_and] using masked

/-- The two table indices determine the value. -/
theorem value_eq_of_idx {left right : Value} (lvl1 : getLvl1Idx left = getLvl1Idx right)
    (lvl2 : getLvl2Idx left = getLvl2Idx right) : left = right := by
  have quotients := congrArg Fin.val lvl1
  have remainders := congrArg Fin.val lvl2
  rw [getLvl1Idx_val, getLvl1Idx_val] at quotients
  rw [getLvl2Idx_val, getLvl2Idx_val] at remainders
  apply BitVec.eq_of_toNat_eq
  omega

theorem ssContains_iff (set : SparseSet) (value : Value) :
    ssContains set value = true ↔ entry set value ≠ uint32Max := by
  unfold ssContains entry
  cases set.sparse (getLvl1Idx value) <;> simp

/-- A present value has a leaf. -/
theorem leaf_of_entry {set : SparseSet} {value : Value} (present : entry set value ≠ uint32Max) :
    ∃ leaf, set.sparse (getLvl1Idx value) = some leaf := by
  unfold entry at present
  cases held : set.sparse (getLvl1Idx value) with
  | none => simp [held] at present
  | some leaf => exact ⟨leaf, rfl⟩

/-- The table after one write to the leaf of a value. -/
def relink (set : SparseSet) (value index : Value) : SparseSet :=
  { set with sparse := fun lvl1 =>
      if lvl1 = getLvl1Idx value then
        (set.sparse lvl1).map fun leaf => Function.update leaf (getLvl2Idx value) index
      else set.sparse lvl1 }

/-- A write to an existing leaf succeeds. -/
theorem writeLeaf_eq (set : SparseSet) (value index : Value)
    (held : (set.sparse (getLvl1Idx value)).isSome) :
    writeLeaf set (getLvl1Idx value) (getLvl2Idx value) index = some (relink set value index) := by
  obtain ⟨leaf, found⟩ := Option.isSome_iff_exists.mp held
  simp only [writeLeaf, found, Option.map_some, relink]
  congr 2
  funext lvl1
  by_cases same : lvl1 = getLvl1Idx value
  · subst same
    simp [found]
  · simp [same]

/-- A write changes the entry of its own value only. -/
theorem entry_relink (set : SparseSet) (value index : Value)
    (held : (set.sparse (getLvl1Idx value)).isSome) (other : Value) :
    entry (relink set value index) other = if other = value then index else entry set other := by
  obtain ⟨leaf, found⟩ := Option.isSome_iff_exists.mp held
  by_cases same : other = value
  · subst same
    simp [entry, relink, found]
  · rw [if_neg same]
    by_cases lvl1 : getLvl1Idx other = getLvl1Idx value
    · have lvl2 : getLvl2Idx other ≠ getLvl2Idx value := fun equal => same (value_eq_of_idx lvl1 equal)
      simp [entry, relink, lvl1, found, Function.update_of_ne lvl2]
    · simp [entry, relink, lvl1]

/-- A write keeps every leaf pointer. -/
theorem isSome_relink (set : SparseSet) (value index : Value) (lvl1 : Level) :
    ((relink set value index).sparse lvl1).isSome = (set.sparse lvl1).isSome := by
  simp only [relink]
  split <;> simp

theorem allocateLeaf_isSome (set : SparseSet) (lvl1 : Level) :
    ((allocateLeaf set lvl1).sparse lvl1).isSome := by
  unfold allocateLeaf
  cases held : set.sparse lvl1 <;> simp [held]

/-- A new leaf adds no value. -/
theorem entry_allocateLeaf (set : SparseSet) (lvl1 : Level) (value : Value) :
    entry (allocateLeaf set lvl1) value = entry set value := by
  unfold allocateLeaf
  split
  · rename_i missing
    by_cases same : getLvl1Idx value = lvl1
    · subst same
      simp [entry, Option.isNone_iff_eq_none.mp missing]
    · simp [entry, Function.update_of_ne same]
  · rfl

@[simp] theorem allocateLeaf_dense (set : SparseSet) (lvl1 : Level) :
    (allocateLeaf set lvl1).dense = set.dense := by
  unfold allocateLeaf; split <;> rfl

@[simp] theorem allocateLeaf_count (set : SparseSet) (lvl1 : Level) :
    (allocateLeaf set lvl1).count = set.count := by
  unfold allocateLeaf; split <;> rfl

@[simp] theorem allocateLeaf_maxActive (set : SparseSet) (lvl1 : Level) :
    (allocateLeaf set lvl1).maxActive = set.maxActive := by
  unfold allocateLeaf; split <;> rfl

@[simp] theorem allocateLeaf_universeSize (set : SparseSet) (lvl1 : Level) :
    (allocateLeaf set lvl1).universeSize = set.universeSize := by
  unfold allocateLeaf; split <;> rfl

@[simp] theorem allocateLeaf_level2Counts (set : SparseSet) (lvl1 : Level) :
    (allocateLeaf set lvl1).level2Counts = set.level2Counts := by
  unfold allocateLeaf; split <;> rfl

@[simp] theorem releaseLeaf_dense (set : SparseSet) (lvl1 : Level) :
    (releaseLeaf set lvl1).dense = set.dense := by
  unfold releaseLeaf; split <;> rfl

@[simp] theorem releaseLeaf_level2Counts (set : SparseSet) (lvl1 : Level) :
    (releaseLeaf set lvl1).level2Counts = set.level2Counts := by
  unfold releaseLeaf; split <;> rfl

@[simp] theorem releaseLeaf_count (set : SparseSet) (lvl1 : Level) :
    (releaseLeaf set lvl1).count = set.count := by
  unfold releaseLeaf; split <;> rfl

@[simp] theorem releaseLeaf_maxActive (set : SparseSet) (lvl1 : Level) :
    (releaseLeaf set lvl1).maxActive = set.maxActive := by
  unfold releaseLeaf; split <;> rfl

@[simp] theorem releaseLeaf_universeSize (set : SparseSet) (lvl1 : Level) :
    (releaseLeaf set lvl1).universeSize = set.universeSize := by
  unfold releaseLeaf; split <;> rfl

theorem clearLeaf_eq_none (leaf : Option (Level → Value)) : clearLeaf leaf = none := by
  cases leaf <;> rfl

/-- A cleared set has no entry. -/
theorem entry_ssClear (set : SparseSet) (value : Value) : entry (ssClear set) value = uint32Max := by
  simp [entry, ssClear, clearLeaf_eq_none]

end Ostep.Sparse
