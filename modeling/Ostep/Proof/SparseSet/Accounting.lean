import Ostep.Proof.SparseSet.Represents

namespace Ostep.Sparse

open Library

/-- The counters and the leaves belong to the members exactly. -/
structure Exact (set : SparseSet) (members : Finset Value) : Prop where
  represents : Represents set members members.card
  counts : ∀ lvl1, (set.level2Counts lvl1).toNat = (inLeaf members lvl1).card
  leaves : ∀ lvl1, (set.sparse lvl1).isSome ↔ 0 < (inLeaf members lvl1).card

variable {set : SparseSet} {members : Finset Value} {inserted : Nat} {value : Value}

/-- Exact counters are bounded by the number of members. -/
theorem Exact.of_represents (represents : Represents set members inserted)
    (counts : ∀ lvl1, (set.level2Counts lvl1).toNat = (inLeaf members lvl1).card)
    (leaves : ∀ lvl1, (set.sparse lvl1).isSome ↔ 0 < (inLeaf members lvl1).card) : Exact set members := by
  refine ⟨{ represents with bounded := fun lvl1 => ?_ }, counts, leaves⟩
  rw [counts]
  exact Finset.card_filter_le _ _

theorem ssCreate_exact (memory : Value → Value) (universeSize maxActive : Value) :
    Exact (ssCreate memory universeSize maxActive) ∅ where
  represents := ssCreate_represents memory universeSize maxActive
  counts _ := rfl
  leaves lvl1 := by simp [ssCreate, inLeaf]

theorem Exact.leafMembers_eq (exact : Exact set members) (lvl1 : Level) :
    leafMembers set lvl1 = (inLeaf members lvl1).card := by
  obtain ⟨distinct, same⟩ := exact.represents.denseList_exact
  rw [leafMembers, List.countP_eq_length_filter, ← List.toFinset_card_of_nodup (distinct.filter _)]
  congr 1
  ext value
  simp [inLeaf, same]

theorem Exact.accounts (exact : Exact set members) : Accounts set := by
  intro lvl1
  rw [exact.leafMembers_eq]
  exact ⟨exact.counts lvl1, exact.leaves lvl1⟩

/-- An inserting add allocates the leaf of its value. -/
theorem isSome_added (set : SparseSet) (value : Value) (lvl1 : Level) :
    ((added set value).sparse lvl1).isSome ↔ lvl1 = getLvl1Idx value ∨ (set.sparse lvl1).isSome := by
  change ((relink (allocateLeaf set (getLvl1Idx value)) value set.count).sparse lvl1).isSome ↔ _
  rw [isSome_relink]
  by_cases same : lvl1 = getLvl1Idx value
  · rw [same]
    exact iff_of_true (allocateLeaf_isSome set _) (Or.inl rfl)
  · rw [or_iff_right same, allocateLeaf]
    split
    · dsimp only
      rw [Function.update_of_ne same]
    · rfl

/-- An inserting add keeps the accounts. -/
theorem Exact.add (exact : Exact set members) (absent : value ∉ members) (room : set.count < set.maxActive) :
    Exact (added set value) (insert value members) := by
  have few : members.card + 1 < 2 ^ 32 := by
    rw [exact.represents.card]
    bv_omega
  refine .of_represents (exact.represents.add absent room few) (fun lvl1 => ?_) fun lvl1 => ?_
  · rw [exact.represents.counts_added few, inLeaf_insert absent, exact.counts]
  · rw [isSome_added, inLeaf_insert absent, exact.leaves]
    by_cases same : lvl1 = getLvl1Idx value
    · rw [if_pos same]
      exact iff_of_true (Or.inl same) (Nat.succ_pos _)
    · rw [if_neg same, or_iff_right same, Nat.add_zero]

/-- A removal releases the leaf of its value exactly when its counter has reached zero. -/
theorem isSome_removed (set : SparseSet) (value : Value) (lvl1 : Level) :
    ((releaseLeaf (unlinked set value) (getLvl1Idx value)).sparse lvl1).isSome ↔
      (set.sparse lvl1).isSome ∧ ¬(lvl1 = getLvl1Idx value ∧ (unlinked set value).level2Counts lvl1 = 0) := by
  have kept : ((unlinked set value).sparse lvl1).isSome = (set.sparse lvl1).isSome :=
    (isSome_relink _ value uint32Max lvl1).trans (isSome_relink _ _ _ lvl1)
  by_cases released : lvl1 = getLvl1Idx value ∧ (unlinked set value).level2Counts lvl1 = 0
  · obtain ⟨rfl, empty⟩ := released
    rw [releaseLeaf, if_pos empty]
    simp [empty]
  · rw [and_iff_left released, ← kept, releaseLeaf]
    split
    · rename_i empty
      have different : lvl1 ≠ getLvl1Idx value := fun same => released ⟨same, same ▸ empty⟩
      dsimp only
      rw [Function.update_of_ne different]
    · rfl

/-- A removal keeps the accounts. -/
theorem Exact.remove (exact : Exact set members) (present : value ∈ members) :
    Exact (releaseLeaf (unlinked set value) (getLvl1Idx value)) (members.erase value) := by
  have counts (lvl1 : Level) :
      ((unlinked set value).level2Counts lvl1).toNat = (inLeaf (members.erase value) lvl1).card := by
    have unlinked := exact.represents.counts_unlinked present lvl1
    have erased := inLeaf_erase present lvl1
    have old := exact.counts lvl1
    omega
  refine .of_represents ((exact.represents.remove present).release _) (fun lvl1 => ?_) fun lvl1 => ?_
  · rw [releaseLeaf_level2Counts]
    exact counts lvl1
  · have erased := inLeaf_erase present lvl1
    rw [isSome_removed, exact.leaves, ← BitVec.toNat_inj, counts]
    change _ ∧ ¬(_ ∧ _ = 0) ↔ _
    by_cases same : lvl1 = getLvl1Idx value
    · rw [if_pos same] at erased
      simp only [same, true_and] at erased ⊢
      omega
    · rw [if_neg same] at erased
      simp only [same, false_and, not_false_eq_true, and_true]
      omega

/-- A clear reaches the counters of the low values. -/
theorem cleared_iff : 4 * (getLvl1Idx value).val < levelSize ↔ value < 0x40000000 := by
  rw [getLvl1Idx_val, levelSize, BitVec.lt_def]
  change _ ↔ value.toNat < 2 ^ 30
  omega

/-- A clear keeps the accounts when it finds only low members. -/
theorem Exact.clear (exact : Exact set members) (low : ∀ value ∈ members, value < 0x40000000) :
    Exact (ssClear set) ∅ := by
  refine .of_represents exact.represents.clear (fun lvl1 => ?_) fun lvl1 => ?_
  · change (clearCounts set.level2Counts lvl1).toNat = 0
    rw [clearCounts]
    split
    · rfl
    · rename_i high
      rw [exact.counts, Finset.card_eq_zero, inLeaf, Finset.filter_eq_empty_iff]
      rintro value present rfl
      exact high (cleared_iff.mpr (low value present))
  · simp [ssClear, clearLeaf_eq_none, inLeaf]

/-- A clear forgets the members but not the counter of a high one. -/
theorem Exact.clear_high (exact : Exact set members) (present : value ∈ members) (high : 0x40000000 ≤ value) :
    ¬Accounts (ssClear set) := by
  intro accounts
  have kept : ¬4 * (getLvl1Idx value).val < levelSize := fun low => BitVec.not_le.mpr (cleared_iff.mp low) high
  have count := (accounts (getLvl1Idx value)).1
  change (clearCounts set.level2Counts (getLvl1Idx value)).toNat = 0 at count
  rw [clearCounts, if_neg kept, exact.counts, Finset.card_eq_zero, inLeaf, Finset.filter_eq_empty_iff] at count
  exact count present rfl

/-- Every call whose clear finds only low members succeeds and keeps the accounts. -/
theorem Exact.step (exact : Exact set members) {call : Call} (low : ClearsLow set call) :
    ∃ next replies, machine.step set call = some (next, replies) ∧ ∃ members', Exact next members' := by
  have represents := exact.represents
  cases call with
  | add value =>
      by_cases present : value ∈ members
      · exact ⟨set, [.code 0], by simp [machine, Call.perform, represents.ssAdd_member present], members, exact⟩
      by_cases rejected : members.card = set.maxActive.toNat ∨ value > set.universeSize
      · exact ⟨set, [.code (-1)], by simp [machine, Call.perform, represents.ssAdd_reject present rejected],
          members, exact⟩
      · obtain ⟨room, made⟩ := represents.ssAdd_insert present rejected
        exact ⟨added set value, [.code 0], by simp [machine, Call.perform, made], _, exact.add present room⟩
  | remove value =>
      by_cases present : value ∈ members
      · exact ⟨_, [.code 0], by simp only [machine, Call.perform, represents.ssRemove_eq present, Option.map_some],
          _, exact.remove present⟩
      · exact ⟨set, [.code (-1)], by simp [machine, Call.perform, represents.ssRemove_absent present], members, exact⟩
  | contains value => exact ⟨set, _, rfl, members, exact⟩
  | clear =>
      refine ⟨ssClear set, _, rfl, ∅, exact.clear fun value present => ?_⟩
      exact low value ((represents.denseList_exact.2 value).mpr present)

/-- The leaf counters and the leaves belong to the members in every state of a call sequence
exactly when each clear finds only members below 2^30, and such a sequence makes no invalid access. -/
theorem sparseSet_accounts_iff (memory : Value → Value) (universeSize maxActive : Value) (calls : List Call) :
    (machine.Reaches Accounts (ssCreate memory universeSize maxActive) calls ↔
      machine.Along ClearsLow (ssCreate memory universeSize maxActive) calls) ∧
    (machine.Along ClearsLow (ssCreate memory universeSize maxActive) calls →
      ∃ set replies, machine.run (ssCreate memory universeSize maxActive) calls = some (set, replies)) := by
  have initial : ∃ members, Exact (ssCreate memory universeSize maxActive) members :=
    ⟨∅, ssCreate_exact memory universeSize maxActive⟩
  constructor
  · refine machine.reaches_iff_along (fun set => ∃ members, Exact set members) ?_ ?_ ?_ initial
    · rintro set ⟨members, exact⟩
      exact exact.accounts
    · rintro set call next replies ⟨members, exact⟩ low stepped
      obtain ⟨other, answers, performed, kept⟩ := exact.step low
      obtain ⟨rfl, rfl⟩ := Prod.mk.inj (Option.some.inj (stepped.symm.trans performed))
      exact kept
    · rintro set call ⟨members, exact⟩ high
      cases call with
      | clear =>
          simp only [ClearsLow, not_forall] at high
          obtain ⟨value, listed, large⟩ := high
          exact ⟨ssClear set, _, rfl,
            exact.clear_high ((exact.represents.denseList_exact.2 value).mp listed) (BitVec.not_lt.mp large)⟩
      | _ => exact absurd trivial high
  · intro low
    obtain ⟨set, replies, ran, -⟩ := machine.run_exists_along ClearsLow (fun _ set => ∃ members, Exact set members)
      (fun _ set call ⟨members, exact⟩ low => exact.step low) initial low
    exact ⟨set, replies, ran⟩

/-- A clear keeps the counter of the leaf of 2^30, which has no member any more. -/
theorem sparseSet_clear_keeps_counter :
    ∃ set, machine.run (ssCreate (fun _ => 0) 0xFFFFFFFF 1) [.add 0x40000000, .clear] =
        some (set, [.code 0, .done]) ∧
      denseList set = [] ∧ set.level2Counts (getLvl1Idx 0x40000000) = 1 ∧ ¬Accounts set := by
  refine ⟨_, rfl, rfl, rfl, fun accounts => ?_⟩
  have count := (accounts (getLvl1Idx 0x40000000)).1
  revert count
  decide

end Ostep.Sparse
