import Ostep.Proof.SparseSet.Represents

namespace Ostep.Sparse

open Library

variable {set next : SparseSet} {value : Value} {code : Int}

theorem inside_iff :
    Inside set ↔ (∀ index < set.count, set.dense index < set.universeSize) ∧
      ∀ value, entry set value ≠ uint32Max → value < set.universeSize := by
  simp only [Inside, mem_denseList, ssContains_iff]
  exact and_congr_left' ⟨fun all index below => all _ ⟨index, below, rfl⟩,
    fun all _ ⟨index, below, same⟩ => same ▸ all index below⟩

/-- An add changes nothing or inserts a value that it has tested. -/
theorem ssAdd_eq_some (performed : ssAdd set value = some (code, next)) :
    next = set ∨ (set.count < set.maxActive ∧ value ≤ set.universeSize ∧ next = added set value) := by
  by_cases present : ssContains set value = true
  · rw [ssAdd, if_pos present] at performed
    exact Or.inl (congrArg Prod.snd (Option.some.inj performed)).symm
  by_cases rejected : set.count ≥ set.maxActive ∨ value > set.universeSize
  · rw [ssAdd, if_neg present, if_pos rejected] at performed
    exact Or.inl (congrArg Prod.snd (Option.some.inj performed)).symm
  · obtain ⟨room, bounded⟩ := not_or.mp rejected
    rw [ge_iff_le, BitVec.not_le] at room
    rw [gt_iff_lt, BitVec.not_lt] at bounded
    rw [ssAdd_eq_added (Bool.eq_false_iff.mpr present) room bounded] at performed
    exact Or.inr ⟨room, bounded, (congrArg Prod.snd (Option.some.inj performed)).symm⟩

/-- An add of a value below the universe size keeps the set inside. -/
theorem Inside.add (inside : Inside set) (room : set.count < set.maxActive) (below : value < set.universeSize) :
    Inside (added set value) := by
  obtain ⟨dense, table⟩ := inside_iff.mp inside
  rw [inside_iff, added_universeSize]
  constructor
  · intro index lower
    change index < set.count + 1 at lower
    change Function.update set.dense set.count value index < _
    by_cases last : index = set.count
    · rwa [last, Function.update_self]
    · rw [Function.update_of_ne last]
      exact dense index (by bv_omega)
  · intro other present
    rw [entry_added] at present
    split at present
    · next same => rwa [same]
    · exact table other present

/-- A write through the table needs the leaf of its value. -/
theorem writeLeaf_eq_some {index : Value}
    (written : writeLeaf set (getLvl1Idx value) (getLvl2Idx value) index = some next) :
    (set.sparse (getLvl1Idx value)).isSome ∧ next = relink set value index := by
  have held : (set.sparse (getLvl1Idx value)).isSome := by
    obtain ⟨leaf, found, -⟩ := Option.map_eq_some_iff.mp written
    rw [found]
    rfl
  rw [writeLeaf_eq set value index held] at written
  exact ⟨held, (Option.some.inj written).symm⟩

/-- A released leaf takes entries away. -/
theorem entry_releaseLeaf {lvl1 : Level} (present : entry (releaseLeaf set lvl1) value ≠ uint32Max) :
    entry set value ≠ uint32Max := by
  unfold releaseLeaf at present
  split at present
  · by_cases same : getLvl1Idx value = lvl1
    · simp [entry, same] at present
    · simpa [entry, same] using present
  · exact present

/-- A removal changes nothing or moves the last active value to the place of the removed one. -/
theorem ssRemove_eq_some (performed : ssRemove set value = some (code, next)) :
    next = set ∨ (set.count - 1 < set.maxActive ∧ (set.sparse (getLvl1Idx (set.dense (set.count - 1)))).isSome ∧
      (set.sparse (getLvl1Idx value)).isSome ∧ next = releaseLeaf (unlinked set value) (getLvl1Idx value)) := by
  by_cases absent : (!ssContains set value) = true
  · rw [ssRemove, if_pos absent] at performed
    exact Or.inl (congrArg Prod.snd (Option.some.inj performed)).symm
  · right
    rw [ssRemove, if_neg absent] at performed
    simp only [Option.bind_eq_bind, Option.bind_eq_some_iff] at performed
    obtain ⟨index, read, last, readLast, moved, wrote, movedVal, reread, linked, wroteLast, cleared, wroteMark, made⟩ :=
      performed
    obtain ⟨inside, rfl⟩ := Option.ite_none_right_eq_some.mp readLast |>.imp_right Option.some.inj
    obtain ⟨-, rfl⟩ := Option.ite_none_right_eq_some.mp wrote |>.imp_right Option.some.inj
    obtain ⟨-, rfl⟩ := Option.ite_none_right_eq_some.mp reread |>.imp_right Option.some.inj
    obtain ⟨leaf, found, rfl⟩ := Option.map_eq_some_iff.mp read
    dsimp only at wroteLast
    rw [Function.update_self] at wroteLast
    obtain ⟨heldLast, rfl⟩ := writeLeaf_eq_some wroteLast
    obtain ⟨-, rfl⟩ := writeLeaf_eq_some wroteMark
    refine ⟨inside, heldLast, Option.isSome_iff_exists.mpr ⟨leaf, found⟩, ?_⟩
    have place : leaf (getLvl2Idx value) = entry set value := by simp only [entry, found]
    rw [place] at made
    exact (congrArg Prod.snd (Option.some.inj made)).symm

/-- A removal keeps the set inside. -/
theorem Inside.remove (inside : Inside set) (room : set.count - 1 < set.maxActive)
    (heldLast : (set.sparse (getLvl1Idx (set.dense (set.count - 1)))).isSome)
    (held : (set.sparse (getLvl1Idx value)).isSome) :
    Inside (releaseLeaf (unlinked set value) (getLvl1Idx value)) := by
  obtain ⟨dense, table⟩ := inside_iff.mp inside
  -- The index of the last value was read, so the count is not zero.
  have lastBelow : set.dense (set.count - 1) < set.universeSize := dense _ (by bv_omega)
  rw [inside_iff, releaseLeaf_dense, releaseLeaf_count, releaseLeaf_universeSize]
  constructor
  · intro index below
    change index < set.count - 1 at below
    change Function.update set.dense (entry set value) (set.dense (set.count - 1)) index < _
    by_cases hole : index = entry set value
    · rwa [hole, Function.update_self]
    · rw [Function.update_of_ne hole]
      exact dense index (by bv_omega)
  · intro other present
    have remains := entry_releaseLeaf present
    rw [entry_unlinked heldLast held] at remains
    split_ifs at remains with removed last
    · exact absurd rfl remains
    · rwa [last]
    · exact table other remains

/-- A call that keeps away from the edge keeps the set inside. -/
theorem Inside.step (inside : Inside set) {call : Call} {replies : List Reply} (avoids : AvoidsEdge set call)
    (stepped : machine.step set call = some (next, replies)) : Inside next := by
  cases call with
  | add value =>
      obtain ⟨⟨code, after⟩, performed, same⟩ := Option.map_eq_some_iff.mp stepped
      obtain rfl : after = next := congrArg Prod.fst same
      rcases ssAdd_eq_some performed with rfl | ⟨room, bounded, rfl⟩
      · exact inside
      · have different : value ≠ set.universeSize := fun edge => absurd (avoids edge) (BitVec.not_le.mpr room)
        exact inside.add room (by bv_omega)
  | remove value =>
      obtain ⟨⟨code, after⟩, performed, same⟩ := Option.map_eq_some_iff.mp stepped
      obtain rfl : after = next := congrArg Prod.fst same
      rcases ssRemove_eq_some performed with rfl | ⟨room, heldLast, held, rfl⟩
      · exact inside
      · exact inside.remove room heldLast held
  | contains value =>
      obtain rfl := congrArg Prod.fst (Option.some.inj stepped)
      exact inside
  | clear =>
      obtain rfl := congrArg Prod.fst (Option.some.inj stepped)
      rw [inside_iff]
      refine ⟨fun index below => ?_, fun value present => absurd (entry_ssClear set value) present⟩
      simp [ssClear] at below

/-- The universe size is added when there is room for it. -/
theorem Inside.add_edge (inside : Inside set) (room : set.count < set.maxActive) :
    ∃ next replies, machine.step set (.add set.universeSize) = some (next, replies) ∧ ¬Inside next := by
  have absent : ssContains set set.universeSize = false :=
    Bool.eq_false_iff.mpr fun present => BitVec.lt_irrefl _ (inside.2 _ present)
  have made := ssAdd_eq_added absent room (BitVec.le_refl _)
  refine ⟨added set set.universeSize, [.code 0], by simp only [machine, Call.perform, made, Option.map_some], ?_⟩
  intro within
  have present : entry (added set set.universeSize) set.universeSize ≠ uint32Max := by
    rw [entry_added, if_pos rfl]
    exact ne_uint32Max_of_lt room
  have below := (inside_iff.mp within).2 _ present
  rw [added_universeSize] at below
  exact BitVec.lt_irrefl _ below

/-- New values of the universe are added one after the other while there is room. -/
theorem Represents.adds {values : List Value} {members : Finset Value} {inserted : Nat}
    (represents : Represents set members inserted) (distinct : values.Nodup)
    (fresh : ∀ value ∈ values, value ∉ members) (bounded : ∀ value ∈ values, value ≤ set.universeSize)
    (room : members.card + values.length ≤ set.maxActive.toNat) (few : inserted + values.length < 2 ^ 32) :
    ∃ next, machine.run set (values.map .add) = some (next, values.map fun _ => .code 0) ∧
      Represents next (members ∪ values.toFinset) (inserted + values.length) := by
  induction values generalizing set members inserted with
  | nil => exact ⟨set, rfl, by simpa using represents⟩
  | cons value rest ih =>
      obtain ⟨notLater, distinct⟩ := List.nodup_cons.mp distinct
      have absent := fresh value List.mem_cons_self
      have tested : ¬(members.card = set.maxActive.toNat ∨ value > set.universeSize) := by
        rw [List.length_cons] at room
        exact not_or.mpr ⟨by omega, BitVec.not_lt.mpr (bounded value List.mem_cons_self)⟩
      obtain ⟨space, made⟩ := represents.ssAdd_insert absent tested
      rw [List.length_cons, ← Nat.add_assoc, Nat.add_right_comm] at room few
      have freshRest (other : Value) (later : other ∈ rest) : other ∉ insert value members := by
        rw [Finset.mem_insert, not_or]
        exact ⟨fun same => notLater (same ▸ later), fresh other (List.mem_cons_of_mem _ later)⟩
      have boundedRest (other : Value) (later : other ∈ rest) : other ≤ (added set value).universeSize := by
        rw [added_universeSize]
        exact bounded other (List.mem_cons_of_mem _ later)
      have roomRest : (insert value members).card + rest.length ≤ (added set value).maxActive.toNat := by
        rwa [Finset.card_insert_of_notMem absent, added_maxActive]
      obtain ⟨next, ran, final⟩ :=
        ih (represents.add absent space (by omega)) distinct freshRest boundedRest roomRest few
      refine ⟨next, machine.run_cons_eq_some.mpr ⟨_, [.code 0], _, ?_, ran, rfl⟩, ?_⟩
      · simp only [machine, Call.perform, made, Option.map_some]
      · rwa [List.toFinset_cons, Finset.union_insert, ← Finset.insert_union, List.length_cons, ← Nat.add_assoc,
          Nat.add_right_comm]

/-- A call sequence keeps the set inside the universe exactly when it adds the universe size only to a full set.
Distinct values of the universe, as many as the set may hold, are accepted in any order. -/
theorem sparseSet_inside_iff (memory : Value → Value) (universeSize maxActive : Value) :
    (∀ calls, machine.Reaches Inside (ssCreate memory universeSize maxActive) calls ↔
      machine.Along AvoidsEdge (ssCreate memory universeSize maxActive) calls) ∧
    ∀ values : List Value, values.Nodup → values.length ≤ maxActive.toNat → (∀ value ∈ values, value < universeSize) →
      ∃ set, machine.run (ssCreate memory universeSize maxActive) (values.map .add) =
          some (set, values.map fun _ => .code 0) ∧
        ∀ value, ssContains set value = decide (value ∈ values) := by
  constructor
  · intro calls
    refine machine.reaches_iff_along Inside (fun _ => id)
      (fun _ _ _ _ inside avoids stepped => inside.step avoids stepped) ?_ ?_
    · intro set call inside edge
      cases call with
      | add value =>
          obtain ⟨rfl, room⟩ := Classical.not_imp.mp edge
          exact inside.add_edge (BitVec.not_le.mp room)
      | _ => exact absurd trivial edge
    · exact inside_iff.mpr ⟨by simp [ssCreate], by simp [entry, ssCreate]⟩
  · intro values distinct fits bounded
    obtain ⟨set, ran, represents⟩ := (ssCreate_represents memory universeSize maxActive).adds distinct
      (fun value _ => Finset.notMem_empty value) (fun value listed => BitVec.le_of_lt (bounded value listed))
      (by rwa [Finset.card_empty, Nat.zero_add]) (by have bound := maxActive.isLt; omega)
    refine ⟨set, ran, fun value => ?_⟩
    rw [represents.contains]
    simp

/-- Two values of a universe of four fill a set of two in either order. -/
theorem sparseSet_builds_two :
    ∃ set, machine.run (ssCreate (fun _ => 0) 4 2) [.add 3, .add 1] = some (set, [.code 0, .code 0]) ∧
      ∀ value, ssContains set value = decide (value ∈ [3, 1]) :=
  (sparseSet_inside_iff (fun _ => 0) 4 2).2 [3, 1] (by decide) (by decide) (by simp)

/-- A set accepts the size of its universe as a member. -/
theorem sparseSet_admits_edge :
    ∃ set, machine.run (ssCreate (fun _ => 0) 4 2) [.add 4] = some (set, [.code 0]) ∧
      ssContains set 4 = true ∧ denseList set = [4] ∧ ¬Inside set := by
  refine ⟨_, rfl, rfl, rfl, fun inside => ?_⟩
  exact BitVec.lt_irrefl _ (inside.2 4 rfl)

end Ostep.Sparse
