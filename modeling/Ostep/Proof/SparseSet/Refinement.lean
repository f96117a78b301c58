import Ostep.Proof.SparseSet.Represents

namespace Ostep.Sparse

open Library

/-- The set stands for the replayed set and keeps the sizes given at its creation. -/
structure Refines (universeSize maxActive : Value) (set : SparseSet) (replay : Replay) : Prop where
  represents : Represents set replay.members replay.inserted
  maxActive : set.maxActive = maxActive
  universeSize : set.universeSize = universeSize

/-- Each call answers as the mathematical set does. -/
theorem Refines.step {universeSize maxActive : Value} {set : SparseSet} {replay next : Replay} {call : Call}
    {replies : List Reply} (refines : Refines universeSize maxActive set replay)
    (few : next.inserted < 2 ^ 32)
    (performed : replay.perform universeSize maxActive call = (next, replies)) :
    ∃ set', call.perform set = some (set', replies) ∧ Refines universeSize maxActive set' next := by
  obtain ⟨represents, sameMax, sameUniverse⟩ := refines
  cases call with
  | add value =>
      simp only [Replay.perform] at performed
      split at performed
      · rename_i present
        obtain ⟨rfl, rfl⟩ := Prod.mk.inj performed
        exact ⟨set, by simp [Call.perform, represents.ssAdd_member present], represents, sameMax, sameUniverse⟩
      · rename_i absent
        rw [← sameMax, ← sameUniverse] at performed
        split at performed
        · rename_i rejected
          obtain ⟨rfl, rfl⟩ := Prod.mk.inj performed
          exact ⟨set, by simp [Call.perform, represents.ssAdd_reject absent rejected],
            represents, sameMax, sameUniverse⟩
        · rename_i accepted
          obtain ⟨rfl, rfl⟩ := Prod.mk.inj performed
          obtain ⟨room, inserted⟩ := represents.ssAdd_insert absent accepted
          exact ⟨added set value, by simp [Call.perform, inserted], represents.add absent room few,
            (added_maxActive set value).trans sameMax, (added_universeSize set value).trans sameUniverse⟩
  | remove value =>
      simp only [Replay.perform] at performed
      split at performed
      · rename_i present
        obtain ⟨rfl, rfl⟩ := Prod.mk.inj performed
        refine ⟨releaseLeaf (unlinked set value) (getLvl1Idx value),
          by simp only [Call.perform, represents.ssRemove_eq present, Option.map_some],
          (represents.remove present).release _, ?_, ?_⟩
        · simpa [unlinked, relink] using sameMax
        · simpa [unlinked, relink] using sameUniverse
      · rename_i absent
        obtain ⟨rfl, rfl⟩ := Prod.mk.inj performed
        exact ⟨set, by simp [Call.perform, represents.ssRemove_absent absent],
          represents, sameMax, sameUniverse⟩
  | contains value =>
      obtain ⟨rfl, rfl⟩ := Prod.mk.inj performed
      exact ⟨set, by simp [Call.perform, represents.contains], represents, sameMax, sameUniverse⟩
  | clear =>
      obtain ⟨rfl, rfl⟩ := Prod.mk.inj performed
      exact ⟨ssClear set, rfl, represents.clear, sameMax, sameUniverse⟩

/-- The number of inserting adds never decreases. -/
theorem Replay.inserted_le (universeSize maxActive : Value) (replay : Replay) (call : Call) :
    replay.inserted ≤ (replay.perform universeSize maxActive call).1.inserted := by
  cases call with
  | add value =>
      simp only [Replay.perform]
      split
      · exact Nat.le_refl _
      · split
        · exact Nat.le_refl _
        · exact Nat.le_succ _
  | remove value =>
      simp only [Replay.perform]
      split <;> exact Nat.le_refl _
  | contains value => exact Nat.le_refl _
  | clear => exact Nat.le_refl _

/-- Every call sequence with fewer than `2 ^ 32` inserting adds runs without an invalid access,
gives the replies of the replayed set, and ends in a state that answers for that set. -/
theorem sparseSet_refines_finset (memory : Value → Value) (universeSize maxActive : Value)
    (calls : List Call) (final : Replay) (replies : List Reply)
    (replayed : (replayMachine universeSize maxActive).run .start calls = some (final, replies))
    (few : final.inserted < 2 ^ 32) :
    ∃ set, machine.run (ssCreate memory universeSize maxActive) calls = some (set, replies) ∧
      (∀ value, ssContains set value = decide (value ∈ final.members)) ∧
      (denseList set).Nodup ∧ (∀ value, value ∈ denseList set ↔ value ∈ final.members) ∧
      (∀ value ∈ final.members, ssAdd set value = some (0, set)) ∧
      (∀ value ∉ final.members, final.members.card = maxActive.toNat ∨ value > universeSize →
        ssAdd set value = some (-1, set)) ∧
      (∀ value ∉ final.members, ¬(final.members.card = maxActive.toNat ∨ value > universeSize) →
        ∃ next, ssAdd set value = some (0, next) ∧
          ∀ other, ssContains next other = decide (other ∈ insert value final.members)) ∧
      (∀ value ∈ final.members, ∃ next, ssRemove set value = some (0, next) ∧
        ∀ other, ssContains next other = decide (other ∈ final.members.erase value)) ∧
      (∀ value ∉ final.members, ssRemove set value = some (-1, set)) := by
  have start : Refines universeSize maxActive (ssCreate memory universeSize maxActive) .start :=
    ⟨ssCreate_represents memory universeSize maxActive, rfl, rfl⟩
  obtain ⟨set, ran, represents, sameMax, sameUniverse⟩ :=
    (replayMachine universeSize maxActive).run_simulation machine
      (fun replay => replay.inserted < 2 ^ 32)
      (Refines universeSize maxActive)
      (fun replay call next replies stepped bounded => by
        obtain rfl := congrArg Prod.fst (Option.some.inj stepped)
        exact lt_of_le_of_lt (replay.inserted_le universeSize maxActive call) bounded)
      (fun set replay call next replies refines bounded stepped =>
        refines.step bounded (Option.some.inj stepped))
      start replayed few
  obtain ⟨distinct, exact_⟩ := represents.denseList_exact
  subst sameMax sameUniverse
  refine ⟨set, ran, represents.contains, distinct, exact_, ?_, ?_, ?_, ?_, ?_⟩
  · exact fun value present => represents.ssAdd_member present
  · exact fun value absent rejected => represents.ssAdd_reject absent rejected
  · intro value absent accepted
    obtain ⟨room, inserted⟩ := represents.ssAdd_insert absent accepted
    exact ⟨added set value, inserted, represents.contains_added room⟩
  · intro value present
    exact ⟨_, represents.ssRemove_eq present, ((represents.remove present).release _).contains⟩
  · exact fun value absent => represents.ssRemove_absent absent

/-- A full set of two answers a duplicate, a rejected add, a removal, and a clear. -/
theorem sparseSet_two_members :
    ∃ set, machine.run (ssCreate (fun _ => 0) 100000 2)
        [.add 65536, .add 7, .add 7, .add 8, .remove 65536, .clear, .add 100000, .contains 100000] =
      some (set, [.code 0, .code 0, .code 0, .code (-1), .code 0, .done, .code 0, .found true]) ∧
      ∀ value, ssContains set value = decide (value ∈ ({100000} : Finset Value)) := by
  obtain ⟨set, ran, contains, -⟩ := sparseSet_refines_finset (fun _ => 0) 100000 2
    [.add 65536, .add 7, .add 7, .add 8, .remove 65536, .clear, .add 100000, .contains 100000]
    ⟨{100000}, 3⟩ [.code 0, .code 0, .code 0, .code (-1), .code 0, .done, .code 0, .found true]
    (by rfl) (by decide)
  exact ⟨set, ran, contains⟩

end Ostep.Sparse
