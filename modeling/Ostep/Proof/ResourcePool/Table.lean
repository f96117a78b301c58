import Ostep.Library.Count
import Ostep.Construction.ResourcePool

namespace Ostep.ResourcePool

open Library.Count

variable {pool : Pool} {id : Word} {i : Slot}

/-- The scan of an acquire stops at an unused slot. -/
theorem inUse_of_findFree (found : findFree pool = some i) : pool.inUse i = false := by
  have unusedSlot := List.find?_some found
  simpa using unusedSlot

/-- The scan of an acquire finds a slot unless all are in use. -/
theorem exists_findFree (free : ∃ i, pool.inUse i = false) : ∃ i, findFree pool = some i := by
  obtain ⟨i, idle⟩ := free
  apply Option.isSome_iff_exists.mp
  rw [findFree, List.find?_isSome]
  exact ⟨i, List.mem_finRange i, by simp [idle]⟩

/-- The scan of a release stops at a slot with the id. -/
theorem ids_of_findId (found : findId pool id = some i) : pool.ids i = id := by
  have same := List.find?_some found
  exact (of_decide_eq_true same).symm

/-- The scan of a release finds every known id. -/
theorem exists_findId (known : ∃ i, pool.ids i = id) : ∃ i, findId pool id = some i := by
  obtain ⟨i, same⟩ := known
  apply Option.isSome_iff_exists.mp
  rw [findId, List.find?_isSome]
  exact ⟨i, List.mem_finRange i, by simp [same]⟩

/-- A closed pool gives no id. -/
theorem acquireSection_closed (closed : pool.closed = true) : acquireSection pool = (pool, none) := if_pos closed

/-- An open pool marks the slot that the scan found. -/
theorem acquireSection_found (opened : pool.closed = false) (found : findFree pool = some i) :
    acquireSection pool = ({ pool with inUse := Function.update pool.inUse i true }, some (pool.ids i)) := by
  simp [acquireSection, opened, found]

/-- A scan without a result gives the id of slot 0. -/
theorem acquireSection_full (opened : pool.closed = false) (full : findFree pool = none) :
    acquireSection pool = (pool, some (pool.ids 0)) := by
  simp [acquireSection, opened, full]

/-- A release of a known id clears its slot. -/
theorem releaseSection_found (found : findId pool id = some i) :
    releaseSection pool id = ({ pool with inUse := Function.update pool.inUse i false }, true) := by
  simp [releaseSection, found]

/-- A release of an unknown id keeps the mutex. -/
theorem releaseSection_unknown (missing : findId pool id = none) :
    releaseSection pool id = ({ pool with mutexFree := false }, false) := by
  simp [releaseSection, missing]

/-- The used slots as a sum over the table. -/
theorem used_eq_total (pool : Pool) : used pool = total Bool.toNat pool.inUse := by
  rw [used, Finset.card_filter, total]
  apply Finset.sum_congr rfl
  intro i _
  cases pool.inUse i <;> rfl

theorem used_emptyPool (ids : Slot → Word) : used (emptyPool ids) = 0 :=
  Finset.card_eq_zero.mpr (Finset.filter_false_of_mem fun _ _ => nofun)

/-- Each slot is used or unused. -/
theorem used_add_unused (pool : Pool) : used pool + unused pool = rpCap := by
  have split := Finset.card_filter_add_card_filter_not (s := Finset.univ) fun i => pool.inUse i = true
  simp only [Bool.not_eq_true] at split
  exact split.trans (Fintype.card_fin rpCap)

/-- A slot that changes its mark changes the number of used slots. -/
theorem used_update (pool : Pool) (i : Slot) (mark : Bool) :
    used { pool with inUse := Function.update pool.inUse i mark } + (pool.inUse i).toNat =
      used pool + mark.toNat := by
  rw [used_eq_total, used_eq_total]
  exact total_update Bool.toNat pool.inUse i mark

/-- A slot that changes its mark changes the number of unused slots. -/
theorem unused_update (pool : Pool) (i : Slot) (mark : Bool) :
    unused { pool with inUse := Function.update pool.inUse i mark } + mark.toNat =
      unused pool + (pool.inUse i).toNat := by
  have change := used_update pool i mark
  have before := used_add_unused pool
  have after := used_add_unused { pool with inUse := Function.update pool.inUse i mark }
  omega

/-- Some slot is unused while not all are used. -/
theorem exists_unused (room : used pool < rpCap) : ∃ i, pool.inUse i = false := by
  have positive : 0 < unused pool := by
    have all := used_add_unused pool
    omega
  obtain ⟨i, member⟩ := Finset.card_pos.mp positive
  exact ⟨i, (Finset.mem_filter.mp member).2⟩

/-- Eight different ids. -/
def exampleIds (i : Slot) : Word := BitVec.ofNat 32 (10 + i)

theorem exampleIds_injective : Function.Injective exampleIds := by
  intro i j
  revert i j
  decide

end Ostep.ResourcePool
