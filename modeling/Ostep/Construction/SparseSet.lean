/-
This file models the two-level sparse set and the finite set that it stands for.
-/

import Ostep.Library.Machine
import Mathlib.Data.Finset.Card
import Mathlib.Data.Fintype.Basic

namespace Ostep.Sparse

open Library

abbrev Value := BitVec 32

/-- The constant `LEVEL_SIZE` counts the entries of each table level. -/
def levelSize : Nat := 0x1 <<< 16

abbrev Level := Fin levelSize

/-- The constant `UINT32_MAX` marks an absent value. -/
def uint32Max : Value := BitVec.allOnes 32

/-- A missing leaf stands for a null pointer; `dense` has `maxActive` entries. -/
structure SparseSet where
  dense : Value → Value
  sparse : Level → Option (Level → Value)
  level2Counts : Level → Value
  count : Value
  maxActive : Value
  universeSize : Value

def getLvl1Idx (value : Value) : Level :=
  ⟨(value >>> 16).toNat, by have bound := value.isLt; simp [levelSize, Nat.shiftRight_eq_div_pow]; omega⟩

def getLvl2Idx (value : Value) : Level :=
  ⟨(value &&& 0xFFFF).toNat, by
    have bound : value.toNat &&& 0xFFFF ≤ 0xFFFF := Nat.and_le_right
    simp [levelSize, BitVec.toNat_and]
    omega⟩

/-- The dense array comes from `malloc` and starts with arbitrary memory. -/
def ssCreate (memory : Value → Value) (universeSize maxActive : Value) : SparseSet where
  dense := memory
  sparse := fun _ => none
  level2Counts := fun _ => 0
  count := 0
  maxActive := maxActive
  universeSize := universeSize

def ssContains (set : SparseSet) (value : Value) : Bool :=
  match set.sparse (getLvl1Idx value) with
  | none => false
  | some leaf => leaf (getLvl2Idx value) != uint32Max

/-- A read through a null leaf fails. -/
def readLeaf (set : SparseSet) (lvl1 lvl2 : Level) : Option Value :=
  (set.sparse lvl1).map fun leaf => leaf lvl2

/-- A write through a null leaf fails. -/
def writeLeaf (set : SparseSet) (lvl1 lvl2 : Level) (entry : Value) : Option SparseSet :=
  (set.sparse lvl1).map fun leaf =>
    { set with sparse := Function.update set.sparse lvl1 (some (Function.update leaf lvl2 entry)) }

/-- A read past the dense array fails. -/
def readDense (set : SparseSet) (index : Value) : Option Value :=
  if index < set.maxActive then some (set.dense index) else none

/-- A write past the dense array fails. -/
def writeDense (set : SparseSet) (index value : Value) : Option SparseSet :=
  if index < set.maxActive then some { set with dense := Function.update set.dense index value } else none

/-- The leaf of a new value is allocated and filled with the absent mark. -/
def allocateLeaf (set : SparseSet) (lvl1 : Level) : SparseSet :=
  if (set.sparse lvl1).isNone then
    { set with sparse := Function.update set.sparse lvl1 (some fun _ => uint32Max) }
  else set

def ssAdd (set : SparseSet) (value : Value) : Option (Int × SparseSet) :=
  if ssContains set value then some (0, set)
  else if set.count ≥ set.maxActive ∨ value > set.universeSize then some (-1, set)
  else do
    let lvl1 := getLvl1Idx value
    let lvl2 := getLvl2Idx value
    let stored ← writeLeaf (allocateLeaf set lvl1) lvl1 lvl2 set.count
    let listed ← writeDense stored stored.count value
    return (0, { listed with
      count := listed.count + 1
      level2Counts := Function.update listed.level2Counts lvl1 (listed.level2Counts lvl1 + 1) })

/-- The leaf table is freed when its counter reaches zero. -/
def releaseLeaf (set : SparseSet) (lvl1 : Level) : SparseSet :=
  if set.level2Counts lvl1 = 0 then { set with sparse := Function.update set.sparse lvl1 none } else set

def ssRemove (set : SparseSet) (value : Value) : Option (Int × SparseSet) :=
  if !ssContains set value then some (-1, set)
  else do
    let lvl1 := getLvl1Idx value
    let lvl2 := getLvl2Idx value
    let denseIdx ← readLeaf set lvl1 lvl2
    let last ← readDense set (set.count - 1)
    let moved ← writeDense set denseIdx last
    let movedVal ← readDense moved denseIdx
    let linked ← writeLeaf moved (getLvl1Idx movedVal) (getLvl2Idx movedVal) denseIdx
    let cleared ← writeLeaf linked lvl1 lvl2 uint32Max
    let counted := { cleared with
      level2Counts := Function.update cleared.level2Counts lvl1 (cleared.level2Counts lvl1 - 1)
      count := cleared.count - 1 }
    return (0, releaseLeaf counted lvl1)

/-- The loop of `ss_clear` visits each table entry once and frees its leaf. -/
def clearLeaf (leaf : Option (Level → Value)) : Option (Level → Value) :=
  if leaf.isSome then none else leaf

/-- The call clears `LEVEL_SIZE` bytes of the counters, four bytes for each counter. -/
def clearCounts (counts : Level → Value) : Level → Value :=
  fun lvl1 => if 4 * lvl1.val < levelSize then 0 else counts lvl1

def ssClear (set : SparseSet) : SparseSet :=
  { set with
    sparse := fun lvl1 => clearLeaf (set.sparse lvl1)
    level2Counts := clearCounts set.level2Counts
    count := 0 }

inductive Call where
  | add (value : Value)
  | remove (value : Value)
  | contains (value : Value)
  | clear

inductive Reply where
  | code (value : Int)
  | found (value : Bool)
  | done
  deriving DecidableEq

def Call.perform (set : SparseSet) : Call → Option (SparseSet × List Reply)
  | .add value => (ssAdd set value).map fun result => (result.2, [.code result.1])
  | .remove value => (ssRemove set value).map fun result => (result.2, [.code result.1])
  | .contains value => some (set, [.found (ssContains set value)])
  | .clear => some (ssClear set, [.done])

/-- The machine runs calls on one sparse set and fails on an invalid access. -/
def machine : Machine SparseSet Call Reply where
  step := Call.perform

/-- The replay keeps the mathematical set and the number of inserting adds. -/
structure Replay where
  members : Finset Value
  inserted : Nat

def Replay.start : Replay := ⟨∅, 0⟩

/-- The abstract calls act on the mathematical set. -/
def Replay.perform (universeSize maxActive : Value) (replay : Replay) : Call → Replay × List Reply
  | .add value =>
      if value ∈ replay.members then (replay, [.code 0])
      else if replay.members.card = maxActive.toNat ∨ value > universeSize then (replay, [.code (-1)])
      else (⟨insert value replay.members, replay.inserted + 1⟩, [.code 0])
  | .remove value =>
      if value ∈ replay.members then ({ replay with members := replay.members.erase value }, [.code 0])
      else (replay, [.code (-1)])
  | .contains value => (replay, [.found (value ∈ replay.members)])
  | .clear => ({ replay with members := ∅ }, [.done])

def replayMachine (universeSize maxActive : Value) : Machine Replay Call Reply where
  step replay call := some (replay.perform universeSize maxActive call)

/-- The active values lie in the first `count` entries of the dense array. -/
def denseList (set : SparseSet) : List Value :=
  (List.range set.count.toNat).map fun index => set.dense (BitVec.ofNat 32 index)

/-- The number of active values whose upper half is the given index. -/
def leafMembers (set : SparseSet) (lvl1 : Level) : Nat := (denseList set).countP fun value => getLvl1Idx value = lvl1

/-- Each counter is the number of members of its leaf, and exactly the leaves with members are allocated. -/
def Accounts (set : SparseSet) : Prop :=
  ∀ lvl1, (set.level2Counts lvl1).toNat = leafMembers set lvl1 ∧ ((set.sparse lvl1).isSome ↔ 0 < leafMembers set lvl1)

/-- A clear finds only members whose counters it resets. -/
def ClearsLow (set : SparseSet) : Call → Prop
  | .clear => ∀ value ∈ denseList set, value < 0x40000000
  | _ => True

/-- Every active value and every value that the table reports lies below the universe size. -/
def Inside (set : SparseSet) : Prop :=
  (∀ value ∈ denseList set, value < set.universeSize) ∧ ∀ value, ssContains set value → value < set.universeSize

/-- The universe size itself is added only to a full set. -/
def AvoidsEdge (set : SparseSet) : Call → Prop
  | .add value => value = set.universeSize → set.count ≥ set.maxActive
  | _ => True

end Ostep.Sparse
