/-
This file models the generator of the submasks of a mask.
-/

import Mathlib.Algebra.Group.Nat.Defs
import Mathlib.Logic.Function.Basic

namespace Ostep.Submasks

abbrev Word := BitVec 32

abbrev Size := BitVec 64

theorem and_pred_lt {s mask : Word} (some : s ≠ 0) : ((s - 1) &&& mask).toNat < s.toNat := by
  have before : (s - 1).toNat < s.toNat := by bv_omega
  rw [BitVec.toNat_and]
  exact Nat.lt_of_le_of_lt Nat.and_le_left before

/-- The first loop clears the lowest set bit until none is left. It gives `k`. -/
def countBits (i : Word) : Nat :=
  if some : i ≠ 0 then countBits (i &&& (i - 1)) + 1 else 0
termination_by i.toNat
decreasing_by
  rw [BitVec.and_comm]
  exact and_pred_lt some

/-- The result of `1 << k` is an integer of 32 bits with a sign.
A shift past its highest place has no defined result. The first argument is what the machine makes of it. -/
def shiftOne (oversized : Nat → Word) (k : Nat) : Word := if k ≤ 30 then (1 : Word) <<< k else oversized k

/-- The second loop stores the submasks from the mask down. It gives `idx` and the stores to `out`.
The index is an integer with a sign, which wraps on the machine after 2^31 stores. -/
def walk (mask s idx : Word) : Word × List (Int × Word) :=
  if some : s ≠ 0 then
    let rest := walk mask ((s - 1) &&& mask) (idx + 1)
    (rest.1, (idx.toInt, s) :: rest.2)
  else (idx, [])
termination_by s.toNat
decreasing_by exact and_pred_lt some

/-- A call returns its code, the contents of `out_count` and its stores to `out`.
No contents stand for a null pointer. -/
structure Result where
  code : Int
  outCount : Option Size
  stores : List (Int × Word)
  deriving Repr, DecidableEq

/-- The contents of `out` after the stores of a call. -/
def Result.out (result : Result) (memory : Int → Word) : Int → Word :=
  result.stores.foldl (fun memory entry => Function.update memory entry.1 entry.2) memory

/-- The arguments `out` and `outCount` tell whether the pointers are not null. -/
def generateSubmasks (oversized : Nat → Word) (mask : Word) (out : Bool) (outCap : Size) (outCount : Bool) : Result :=
  if !outCount then ⟨-1, none, []⟩
  else if !out ∧ mask ≠ 0 then ⟨-2, some 0, []⟩
  else if !out ∧ mask = 0 then ⟨0, some 1, []⟩
  else
    -- The comparison converts the shifted integer to the unsigned type of the capacity.
    if outCap < (shiftOne oversized (countBits mask)).signExtend 64 then ⟨-3, some 0, []⟩
    else
      let walked := walk mask mask 1
      ⟨0, some (walked.1.signExtend 64), (0, 0) :: walked.2⟩

/-- The number of set bits. -/
def setBits (mask : Word) : Nat := (List.range 32).countP mask.getLsbD

/-- The submasks are the numbers whose bits are all bits of the mask. -/
def Submask (mask s : Word) : Prop := s &&& mask = s

/-- The call sets the count to zero and stores nothing else. -/
def Result.Untouched (result : Result) : Prop := result.outCount = some 0 ∧ result.stores = []

/-- The shift of one is by fewer places than the type has and its result is a value of the type. -/
def ShiftInRange (k : Nat) : Prop := k < 32 ∧ 2 ^ k ≤ 2147483647

end Ostep.Submasks
