/-
This file models the table of counters that threads read, add to, copy and reset under a readers-writer lock.
A pointer argument is only compared with null, and all calls with a table name the same one.
-/

import Ostep.Library.RwLock

namespace Ostep.StatsTable

open Library RwLock
open Locking (Next)

def statCount : Nat := 32

abbrev Counter := BitVec 64

def uint64Max : Counter := BitVec.allOnes 64

abbrev Counters := Nat → Counter

/-- A pointer that is not null is `true`. -/
inductive Call where
  | statsRead (t : Bool) (idx : BitVec 64) (out : Bool)
  | statsAdd (t : Bool) (idx delta : BitVec 64)
  | statsSnapshot (t out : Bool) (outCount : BitVec 64)
  | statsResetAll (t : Bool)
  deriving Repr, DecidableEq

/-- The code that a call returns and the values that it writes to its caller. -/
structure Answer where
  code : Int
  out : List Counter
  deriving Repr, DecidableEq

/-- The accesses to the counters. A local variable holds the index of the loop and the values that were read. -/
inductive Act where
  | load (idx : Nat)
  | compare (idx : Nat) (delta : Counter)
  | reload (idx : Nat) (delta : Counter)
  | store (idx : Nat) (value : Counter)
  | copy (i : Nat) (out : List Counter)
  | zero (i : Nat)
  deriving Repr, DecidableEq

/-- The checks of each call before it takes the lock. -/
def start : Call → Except Answer (Mode × Act)
  | .statsRead t idx out =>
      if !t || statCount ≤ idx.toNat || !out then .error ⟨-1, []⟩ else .ok (.read, .load idx.toNat)
  | .statsAdd t idx delta =>
      if !t || statCount ≤ idx.toNat then .error ⟨-1, []⟩ else .ok (.write, .compare idx.toNat delta)
  | .statsSnapshot t out outCount =>
      if !t || !out || outCount.toNat < statCount then .error ⟨-1, []⟩ else .ok (.read, .copy 0 [])
  | .statsResetAll t => if !t then .error ⟨-1, []⟩ else .ok (.write, .zero 0)

/-- The addition reads the counter for its check and again for the sum. -/
def perform : Act → Counters → Counters × Next Act Answer
  | .load idx, counters => (counters, .done ⟨0, [counters idx]⟩)
  | .compare idx delta, counters =>
      if delta > uint64Max - counters idx then (counters, .more (.store idx uint64Max))
      else (counters, .more (.reload idx delta))
  | .reload idx delta, counters => (counters, .more (.store idx (counters idx + delta)))
  | .store idx value, counters => (Function.update counters idx value, .done ⟨0, []⟩)
  | .copy i out, counters =>
      if i < statCount then (counters, .more (.copy (i + 1) (out ++ [counters i]))) else (counters, .done ⟨0, out⟩)
  | .zero i, counters =>
      if i < statCount then (Function.update counters i 0, .more (.zero (i + 1))) else (counters, .done ⟨0, []⟩)

def statsTable : Program Call Act Counters Answer := ⟨start, perform⟩

/-- What a call adds to the counter `i` as a number, where a reset starts over. -/
def total (i total : Nat) : Call → Nat
  | .statsAdd t idx delta => if t ∧ idx.toNat < statCount ∧ idx.toNat = i then total + delta.toNat else total
  | .statsResetAll t => if t then 0 else total
  | _ => total

/-- A counter shows what was added to it since the last reset, up to the greatest value. -/
def shown (counters : Counters) (calls : List Call) (i : Nat) : Counter :=
  BitVec.ofNat 64 (min uint64Max.toNat (calls.foldl (total i) (counters i).toNat))

/-- The answer of a call after other calls. -/
def answer (counters : Counters) (calls : List Call) : Call → Answer
  | .statsRead t idx out =>
      if t ∧ idx.toNat < statCount ∧ out then ⟨0, [shown counters calls idx.toNat]⟩ else ⟨-1, []⟩
  | .statsAdd t idx _ => if t ∧ idx.toNat < statCount then ⟨0, []⟩ else ⟨-1, []⟩
  | .statsSnapshot t out outCount =>
      if t ∧ out ∧ statCount ≤ outCount.toNat then ⟨0, (List.range statCount).map (shown counters calls)⟩
      else ⟨-1, []⟩
  | .statsResetAll t => if t then ⟨0, []⟩ else ⟨-1, []⟩

end Ostep.StatsTable
