/-
This file models the ring of 1024 entries whose counters run freely and wrap at 2^32.
-/

import Ostep.Library.Fifo
import Ostep.Library.Ring

namespace Ostep.PowerRing

open Library

abbrev Word := BitVec 32

def ringCap : Nat := 1024

def ringMask : Word := BitVec.ofNat 32 ringCap - 1

/-- The entries are addressed by masked counters only. -/
structure Ring where
  head : Word
  tail : Word
  entries : Word → Word

def ringEmpty (r : Ring) : Bool := r.head == r.tail

def ringFull (r : Ring) : Bool := r.tail - r.head == BitVec.ofNat 32 ringCap

def ringSize (r : Ring) : Word := r.tail - r.head

def ringPush (r : Ring) (value : Word) : Bool × Ring :=
  if ringFull r then (false, r)
  else
    (true, { r with entries := Function.update r.entries (r.tail &&& ringMask) value, tail := r.tail + 1 })

/-- The value is what the pop stores through its pointer. A pop that fails stores nothing. -/
def ringPop (r : Ring) : Option Word × Ring :=
  if ringEmpty r then (none, r)
  else (some (r.entries (r.head &&& ringMask)), { r with head := r.head + 1 })

def step (r : Ring) : Fifo.Call Word → Ring × Fifo.Reply Word
  | .push value => ((ringPush r value).2, .pushed (ringPush r value).1)
  | .pop => ((ringPop r).2, .popped (ringPop r).1)

def machine : Machine Ring (Fifo.Call Word) (Fifo.Reply Word) where
  step r call := some ((step r call).1, [(step r call).2])

/-- The functions of the ring answer as a queue of the given length does. -/
structure Answers (r : Ring) (length : Nat) : Prop where
  size : (ringSize r).toNat = length
  bound : length ≤ ringCap
  empty : ringEmpty r = true ↔ length = 0
  full : ringFull r = true ↔ length = ringCap
  pushFails : ∀ value, (ringPush r value).1 = false ↔ length = ringCap
  popFails : (ringPop r).1 = none ↔ length = 0
  pushKeeps : ∀ value, (ringPush r value).1 = false → (ringPush r value).2 = r
  popKeeps : (ringPop r).1 = none → (ringPop r).2 = r

end Ostep.PowerRing
