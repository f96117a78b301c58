/-
This file models the ring that a producer process and a consumer process share.
Each load, buffer access and store is one step, and the steps of the two processes interleave.
-/

import Mathlib.Algebra.Group.Nat.Defs
import Mathlib.Logic.Function.Basic
import Ostep.Library.Machine

namespace Ostep.Spsc

open Library

abbrev Word := BitVec 32

/-- The constant `RB_LEN`. -/
def rbLen : Nat := 10

structure Ring where
  buff : Nat → Word
  head : Nat
  tail : Nat

/-- Each process tests its loop, loads the index of the other one, accesses the buffer and stores its own index. -/
inductive Pc where
  | test
  | load
  | access
  | store
  | done
  deriving Repr, DecidableEq

/-- The producer. -/
structure Parent where
  pc : Pc
  parentCounter : Word
  localHead : Nat

/-- The consumer. -/
structure Child where
  pc : Pc
  childCounter : Word
  localTail : Nat
  entrySum : BitVec 64

inductive Event where
  | wrote (slot : Nat) (value : Word)
  | read (slot : Nat) (value : Word)
  deriving Repr, DecidableEq

/-- The loop test converts the counter to the type of `max_count`. -/
def below (counter : Word) (maxCount : BitVec 64) : Bool := (counter.signExtend 64).ult maxCount

def parentStep (maxCount : BitVec 64) (ring : Ring) (parent : Parent) : Option (Ring × Parent × List Event) :=
  match parent.pc with
  | .test => some (ring, { parent with pc := if below parent.parentCounter maxCount then .load else .done }, [])
  | .load =>
      some (ring, { parent with pc := if (parent.localHead + 1) % rbLen ≠ ring.tail then .access else .test }, [])
  | .access =>
      some ({ ring with buff := Function.update ring.buff parent.localHead parent.parentCounter },
        ⟨.store, parent.parentCounter + 1, (parent.localHead + 1) % rbLen⟩,
        [.wrote parent.localHead parent.parentCounter])
  | .store => some ({ ring with head := parent.localHead }, { parent with pc := .test }, [])
  | .done => none

def childStep (maxCount : BitVec 64) (ring : Ring) (child : Child) : Option (Ring × Child × List Event) :=
  match child.pc with
  | .test => some (ring, { child with pc := if below child.childCounter maxCount then .load else .done }, [])
  | .load => some (ring, { child with pc := if child.localTail ≠ ring.head then .access else .test }, [])
  | .access =>
      some (ring,
        ⟨.store, child.childCounter + 1, (child.localTail + 1) % rbLen,
          child.entrySum + (ring.buff child.localTail).signExtend 64⟩,
        [.read child.localTail (ring.buff child.localTail)])
  | .store => some ({ ring with tail := child.localTail }, { child with pc := .test }, [])
  | .done => none

structure State where
  ring : Ring
  parent : Parent
  child : Child

/-- The process that takes the next step. -/
inductive Action where
  | parent
  | child
  deriving Repr, DecidableEq

/-- The two processes interleave their accesses. -/
def machine (maxCount : BitVec 64) : Machine State Action Event where
  step state
    | .parent =>
        (parentStep maxCount state.ring state.parent).map fun (ring, parent, events) =>
          ({ state with ring, parent }, events)
    | .child =>
        (childStep maxCount state.ring state.child).map fun (ring, child, events) =>
          ({ state with ring, child }, events)

/-- The mapped memory is zero, and both processes start with zero counters. -/
def initial : State where
  ring := ⟨fun _ => 0, 0, 0⟩
  parent := ⟨.test, 0, 0⟩
  child := ⟨.test, 0, 0, 0⟩

/-- The expression that the consumer prints beside its sum. -/
def expectedSum (maxCount : BitVec 64) : BitVec 64 := (maxCount - 1) * ((maxCount - 1) + 1) / 2

/-- The values that the consumer has read, in order. -/
def reads (trace : List Event) : List Word :=
  trace.filterMap fun
    | .read _ value => some value
    | .wrote _ _ => none

/-- The slots whose values have been written and not read since, in the order of the writes. -/
def unread (trace : List Event) : List Nat :=
  trace.foldl (fun slots event =>
    match event with
    | .wrote slot _ => slots ++ [slot]
    | .read slot _ => slots.erase slot) []

end Ostep.Spsc
