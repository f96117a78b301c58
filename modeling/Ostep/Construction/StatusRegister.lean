/-
This file models two routines for status registers whose bits are cleared by writing ones.
-/

import Ostep.Library.W1c

namespace Ostep.StatusRegister

open Library W1c

abbrev Word := BitVec 32

namespace InterruptStorm

/-- The constants `IRQ_DONE`, `IRQ_ERROR` and `IRQ_FATAL`. -/
def irqDone : Word := (1 : Word) <<< 0

def irqError : Word := (1 : Word) <<< 1

def irqFatal : Word := (1 : Word) <<< 2

/-- The counters of the handler, and how often it has called `wake_recovery_task`. -/
structure Counts where
  doneCount : Word
  errorCount : Word
  recoveryNeeded : Bool
  woken : Nat
  deriving Repr, DecidableEq

/-- What `irq_handler` does with the status that it has read. -/
def irqHandler (st : Word) (s : Counts) : Counts :=
  let s := if st &&& irqDone ≠ 0 then { s with doneCount := s.doneCount + 1 } else s
  let s :=
    if st &&& irqError ≠ 0 then
      { s with errorCount := s.errorCount + 1, recoveryNeeded := true, woken := s.woken + 1 }
    else s
  if st &&& irqFatal ≠ 0 then { s with recoveryNeeded := true, woken := s.woken + 1 } else s

/-- The interrupt is raised while an unmasked bit is set. The handler does not read the mask and writes `IRQ_DONE`. -/
def driver : Driver 32 Word Counts where
  clearable := irqDone ||| irqError ||| irqFatal
  enters status mask := status &&& mask ≠ 0
  handle st _ s := (irqHandler st s, irqDone)

end InterruptStorm

namespace ClearDone

/-- The constants `STAT_DONE`, `STAT_ERROR` and `STAT_FATAL`. The bit `STAT_BUSY` above them is read-only. -/
def statDone : Word := (1 : Word) <<< 0

def statError : Word := (1 : Word) <<< 1

def statFatal : Word := (1 : Word) <<< 2

/-- The value that `clear_done` writes back. -/
def clearDone (v : Word) : Word := v &&& ~~~statDone

/-- The routine keeps no data and has no mask. -/
def driver : Driver 32 Unit Unit where
  clearable := statDone ||| statError ||| statFatal
  enters _ _ := true
  handle v _ _ := ((), clearDone v)

end ClearDone

end Ostep.StatusRegister
