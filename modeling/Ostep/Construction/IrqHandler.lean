/-
This file models the interrupt handler of a block whose status bits are cleared by writing ones.
-/

import Ostep.Library.W1c

namespace Ostep.IrqHandler

open Library W1c

abbrev Word := BitVec 32

/-- The four events of the block. -/
inductive Irq where
  | cmdDone
  | error
  | fatal
  | linkDown
  deriving Repr, DecidableEq

def Irq.bit : Irq → Nat
  | .cmdDone => 0
  | .error => 1
  | .fatal => 2
  | .linkDown => 3

/-- The constants `IRQ_CMD_DONE`, `IRQ_ERROR`, `IRQ_FATAL` and `IRQ_LINK_DOWN`. -/
def Irq.flag (irq : Irq) : Word := (1 : Word) <<< irq.bit

structure IrqRegs where
  status : Word
  mask : Word
  deriving Repr, DecidableEq

structure IrqEvents where
  cmdDoneCount : Word
  errorCount : Word
  fatalCount : Word
  linkDownCount : Word
  needsRecovery : Bool
  deriving Repr, DecidableEq

def IrqEvents.counter (events : IrqEvents) : Irq → Word
  | .cmdDone => events.cmdDoneCount
  | .error => events.errorCount
  | .fatal => events.fatalCount
  | .linkDown => events.linkDownCount

/-- What the branch of an event does to the counters. -/
def IrqEvents.count (events : IrqEvents) : Irq → IrqEvents
  | .cmdDone => { events with cmdDoneCount := events.cmdDoneCount + 1 }
  | .error => { events with errorCount := events.errorCount + 1 }
  | .fatal => { events with fatalCount := events.fatalCount + 1, needsRecovery := true }
  | .linkDown => { events with linkDownCount := events.linkDownCount + 1, needsRecovery := true }

/-- One branch of the handler counts its event and adds it to the bits to clear. -/
def branch (activeInterrupts : Word) (result : IrqEvents × Word) (irq : Irq) : IrqEvents × Word :=
  if activeInterrupts &&& irq.flag ≠ 0 then (result.1.count irq, result.2 ||| irq.flag) else result

/-- The branches of `handle_irq` in their order. They give the events and `bits_to_clear`. -/
def handleIrq (activeInterrupts : Word) (events : IrqEvents) : IrqEvents × Word :=
  [.fatal, .linkDown, .error, .cmdDone].foldl (branch activeInterrupts) (events, 0)

/-- The handler may run at any time. It reads the status and the mask in one expression. -/
def driver : Driver 32 Word IrqEvents where
  clearable := BitVec.allOnes 32
  enters _ _ := true
  handle status mask := handleIrq (status &&& mask)

def initial (regs : IrqRegs) (events : IrqEvents) : State 32 Word IrqEvents := ⟨regs.status, regs.mask, events, none⟩

/-- A handler leaves the bits that were not set or masked off at its read, and the bits of no event. -/
def Careful (write : Write 32 Word) : Prop :=
  ∀ bit, write.before.getLsbD bit = true →
    write.read.getLsbD bit = false ∨ write.mask.getLsbD bit = false ∨ 4 ≤ bit → write.after.getLsbD bit = true

end Ostep.IrqHandler
