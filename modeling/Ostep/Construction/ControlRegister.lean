/-
This file models the setters of the two fields of a control register.
-/

import Ostep.Library.BitField
import Ostep.Library.Machine

namespace Ostep.ControlRegister

open Library

abbrev Word := BitVec 32

def ctrlModeMask : Word := 0x7 <<< 4

def ctrlModeShift : Word := 4

def ctrlTimeoutMask : Word := 0xff <<< 8

/-- A shift by 32 places or more has no defined result. The first argument is what the machine makes of it. -/
def shiftLeft (oversized : Word → Word → Word) (value amount : Word) : Word :=
  if amount < 32 then value <<< amount else oversized value amount

/-- A setter tests its value, clears the mask and adds the shifted value. -/
def setField (oversized : Word → Word → Word) (limit mask amount reg value : Word) : Int × Word :=
  if value > limit then (-1, reg) else (0, (reg &&& ~~~mask) ||| shiftLeft oversized value amount)

def ctrlSetMode (oversized : Word → Word → Word) (reg mode : Word) : Int × Word :=
  setField oversized 7 ctrlModeMask ctrlModeShift reg mode

/-- The source shifts by the mask. -/
def ctrlSetTimeout (oversized : Word → Word → Word) (reg timeout : Word) : Int × Word :=
  setField oversized 255 ctrlTimeoutMask ctrlTimeoutMask reg timeout

inductive Call where
  | setMode (mode : Word)
  | setTimeout (timeout : Word)
  deriving Repr, DecidableEq

def Call.perform (oversized : Word → Word → Word) (reg : Word) : Call → Int × Word
  | .setMode mode => ctrlSetMode oversized reg mode
  | .setTimeout timeout => ctrlSetTimeout oversized reg timeout

/-- The machine runs the calls on one register and reports what each call returns. -/
def machine (oversized : Word → Word → Word) : Machine Word Call Int where
  step reg call := some ((call.perform oversized reg).2, [(call.perform oversized reg).1])

/-- The bits [6:4]. -/
def modeField (reg : Word) : Word := (BitField.read 4 3 reg).setWidth 32

/-- The bits [15:8]. -/
def timeoutField (reg : Word) : Word := (BitField.read 8 8 reg).setWidth 32

/-- A mode of at most three bits is accepted. -/
def Call.mode? : Call → Option Word
  | .setMode mode => if mode ≤ 7 then some mode else none
  | .setTimeout _ => none

/-- A timeout of at most eight bits is accepted. -/
def Call.timeout? : Call → Option Word
  | .setMode _ => none
  | .setTimeout timeout => if timeout ≤ 255 then some timeout else none

def Call.code (call : Call) : Int := if call.mode?.isSome ∨ call.timeout?.isSome then 0 else -1

/-- Each field has its last accepted value, every other bit is as before, and the calls report what they accept. -/
structure Lenses (reg : Word) (calls : List Call) (final : Word) (codes : List Int) : Prop where
  mode : modeField final = (calls.filterMap Call.mode?).getLast?.getD (modeField reg)
  timeout : timeoutField final = (calls.filterMap Call.timeout?).getLast?.getD (timeoutField reg)
  others : ∀ bit, ¬(4 ≤ bit ∧ bit < 7) → ¬(8 ≤ bit ∧ bit < 16) → final.getLsbD bit = reg.getLsbD bit
  codes : codes = calls.map Call.code

/-- The calls run and leave the fields as lenses do. -/
def Lensed (oversized : Word → Word → Word) (reg : Word) (calls : List Call) : Prop :=
  ∃ final codes, (machine oversized).run reg calls = some (final, codes) ∧ Lenses reg calls final codes

/-- Two calls on different fields leave the same register in both orders. -/
def Commutes (oversized : Word → Word → Word) (reg mode timeout : Word) : Prop :=
  (ctrlSetTimeout oversized (ctrlSetMode oversized reg mode).2 timeout).2 =
    (ctrlSetMode oversized (ctrlSetTimeout oversized reg timeout).2 mode).2

end Ostep.ControlRegister
