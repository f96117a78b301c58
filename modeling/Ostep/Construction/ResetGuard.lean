/-
This file models the module whose reset is meant to stop new commands.
Each locked section is one step.
-/

import Mathlib.Algebra.Group.Nat.Defs
import Ostep.Library.History
import Ostep.Library.Machine

namespace Ostep.ResetGuard

open Library Library.History

inductive ModuleState where
  | ready
  | active
  | resetting
  | faulted
  deriving Repr, DecidableEq

structure Module where
  state : ModuleState
  inflight : BitVec 32
  deriving Repr, DecidableEq

def trySubmitCommand (m : Module) : Module × Bool :=
  if m.state = .ready ∨ m.state = .active then ({ m with inflight := m.inflight + 1 }, true)
  else (m, false)

/-- The branch for the last command of a reset is empty in the source. -/
def commandCompleted (m : Module) : Module := { m with inflight := m.inflight - 1 }

def beginReset (m : Module) : Module × Bool :=
  if m.inflight > 0 then ({ m with state := .resetting }, false) else (m, true)

/-- The callers keep the number of accepted commands that they have not completed. -/
structure State where
  m : Module
  outstanding : Nat
  deriving Repr, DecidableEq

inductive Action where
  | submit
  | complete
  | reset
  deriving Repr, DecidableEq

inductive Event where
  | submitted (success : Bool)
  | completed
  | reset (success : Bool)
  deriving Repr, DecidableEq

/-- The locked sections interleave in any order. A command is completed at most once. -/
def machine : Machine State Action Event where
  step state
    | .submit =>
        let (m, success) := trySubmitCommand state.m
        some (⟨m, if success then state.outstanding + 1 else state.outstanding⟩, [.submitted success])
    | .complete =>
        if 0 < state.outstanding then some (⟨commandCompleted state.m, state.outstanding - 1⟩, [.completed])
        else none
    | .reset =>
        let (m, success) := beginReset state.m
        some ({ state with m }, [.reset success])

def initial : State := ⟨⟨.ready, 0⟩, 0⟩

/-- The number of accepted submissions. -/
def accepted (trace : List Event) : Nat := trace.count (.submitted true)

/-- The number of completed commands. -/
def completed (trace : List Event) : Nat := trace.count .completed

/-- At every moment the commands in flight fit in the counter. -/
def Fits (trace : List Event) : Prop := ∀ before, before <+: trace → accepted before < completed before + 2 ^ 32

/-- A reset was called. -/
def Reset (trace : List Event) : Prop := ∃ success, .reset success ∈ trace

/-- After a reset no submission is accepted, and the number of commands in flight never grows. -/
def Guarded (trace : List Event) : Prop :=
  Always (fun before event => Reset before → event ≠ .submitted true) trace ∧
  ∀ before later, before ++ later <+: trace → Reset before →
    accepted (before ++ later) + completed before ≤ accepted before + completed (before ++ later)

/-- If a submission follows the first reset, that reset finds commands in flight. -/
def FirstResetBusy (trace : List Event) : Prop :=
  ∀ before success after, trace = before ++ .reset success :: after → ¬Reset before →
    (∃ result, .submitted result ∈ after) → accepted before ≠ completed before

end Ostep.ResetGuard
