/-
This file models the rendezvous of two children that order their messages with semaphores.
-/

import Mathlib.Data.Fintype.Basic
import Ostep.Library.Threads

namespace Ostep.Rendezvous

open Library Threads

inductive Thread where
  | main
  | child1
  | child2
  deriving Repr, DecidableEq

instance : Fintype Thread := ⟨{.main, .child1, .child2}, fun thread => by cases thread <;> decide⟩

inductive Sem where
  | s1
  | s2
  deriving Repr, DecidableEq

inductive Message where
  | parentBegin
  | child1Before
  | child1After
  | child2Before
  | child2After
  | parentEnd
  deriving Repr, DecidableEq

def code : Thread → List (Instr Thread Sem Message)
  | .main =>
      [.emit .parentBegin, .create .child1, .create .child2, .join .child1, .join .child2, .emit .parentEnd, .exit]
  | .child1 => [.emit .child1Before, .wait .s2, .post .s1, .emit .child1After]
  | .child2 => [.emit .child2Before, .post .s2, .wait .s1, .emit .child2After]

/-- Both semaphores start at zero. -/
def start : State Thread Sem Message := initial code (fun _ => 0) .main

/-- What the program is meant to print: both children before the rendezvous, in either order, then both after it. -/
def outputs : List (List Message) :=
  [[.child1Before, .child2Before], [.child2Before, .child1Before]].flatMap fun before =>
    [[.child1After, .child2After], [.child2After, .child1After]].map fun after =>
      [.parentBegin] ++ before ++ after ++ [.parentEnd]

end Ostep.Rendezvous
