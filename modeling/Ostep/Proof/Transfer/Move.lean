import Ostep.Construction.Transfer

namespace Ostep.Transfer

open Library

variable {Thread : Type} [DecidableEq Thread]

/-- The accesses that a thread can make, with the owners, values and events they leave. -/
inductive Move (ids : Addr → BitVec 32) (owner : Addr → Option Thread) (values : Addr → Value) (thread : Thread) :
    Worker → (Addr → Option Thread) → (Addr → Value) → Worker → List (Event Thread) → Prop where
  | early {call : Call} {code : Int} {rest : List Call} (returns : earlyReturn call = some code) :
      Move ids owner values thread ⟨.idle, call :: rest⟩ owner values ⟨.idle, rest⟩ [.returned thread call code]
  | start {call : Call} {rest : List Call} (valid : earlyReturn call = none) :
      Move ids owner values thread ⟨.idle, call :: rest⟩ owner values ⟨.lockFirst call, rest⟩ []
  | lockFirst {call : Call} {calls : List Call} (free : owner (first ids call) = none) :
      Move ids owner values thread ⟨.lockFirst call, calls⟩
        (Function.update owner (first ids call) (some thread)) values ⟨.lockSecond call, calls⟩ []
  | lockSecond {call : Call} {calls : List Call} (free : owner (second ids call) = none) :
      Move ids owner values thread ⟨.lockSecond call, calls⟩
        (Function.update owner (second ids call) (some thread)) values ⟨.test call, calls⟩ []
  | testFails {call : Call} {calls : List Call} (short : (values call.source).slt call.amount = true) :
      Move ids owner values thread ⟨.test call, calls⟩ owner values ⟨.unlockSecond call (-3), calls⟩ []
  | testPasses {call : Call} {calls : List Call} (covered : (values call.source).slt call.amount = false) :
      Move ids owner values thread ⟨.test call, calls⟩ owner values ⟨.readSource call, calls⟩ []
  | readSource {call : Call} {calls : List Call} :
      Move ids owner values thread ⟨.readSource call, calls⟩ owner values
        ⟨.writeSource call (values call.source), calls⟩ []
  | writeSource {call : Call} {value : Value} {calls : List Call} :
      Move ids owner values thread ⟨.writeSource call value, calls⟩ owner
        (Function.update values call.source (value - call.amount)) ⟨.readTarget call, calls⟩
        [.wrote thread call.source]
  | readTarget {call : Call} {calls : List Call} :
      Move ids owner values thread ⟨.readTarget call, calls⟩ owner values
        ⟨.writeTarget call (values call.target), calls⟩ []
  | writeTarget {call : Call} {value : Value} {calls : List Call} :
      Move ids owner values thread ⟨.writeTarget call value, calls⟩ owner
        (Function.update values call.target (value + call.amount)) ⟨.unlockSecond call 0, calls⟩
        [.wrote thread call.target]
  | unlockSecond {call : Call} {code : Int} {calls : List Call} :
      Move ids owner values thread ⟨.unlockSecond call code, calls⟩
        (Function.update owner (second ids call) none) values ⟨.unlockFirst call code, calls⟩ []
  | unlockFirst {call : Call} {code : Int} {calls : List Call} :
      Move ids owner values thread ⟨.unlockFirst call code, calls⟩
        (Function.update owner (first ids call) none) values ⟨.idle, calls⟩ [.returned thread call code]

/-- A step is one move of one thread. -/
theorem step_move {ids : Addr → BitVec 32} {state next : State Thread} {thread : Thread}
    {events : List (Event Thread)} (stepped : step ids state thread = some (next, events)) :
    ∃ before owner values after, state.workers thread = before ∧
      Move ids state.owner state.values thread before owner values after events ∧
      next = ⟨values, owner, Function.update state.workers thread after⟩ := by
  rcases current : state.workers thread with ⟨pc, calls⟩
  simp only [step, State.goto, current] at stepped
  cases pc with
  | idle =>
      cases calls with
      | nil => cases stepped
      | cons call rest =>
          cases early : earlyReturn call with
          | some code =>
              simp only [early, Option.some.injEq, Prod.mk.injEq] at stepped
              obtain ⟨rfl, rfl⟩ := stepped
              exact ⟨_, _, _, _, rfl, .early early, rfl⟩
          | none =>
              simp only [early, Option.some.injEq, Prod.mk.injEq] at stepped
              obtain ⟨rfl, rfl⟩ := stepped
              exact ⟨_, _, _, _, rfl, .start early, rfl⟩
  | lockFirst call =>
      simp only [Option.ite_none_right_eq_some, Option.some.injEq, Prod.mk.injEq] at stepped
      obtain ⟨free, rfl, rfl⟩ := stepped
      exact ⟨_, _, _, _, rfl, .lockFirst free, rfl⟩
  | lockSecond call =>
      simp only [Option.ite_none_right_eq_some, Option.some.injEq, Prod.mk.injEq] at stepped
      obtain ⟨free, rfl, rfl⟩ := stepped
      exact ⟨_, _, _, _, rfl, .lockSecond free, rfl⟩
  | test call =>
      dsimp only at stepped
      split at stepped
      · next short =>
          obtain ⟨rfl, rfl⟩ := Prod.mk.inj (Option.some.inj stepped)
          exact ⟨_, _, _, _, rfl, .testFails short, rfl⟩
      · next covered =>
          obtain ⟨rfl, rfl⟩ := Prod.mk.inj (Option.some.inj stepped)
          exact ⟨_, _, _, _, rfl, .testPasses (Bool.eq_false_iff.mpr covered), rfl⟩
  | readSource call =>
      obtain ⟨rfl, rfl⟩ := Prod.mk.inj (Option.some.inj stepped)
      exact ⟨_, _, _, _, rfl, .readSource, rfl⟩
  | writeSource call value =>
      obtain ⟨rfl, rfl⟩ := Prod.mk.inj (Option.some.inj stepped)
      exact ⟨_, _, _, _, rfl, .writeSource, rfl⟩
  | readTarget call =>
      obtain ⟨rfl, rfl⟩ := Prod.mk.inj (Option.some.inj stepped)
      exact ⟨_, _, _, _, rfl, .readTarget, rfl⟩
  | writeTarget call value =>
      obtain ⟨rfl, rfl⟩ := Prod.mk.inj (Option.some.inj stepped)
      exact ⟨_, _, _, _, rfl, .writeTarget, rfl⟩
  | unlockSecond call code =>
      obtain ⟨rfl, rfl⟩ := Prod.mk.inj (Option.some.inj stepped)
      exact ⟨_, _, _, _, rfl, .unlockSecond, rfl⟩
  | unlockFirst call code =>
      obtain ⟨rfl, rfl⟩ := Prod.mk.inj (Option.some.inj stepped)
      exact ⟨_, _, _, _, rfl, .unlockFirst, rfl⟩

end Ostep.Transfer
