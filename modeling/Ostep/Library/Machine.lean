import Mathlib.Tactic.Common

namespace Ostep.Library

/-- Each enabled action gives the next state and the events it emits. -/
structure Machine (State Action Event : Type) where
  step : State → Action → Option (State × List Event)

namespace Machine

variable {State Action Event : Type} (machine : Machine State Action Event)

/-- A schedule runs its actions in order and collects their events. -/
def run (start : State) : List Action → Option (State × List Event)
  | [] => some (start, [])
  | action :: rest =>
      (machine.step start action).bind fun first =>
        (run first.1 rest).map fun final => (final.1, first.2 ++ final.2)

/-- Every action of the schedule meets the condition in the state where it runs. -/
def Along (condition : State → Action → Prop) : State → List Action → Prop
  | _, [] => True
  | state, action :: rest =>
      condition state action ∧
        ∀ next events, machine.step state action = some (next, events) → Along condition next rest

/-- Every state that a beginning of the schedule reaches is good. -/
def Reaches (good : State → Prop) (start : State) (schedule : List Action) : Prop :=
  ∀ before state trace, before <+: schedule → machine.run start before = some (state, trace) → good state

/-- What an observer notes at each action, in the state where the action runs. -/
def observe {Seen : Type} (note : State → Action → List Seen) : State → List Action → List Seen
  | _, [] => []
  | state, action :: rest =>
      note state action ++ ((machine.step state action).map fun next => observe note next.1 rest).getD []

/-- An action is enabled when the machine can take it. -/
def Enabled (state : State) (action : Action) : Prop := (machine.step state action).isSome

@[simp] theorem run_nil (start : State) : machine.run start [] = some (start, []) := rfl

/-- A nonempty run takes its first action and runs the rest. -/
theorem run_cons_eq_some {start final : State} {action : Action} {rest : List Action}
    {trace : List Event} :
    machine.run start (action :: rest) = some (final, trace) ↔
      ∃ next events later, machine.step start action = some (next, events) ∧
        machine.run next rest = some (final, later) ∧ trace = events ++ later := by
  simp only [run, Option.bind_eq_some_iff, Option.map_eq_some_iff, Prod.exists, Prod.mk.injEq]
  constructor
  · rintro ⟨next, events, stepped, _, later, ran, rfl, rfl⟩
    exact ⟨next, events, later, stepped, ran, rfl⟩
  · rintro ⟨next, events, later, stepped, ran, rfl⟩
    exact ⟨next, events, stepped, final, later, ran, rfl, rfl⟩

/-- A thread whose step depends on its own local state takes that step and goes on. -/
theorem run_update {Thread Local : Type} [DecidableEq Thread] {threads : Thread → Local} {thread : Thread}
    {current next : Local} {before after : (Thread → Local) → State} {action : Action} {rest : List Action}
    {events trace : List Event} {final : State}
    (stepped : ∀ others, others thread = current →
      machine.step (before others) action = some (after (Function.update others thread next), events))
    (ran : machine.run (after (Function.update threads thread next)) rest = some (final, trace)) :
    machine.run (before (Function.update threads thread current)) (action :: rest) = some (final, events ++ trace) := by
  refine machine.run_cons_eq_some.mpr ⟨_, events, trace, stepped _ (Function.update_self ..), ?_, rfl⟩
  rwa [Function.update_idem]

/-- A schedule runs its second part where its first part ended. -/
theorem run_append_eq {start middle : State} {first : List Action} {early : List Event}
    (began : machine.run start first = some (middle, early)) (second : List Action) :
    machine.run start (first ++ second) =
      (machine.run middle second).map fun final => (final.1, early ++ final.2) := by
  induction first generalizing start early with
  | nil =>
      obtain ⟨rfl, rfl⟩ := Prod.mk.inj (Option.some.inj began)
      exact Option.map_id'.symm
  | cons action rest ih =>
      obtain ⟨next, events, later, stepped, ran, rfl⟩ := machine.run_cons_eq_some.mp began
      simp only [List.cons_append, run, stepped, Option.bind_some, ih ran, Option.map_map, Function.comp_def,
        List.append_assoc]

/-- A run goes on where another one ended. -/
theorem run_append {start middle final : State} {first second : List Action} {early late : List Event}
    (began : machine.run start first = some (middle, early))
    (continued : machine.run middle second = some (final, late)) :
    machine.run start (first ++ second) = some (final, early ++ late) := by
  rw [machine.run_append_eq began, continued, Option.map_some]

/-- An observer goes on where the first part of a schedule ended. -/
theorem observe_append {Seen : Type} (note : State → Action → List Seen) {start middle : State}
    {first : List Action} {early : List Event} (began : machine.run start first = some (middle, early))
    (second : List Action) :
    machine.observe note start (first ++ second) =
      machine.observe note start first ++ machine.observe note middle second := by
  induction first generalizing start early with
  | nil =>
      obtain ⟨rfl, rfl⟩ := Prod.mk.inj (Option.some.inj began)
      rfl
  | cons action rest ih =>
      obtain ⟨next, events, later, stepped, ran, rfl⟩ := machine.run_cons_eq_some.mp began
      simp only [List.cons_append, observe, stepped, Option.map_some, Option.getD_some, ih ran, List.append_assoc]

/-- A condition-bound run keeps what each conforming step keeps of its history. -/
theorem run_invariant_along (condition : State → Action → Prop)
    (invariant : List Action → List Event → State → Prop)
    (kept : ∀ actions past state action next events, invariant actions past state →
      condition state action → machine.step state action = some (next, events) →
      invariant (actions ++ [action]) (past ++ events) next)
    {start final : State} {schedule : List Action} {trace : List Event}
    (initial : invariant [] [] start) (conforming : machine.Along condition start schedule)
    (ran : machine.run start schedule = some (final, trace)) :
    invariant schedule trace final := by
  suffices continues : ∀ actions past, invariant actions past start →
      invariant (actions ++ schedule) (past ++ trace) final from continues [] [] initial
  clear initial
  induction schedule generalizing start trace with
  | nil =>
      intro actions past holds
      simp only [run_nil, Option.some.injEq, Prod.mk.injEq] at ran
      obtain ⟨rfl, rfl⟩ := ran
      simpa only [List.append_nil] using holds
  | cons action rest ih =>
      intro actions past holds
      obtain ⟨next, events, later, stepped, continued, rfl⟩ := machine.run_cons_eq_some.mp ran
      have advanced := kept actions past start action next events holds conforming.1 stepped
      simpa only [List.append_assoc, List.singleton_append] using
        ih (conforming.2 next events stepped) continued _ _ advanced

/-- A schedule conforms when its first action does and the rest conforms after it. -/
theorem along_cons_iff {condition : State → Action → Prop} {state next : State} {action : Action}
    {rest : List Action} {events : List Event}
    (stepped : machine.step state action = some (next, events)) :
    machine.Along condition state (action :: rest) ↔
      condition state action ∧ machine.Along condition next rest := by
  refine and_congr_right fun _ => ⟨fun later => later next events stepped, fun later other emitted same => ?_⟩
  rw [stepped, Option.some.injEq, Prod.mk.injEq] at same
  exact same.1 ▸ later

instance decidableAlong (condition : State → Action → Prop)
    [∀ state action, Decidable (condition state action)] :
    (state : State) → (schedule : List Action) → Decidable (machine.Along condition state schedule)
  | _, [] => isTrue trivial
  | state, action :: rest =>
      match stepped : machine.step state action with
      | none => decidable_of_iff (condition state action)
          ⟨fun first => ⟨first, fun _ _ same => by simp [stepped] at same⟩, And.left⟩
      | some (next, _) =>
          let _ := decidableAlong condition next rest
          decidable_of_iff (condition state action ∧ machine.Along condition next rest)
            (machine.along_cons_iff stepped).symm

/-- The trivial condition bounds no schedule. -/
theorem along_true (start : State) (schedule : List Action) :
    machine.Along (fun _ _ => True) start schedule := by
  induction schedule generalizing start with
  | nil => trivial
  | cons action rest ih => exact ⟨trivial, fun next _ _ => ih next⟩

/-- Two conditions bound a schedule together. -/
theorem along_and {first second : State → Action → Prop} {start : State} {schedule : List Action}
    (left : machine.Along first start schedule) (right : machine.Along second start schedule) :
    machine.Along (fun state action => first state action ∧ second state action) start schedule := by
  induction schedule generalizing start with
  | nil => trivial
  | cons action rest ih =>
      exact ⟨⟨left.1, right.1⟩, fun next events stepped =>
        ih (left.2 next events stepped) (right.2 next events stepped)⟩

/-- One condition bounds a schedule when it follows from another one in every state that keeps the invariant. -/
theorem along_of_along {first second : State → Action → Prop} (invariant : State → Prop)
    (kept : ∀ state action next events, invariant state → first state action → second state action →
      machine.step state action = some (next, events) → invariant next)
    (implied : ∀ state action, invariant state → first state action → second state action)
    {start : State} {schedule : List Action} (initial : invariant start)
    (conforming : machine.Along first start schedule) : machine.Along second start schedule := by
  induction schedule generalizing start with
  | nil => trivial
  | cons action rest ih =>
      have follows := implied start action initial conforming.1
      refine ⟨follows, fun next events stepped => ?_⟩
      exact ih (kept start action next events initial conforming.1 follows stepped)
        (conforming.2 next events stepped)

/-- A run keeps what every step keeps. -/
theorem run_invariant (invariant : List Event → State → Prop)
    (kept : ∀ past state action next events, invariant past state →
      machine.step state action = some (next, events) → invariant (past ++ events) next)
    {start final : State} {schedule : List Action} {trace : List Event}
    (initial : invariant [] start) (ran : machine.run start schedule = some (final, trace)) :
    invariant trace final :=
  machine.run_invariant_along (fun _ _ => True) (fun _ => invariant)
    (fun _ past state action next events holds _ stepped => kept past state action next events holds stepped)
    initial (machine.along_true start schedule) ran

/-- The empty schedule stays in its first state. -/
theorem reaches_nil {good : State → Prop} {start : State} (first : good start) : machine.Reaches good start [] := by
  intro before state trace inside ran
  cases List.prefix_nil.mp inside
  obtain ⟨rfl, rfl⟩ := Prod.mk.inj (Option.some.inj ran)
  exact first

/-- The states of a schedule are its first state and the states of its rest. -/
theorem reaches_cons_iff {good : State → Prop} {start : State} {action : Action} {rest : List Action} :
    machine.Reaches good start (action :: rest) ↔
      good start ∧ ∀ next events, machine.step start action = some (next, events) → machine.Reaches good next rest := by
  constructor
  · intro reaches
    refine ⟨reaches [] start [] List.nil_prefix rfl, fun next events stepped before state trace inside ran => ?_⟩
    exact reaches (action :: before) state (events ++ trace) (List.cons_prefix_cons.mpr ⟨rfl, inside⟩)
      (machine.run_cons_eq_some.mpr ⟨next, events, trace, stepped, ran, rfl⟩)
  · rintro ⟨first, later⟩ before state trace inside ran
    cases before with
    | nil =>
        obtain ⟨rfl, rfl⟩ := Prod.mk.inj (Option.some.inj ran)
        exact first
    | cons other before =>
        obtain ⟨rfl, shorter⟩ := List.cons_prefix_cons.mp inside
        obtain ⟨next, events, remaining, stepped, continued, rfl⟩ := machine.run_cons_eq_some.mp ran
        exact later next events stepped before state remaining shorter continued

/-- An observer that notes nothing in any state of a schedule notes nothing. -/
theorem observe_eq_nil {Seen : Type} {note : State → Action → List Seen} {start : State} {schedule : List Action}
    (reaches : machine.Reaches (fun state => ∀ action, note state action = []) start schedule) :
    machine.observe note start schedule = [] := by
  induction schedule generalizing start with
  | nil => rfl
  | cons action rest ih =>
      obtain ⟨first, later⟩ := machine.reaches_cons_iff.mp reaches
      rw [observe, first action, List.nil_append]
      cases stepped : machine.step start action with
      | none => rfl
      | some next => exact ih (later next.1 next.2 stepped)

/-- An action meets a condition that holds in every good state. -/
theorem along_of_reaches {good : State → Prop} {condition : State → Action → Prop}
    (implied : ∀ state action, good state → condition state action) {start : State} {schedule : List Action}
    (reaches : machine.Reaches good start schedule) : machine.Along condition start schedule := by
  induction schedule generalizing start with
  | nil => trivial
  | cons action rest ih =>
      obtain ⟨first, later⟩ := machine.reaches_cons_iff.mp reaches
      exact ⟨implied start action first, fun next events stepped => ih (later next events stepped)⟩

/-- All states of a schedule are good exactly when each action meets the condition,
if conforming steps keep the invariant and every other step leaves the good states. -/
theorem reaches_iff_along {good : State → Prop} {condition : State → Action → Prop} (invariant : State → Prop)
    (sound : ∀ state, invariant state → good state)
    (kept : ∀ state action next events, invariant state → condition state action →
      machine.step state action = some (next, events) → invariant next)
    (broken : ∀ state action, invariant state → ¬condition state action →
      ∃ next events, machine.step state action = some (next, events) ∧ ¬good next)
    {start : State} {schedule : List Action} (initial : invariant start) :
    machine.Reaches good start schedule ↔ machine.Along condition start schedule := by
  induction schedule generalizing start with
  | nil =>
      refine iff_of_true (fun before state trace inside ran => ?_) trivial
      obtain rfl := List.prefix_nil.mp inside
      obtain ⟨rfl, rfl⟩ := Prod.mk.inj (Option.some.inj ran)
      exact sound _ initial
  | cons action rest ih =>
      rw [reaches_cons_iff]
      constructor
      · rintro ⟨-, later⟩
        have conforms : condition start action := by
          by_contra violates
          obtain ⟨next, events, stepped, bad⟩ := broken start action initial violates
          exact bad (later next events stepped [] next [] List.nil_prefix rfl)
        exact ⟨conforms, fun next events stepped =>
          (ih (kept start action next events initial conforms stepped)).mp (later next events stepped)⟩
      · rintro ⟨conforms, later⟩
        exact ⟨sound start initial, fun next events stepped =>
          (ih (kept start action next events initial conforms stepped)).mpr (later next events stepped)⟩

/-- A schedule whose conforming steps never fail has a run that keeps the invariant of its history. -/
theorem run_exists_along (condition : State → Action → Prop) (invariant : List Action → State → Prop)
    (kept : ∀ past state action, invariant past state → condition state action →
      ∃ next events, machine.step state action = some (next, events) ∧ invariant (past ++ [action]) next)
    {start : State} {schedule : List Action} (initial : invariant [] start)
    (conforming : machine.Along condition start schedule) :
    ∃ final trace, machine.run start schedule = some (final, trace) ∧ invariant schedule final := by
  suffices continues : ∀ past, invariant past start → ∃ final trace,
      machine.run start schedule = some (final, trace) ∧ invariant (past ++ schedule) final from
    continues [] initial
  clear initial
  induction schedule generalizing start with
  | nil =>
      intro past holds
      exact ⟨start, [], rfl, by simpa only [List.append_nil] using holds⟩
  | cons action rest ih =>
      intro past holds
      obtain ⟨next, events, stepped, advanced⟩ := kept past start action holds conforming.1
      obtain ⟨final, trace, ran, last⟩ := ih (conforming.2 next events stepped) _ advanced
      refine ⟨final, events ++ trace, ?_, by simpa using last⟩
      exact machine.run_cons_eq_some.mpr ⟨next, events, trace, stepped, ran, rfl⟩

/-- A machine whose steps all lower a measure stops after as many steps. -/
theorem length_add_measure_le (invariant : State → Prop) (measure : State → Nat)
    (lowers : ∀ state action next events, invariant state → machine.step state action = some (next, events) →
      invariant next ∧ measure next < measure state)
    {start final : State} {schedule : List Action} {trace : List Event} (initial : invariant start)
    (ran : machine.run start schedule = some (final, trace)) : schedule.length + measure final ≤ measure start := by
  refine (machine.run_invariant_along (fun _ _ => True)
    (fun actions _ state => invariant state ∧ actions.length + measure state ≤ measure start)
    (fun actions _ state action next events holds _ stepped => ?_) ⟨initial, by simp⟩
    (machine.along_true start schedule) ran).2
  obtain ⟨kept, less⟩ := lowers state action next events holds.1 stepped
  refine ⟨kept, ?_⟩
  have before := holds.2
  rw [List.length_append, List.length_singleton]
  omega

/-- A machine reaches a goal when some action always lowers a measure. -/
theorem exists_run_until (invariant goal : State → Prop) (measure : State → Nat)
    (advance : ∀ state, invariant state → ¬goal state → ∃ action next events,
      machine.step state action = some (next, events) ∧ invariant next ∧ measure next < measure state)
    {start : State} (initial : invariant start) :
    ∃ schedule final trace, machine.run start schedule = some (final, trace) ∧ invariant final ∧ goal final := by
  induction size : measure start using Nat.strongRecOn generalizing start with
  | ind size ih =>
      by_cases reached : goal start
      · exact ⟨[], start, [], rfl, initial, reached⟩
      · obtain ⟨action, next, events, stepped, kept, less⟩ := advance start initial reached
        obtain ⟨schedule, final, trace, ran, last⟩ := ih (measure next) (size ▸ less) kept rfl
        exact ⟨action :: schedule, final, events ++ trace,
          machine.run_cons_eq_some.mpr ⟨next, events, trace, stepped, ran, rfl⟩, last⟩

/-- A run whose last state is good has a good first state. -/
theorem good_of_run {good : State → Prop}
    (backward : ∀ state action next events, machine.step state action = some (next, events) →
      good next → good state)
    {start final : State} {schedule : List Action} {trace : List Event}
    (ran : machine.run start schedule = some (final, trace)) (ends : good final) : good start := by
  induction schedule generalizing start trace with
  | nil =>
      simp only [run_nil, Option.some.injEq, Prod.mk.injEq] at ran
      exact ran.1 ▸ ends
  | cons action rest ih =>
      obtain ⟨next, events, later, stepped, continued, rfl⟩ := machine.run_cons_eq_some.mp ran
      exact backward start action next events stepped (ih continued)

/-- A forward simulation carries every abstract run to a concrete run with the same events.
The abstract states before a good state are good. -/
theorem run_simulation {Concrete : Type} (concrete : Machine Concrete Action Event)
    (good : State → Prop) (related : Concrete → State → Prop)
    (backward : ∀ state action next events, machine.step state action = some (next, events) →
      good next → good state)
    (simulated : ∀ low state action next events, related low state → good next →
      machine.step state action = some (next, events) →
      ∃ low', concrete.step low action = some (low', events) ∧ related low' next)
    {low : Concrete} {start final : State} {schedule : List Action} {trace : List Event}
    (initial : related low start) (ran : machine.run start schedule = some (final, trace))
    (ends : good final) :
    ∃ low', concrete.run low schedule = some (low', trace) ∧ related low' final := by
  induction schedule generalizing low start trace with
  | nil =>
      simp only [run_nil, Option.some.injEq, Prod.mk.injEq] at ran
      obtain ⟨rfl, rfl⟩ := ran
      exact ⟨low, rfl, initial⟩
  | cons action rest ih =>
      obtain ⟨next, events, later, stepped, continued, rfl⟩ := machine.run_cons_eq_some.mp ran
      have nextGood := machine.good_of_run backward continued ends
      obtain ⟨middle, lowStep, kept⟩ := simulated low start action next events initial nextGood stepped
      obtain ⟨low', lowRun, last⟩ := ih kept continued
      exact ⟨low', concrete.run_cons_eq_some.mpr ⟨middle, events, later, lowStep, lowRun, rfl⟩, last⟩

end Machine
end Ostep.Library
