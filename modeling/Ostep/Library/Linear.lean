import Mathlib.Tactic.Common

namespace Ostep.Library.Linear

variable {Thread Call Result Memory : Type}

/-- The calls run one at a time. -/
def replay (apply : Call → Memory → Result × Memory) (memory : Memory) : List Call → List Result × Memory
  | [] => ([], memory)
  | call :: rest =>
      let outcome := replay apply (apply call memory).2 rest
      ((apply call memory).1 :: outcome.1, outcome.2)

/-- A serial run continues after a serial run. -/
theorem replay_append (apply : Call → Memory → Result × Memory) (memory : Memory) (earlier later : List Call) :
    replay apply memory (earlier ++ later) =
      ((replay apply memory earlier).1 ++ (replay apply (replay apply memory earlier).2 later).1,
        (replay apply (replay apply memory earlier).2 later).2) := by
  induction earlier generalizing memory with
  | nil => rfl
  | cons call rest ih => simp only [List.cons_append, replay, ih]

theorem length_replay (apply : Call → Memory → Result × Memory) (memory : Memory) (calls : List Call) :
    (replay apply memory calls).1.length = calls.length := by
  induction calls generalizing memory with
  | nil => rfl
  | cons call rest ih => simp only [replay, List.length_cons, ih]

/-- What the threads see of an object that they share. -/
inductive Event (Thread Call Result : Type) where
  | start (thread : Thread) (call : Call)
  | ret (thread : Thread) (call : Call) (result : Result)
  deriving Repr, DecidableEq

/-- A history with the points where the calls take effect. -/
inductive Point (Thread Call Result : Type) where
  | start (thread : Thread) (call : Call)
  | commit (thread : Thread) (call : Call) (result : Result)
  | ret (thread : Thread) (call : Call) (result : Result)
  deriving Repr, DecidableEq

def Point.thread : Point Thread Call Result → Thread
  | .start thread _ | .commit thread _ _ | .ret thread _ _ => thread

def Point.event? : Point Thread Call Result → Option (Event Thread Call Result)
  | .start thread call => some (.start thread call)
  | .commit _ _ _ => none
  | .ret thread call result => some (.ret thread call result)

def Point.commit? : Point Thread Call Result → Option (Call × Result)
  | .commit _ call result => some (call, result)
  | _ => none

/-- The history without the points where the calls take effect. -/
def observed (points : List (Point Thread Call Result)) : List (Event Thread Call Result) :=
  points.filterMap Point.event?

/-- The calls with their results in the order in which they take effect. -/
def commits (points : List (Point Thread Call Result)) : List (Call × Result) := points.filterMap Point.commit?

/-- The calls that a thread has started. -/
def started [DecidableEq Thread] (thread : Thread) (trace : List (Event Thread Call Result)) : List Call :=
  trace.filterMap fun
    | .start other call => if other = thread then some call else none
    | .ret _ _ _ => none

/-- How far the current call of a thread is. -/
inductive Phase (Call Result : Type) where
  | idle
  | called (call : Call)
  | committed (call : Call) (result : Result)

/-- The calls of a thread follow each other, and each takes effect once between its start and its return, with the
result that it returns. -/
inductive Story (thread : Thread) : List (Point Thread Call Result) → Phase Call Result → Prop where
  | nil : Story thread [] .idle
  | start {points : List (Point Thread Call Result)} {call : Call} (before : Story thread points .idle) :
      Story thread (points ++ [.start thread call]) (.called call)
  | commit {points : List (Point Thread Call Result)} {call : Call} {result : Result}
      (before : Story thread points (.called call)) :
      Story thread (points ++ [.commit thread call result]) (.committed call result)
  | ret {points : List (Point Thread Call Result)} {call : Call} {result : Result}
      (before : Story thread points (.committed call result)) :
      Story thread (points ++ [.ret thread call result]) .idle
  | other {points : List (Point Thread Call Result)} {phase : Phase Call Result} {point : Point Thread Call Result}
      (before : Story thread points phase) (elsewhere : point.thread ≠ thread) :
      Story thread (points ++ [point]) phase

/-- The points of other threads are not part of the story of a thread. -/
theorem Story.others {thread mover : Thread} {points later : List (Point Thread Call Result)}
    {phase : Phase Call Result} (story : Story thread points phase) (different : thread ≠ mover)
    (moves : ∀ point ∈ later, point.thread = mover) : Story thread (points ++ later) phase := by
  induction later generalizing points with
  | nil => rwa [List.append_nil]
  | cons point rest ih =>
      have elsewhere : point.thread ≠ thread := by
        rw [moves point List.mem_cons_self]
        exact different.symm
      rw [List.append_cons]
      exact ih (story.other elsewhere) fun point member => moves point (List.mem_cons_of_mem _ member)

/-- A history is linearisable when its calls take effect one at a time, each between its start and its return. -/
structure Linearised (apply : Call → Memory → Result × Memory) (memory : Memory)
    (trace : List (Event Thread Call Result)) (points : List (Point Thread Call Result)) (logical : Memory) : Prop where
  observed_eq : observed points = trace
  replayed : replay apply memory ((commits points).map Prod.fst) = ((commits points).map Prod.snd, logical)

variable {apply : Call → Memory → Result × Memory} {memory logical : Memory}
  {trace : List (Event Thread Call Result)} {points : List (Point Thread Call Result)}

theorem linearised_nil (apply : Call → Memory → Result × Memory) (memory : Memory) :
    Linearised apply memory ([] : List (Event Thread Call Result)) [] memory := ⟨rfl, rfl⟩

/-- The start or the return of a call only shows in the history. -/
theorem Linearised.event (linear : Linearised apply memory trace points logical) {point : Point Thread Call Result}
    {event : Event Thread Call Result} (seen : point.event? = some event) (silent : point.commit? = none) :
    Linearised apply memory (trace ++ [event]) (points ++ [point]) logical where
  observed_eq := by
    rw [observed, List.filterMap_append, ← observed, linear.observed_eq]
    simp [seen]
  replayed := by
    have same : commits (points ++ [point]) = commits points := by simp [commits, silent]
    rw [same]
    exact linear.replayed

/-- A call takes effect after all calls before it. -/
theorem Linearised.commit (linear : Linearised apply memory trace points logical) {call : Call} {result : Result}
    {after : Memory} (thread : Thread) (applied : apply call logical = (result, after)) :
    Linearised apply memory trace (points ++ [.commit thread call result]) after where
  observed_eq := by
    rw [observed, List.filterMap_append, ← observed, linear.observed_eq]
    simp [Point.event?]
  replayed := by
    have more : commits (points ++ [.commit thread call result]) = commits points ++ [(call, result)] := by
      simp [commits, Point.commit?]
    rw [more, List.map_append, List.map_append, replay_append, linear.replayed]
    simp [replay, applied]

/-- Each call in the order answers as it does after the calls before it. -/
theorem Linearised.result_eq (linear : Linearised apply memory trace points logical)
    {before after : List (Call × Result)} {call : Call} {result : Result}
    (place : commits points = before ++ (call, result) :: after) :
    result = (apply call (replay apply memory (before.map Prod.fst)).2).1 := by
  have replayed := congrArg Prod.fst linear.replayed
  rw [place, List.map_append, List.map_append, replay_append] at replayed
  have length : (replay apply memory (before.map Prod.fst)).1.length = (before.map Prod.snd).length := by
    rw [length_replay, List.length_map, List.length_map]
  have rest := (List.append_inj replayed length).2
  exact (List.cons.inj rest).1.symm

end Ostep.Library.Linear
