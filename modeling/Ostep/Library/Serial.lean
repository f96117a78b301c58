import Ostep.Library.Linear
import Ostep.Library.Locking

namespace Ostep.Library.Locking

open Linear

variable {Thread Call Lock Act Loc Value Result : Type}

/-- The calls and results of one thread in a list of calls. -/
def callsOf [DecidableEq Thread] (thread : Thread) (order : List (Return Thread Call Result)) : List (Call × Result) :=
  (order.filter (·.thread = thread)).map fun commit => (commit.call, commit.result)

theorem callsOf_append [DecidableEq Thread] {thread : Thread} (order later : List (Return Thread Call Result)) :
    callsOf thread (order ++ later) = callsOf thread order ++ callsOf thread later := by
  rw [callsOf, List.filter_append, List.map_append]
  rfl

/-- Two memories agree on the locations that some locks guard. -/
def Agree (guard : Loc → Option Lock) (locks : List Lock) (first second : Loc → Value) : Prop :=
  ∀ loc lock, guard loc = some lock → lock ∈ locks → first loc = second loc

/-- Two memories agree on the other guarded locations. -/
def AgreeOff (guard : Loc → Option Lock) (locks : List Lock) (first second : Loc → Value) : Prop :=
  ∀ loc lock, guard loc = some lock → lock ∉ locks → first loc = second loc

/-- Inside its critical section a call makes the accesses of its serial meaning. What it relies on are the
locations that its locks guard, and it changes only these. -/
structure Guarded (program : Program Call Lock Act Loc Value Result) (quiet : Act → Prop) (guard : Loc → Option Lock)
    (apply : Call → (Loc → Value) → Result × (Loc → Value))
    (inside : Call → Act → (Loc → Value) → (Loc → Value) → Prop) : Prop where
  begins : ∀ call memory logical, Agree guard (program.release call) memory logical →
    inside call (program.body call) memory logical
  relies : ∀ call act memory logical memory' logical', inside call act memory logical →
    Agree guard (program.release call) memory' memory → Agree guard (program.release call) logical' logical →
    inside call act memory' logical'
  goes : ∀ call act memory logical after next, inside call act memory logical →
    program.perform act memory = (after, .more next) →
    inside call next after logical ∧ AgreeOff guard (program.release call) after memory
  ends : ∀ call act memory logical after result, inside call act memory logical →
    program.perform act memory = (after, .done result) →
    result = (apply call logical).1 ∧ Agree guard (program.release call) after (apply call logical).2 ∧
      AgreeOff guard (program.release call) after memory
  applies : ∀ call logical, AgreeOff guard (program.release call) (apply call logical).2 logical
  silent : ∀ act memory after next, quiet act → program.perform act memory = (after, next) →
    AgreeOff guard [] after memory

variable [DecidableEq Lock] {program : Program Call Lock Act Loc Value Result} {quiet : Act → Prop}
  {guard : Loc → Option Lock} {apply : Call → (Loc → Value) → Result × (Loc → Value)}
  {inside : Call → Act → (Loc → Value) → (Loc → Value) → Prop}

/-- Before and after its accesses a thread sees the committed values of the locations that it guards. -/
def Pc.Sees (program : Program Call Lock Act Loc Value Result) (guard : Loc → Option Lock)
    (inside : Call → Act → (Loc → Value) → (Loc → Value) → Prop) (memory logical : Loc → Value) :
    Pc Call Lock Act Result → Prop
  | .idle => True
  | .acquiring call rest => Agree guard (owes (program.release call) rest) memory logical
  | .inside call act => inside call act memory logical
  | .releasing _ rest _ => Agree guard rest memory logical

/-- What a thread sees depends only on the locations that it guards. -/
theorem Pc.Sees.congr (guarded : Guarded program quiet guard apply inside) {pc : Pc Call Lock Act Result}
    {memory logical memory' logical' : Loc → Value} (sees : pc.Sees program guard inside memory logical)
    (sameMemory : Agree guard (pc.held program) memory' memory)
    (sameLogical : Agree guard (pc.held program) logical' logical) :
    pc.Sees program guard inside memory' logical' := by
  cases pc with
  | idle => trivial
  | inside call act => exact guarded.relies _ _ _ _ _ _ sees sameMemory sameLogical
  | _ =>
      intro loc lock guards member
      rw [sameMemory loc lock guards member, sameLogical loc lock guards member]
      exact sees loc lock guards member

/-- Free locations show the committed values, and the others what the owner of their lock sees. -/
structure Shown (program : Program Call Lock Act Loc Value Result) (guard : Loc → Option Lock)
    (inside : Call → Act → (Loc → Value) → (Loc → Value) → Prop)
    (state : State Thread Call Lock Act Loc Value Result) (logical : Loc → Value) : Prop where
  free : ∀ loc lock, guard loc = some lock → state.owner lock = none → state.memory loc = logical loc
  seen : ∀ thread, (state.workers thread).pc.Sees program guard inside state.memory logical

variable [DecidableEq Thread] {state : State Thread Call Lock Act Loc Value Result} {logical : Loc → Value}
  {thread : Thread}

/-- A thread that changes only the locations that it guards keeps what the others see. -/
theorem Shown.update (guarded : Guarded program quiet guard apply inside)
    (shown : Shown program guard inside state logical) (owned : Owned program quiet state)
    {effect : Effect Thread Call Lock Act Loc Value Result} {logical' : Loc → Value}
    (memory : AgreeOff guard ((state.workers thread).pc.held program) effect.memory state.memory)
    (committed : AgreeOff guard ((state.workers thread).pc.held program) logical' logical)
    (frees : ∀ lock, effect.owner lock = none →
      state.owner lock = none ∨ ∀ loc, guard loc = some lock → effect.memory loc = logical' loc)
    (sees : effect.worker.pc.Sees program guard inside effect.memory logical') :
    Shown program guard inside ⟨effect.memory, effect.owner, Function.update state.workers thread effect.worker⟩
      logical' := by
  refine ⟨fun loc lock guards unowned => ?_, ?_⟩
  · rcases frees lock unowned with before | shows
    · have outside := owned.not_held before thread
      rw [committed loc lock guards outside]
      exact (memory loc lock guards outside).trans (shown.free loc lock guards before)
    · exact shows loc guards
  · refine (Function.forall_update_iff state.workers fun _ worker =>
      worker.pc.Sees program guard inside effect.memory logical').mpr ⟨sees, fun other different => ?_⟩
    have apart {lock : Lock} (theirs : lock ∈ (state.workers other).pc.held program) :
        lock ∉ (state.workers thread).pc.held program :=
      fun mine => different (owned.owns.unique theirs mine)
    exact (shown.seen other).congr guarded (fun loc lock guards theirs => memory loc lock guards (apart theirs))
      (fun loc lock guards theirs => committed loc lock guards (apart theirs))

/-- The call that takes effect with a move. -/
def linearise (program : Program Call Lock Act Loc Value Result) (memory : Loc → Value) :
    Worker Call Lock Act Result → List (Call × Result)
  | ⟨.inside call act, _⟩ =>
      match (program.perform act memory).2 with
      | .more _ => []
      | .done result => [(call, result)]
  | _ => []

omit [DecidableEq Thread] in
/-- A lock that stays free was free before, and a lock that is given back was held. -/
theorem free_of_update_none {owner : Lock → Option Thread} {lock other : Lock}
    (free : Function.update owner lock none other = none) : other = lock ∨ owner other = none := by
  by_cases same : other = lock
  · exact Or.inl same
  · rw [Function.update_of_ne same] at free
    exact Or.inr free

omit [DecidableEq Thread] in
theorem free_of_update_some {owner : Lock → Option Thread} {lock other : Lock}
    (free : Function.update owner lock (some thread) other = none) : owner other = none := by
  by_cases same : other = lock
  · rw [same, Function.update_self] at free
    cases free
  · rwa [Function.update_of_ne same] at free

omit [DecidableEq Thread] in
/-- A thread that takes a free lock sees the committed values behind it. -/
theorem Shown.agree_take (shown : Shown program guard inside state logical) {base : List Lock}
    {rest : List (Instr Lock Act)} {lock : Lock} (free : state.owner lock = none)
    (sees : Agree guard ((owes base rest).erase lock) state.memory logical) :
    Agree guard (owes base rest) state.memory logical := by
  intro loc other guards member
  by_cases taken : other = lock
  · exact shown.free loc other guards (taken ▸ free)
  · exact sees loc other guards ((List.mem_erase_of_ne taken).mpr member)

/-- Each move shows the memory after the call that takes effect with it. -/
theorem Shown.move (balanced : program.Balanced quiet) (guarded : Guarded program quiet guard apply inside)
    (shown : Shown program guard inside state logical) (owned : Owned program quiet state)
    {worker : Worker Call Lock Act Result} {effect : Effect Thread Call Lock Act Loc Value Result}
    (current : state.workers thread = worker) (move : Move program state.owner state.memory thread worker effect) :
    ∃ logical', replay apply logical ((linearise program state.memory worker).map Prod.fst) =
        ((linearise program state.memory worker).map Prod.snd, logical') ∧
      Shown program guard inside
        ⟨effect.memory, effect.owner, Function.update state.workers thread effect.worker⟩ logical' := by
  have sees := shown.seen thread
  have sound := owned.sound thread
  have same {memory : Loc → Value} : AgreeOff guard ((state.workers thread).pc.held program) memory memory :=
    fun _ _ _ _ => rfl
  have still {shows : Lock → Prop} (lock : Lock) (free : state.owner lock = none) :
      state.owner lock = none ∨ shows lock := Or.inl free
  rw [current] at sees sound
  cases move with
  | @start call calls =>
      refine ⟨logical, rfl, shown.update guarded owned same same still ?_⟩
      change Agree guard (owes _ (program.acquire call)) _ _
      rw [balanced.empty call]
      nofun
  | @enter call calls => exact ⟨logical, rfl, shown.update guarded owned same same still (guarded.begins call _ _ sees)⟩
  | lock free =>
      exact ⟨logical, rfl, shown.update guarded owned same same (fun lock after => Or.inl (free_of_update_some after))
        (shown.agree_take free sees)⟩
  | tried free =>
      exact ⟨logical, rfl, shown.update guarded owned same same (fun lock after => Or.inl (free_of_update_some after))
        (shown.agree_take free sees)⟩
  | failed taken =>
      refine ⟨logical, rfl, shown.update guarded owned same same still ?_⟩
      cases sound with
      | tryLock paired later held retreat =>
          change Agree guard (owes _ _) _ _
          rw [held]
          exact sees
  | unlock =>
      refine ⟨logical, rfl, shown.update guarded owned same same (fun lock after => ?_)
        (fun loc lock guards member => sees loc lock guards (List.mem_cons_of_mem _ member))⟩
      rcases free_of_update_none after with rfl | before
      · exact Or.inr fun loc guards => sees loc lock guards List.mem_cons_self
      · exact Or.inl before
  | @touch call act next after rest calls performed =>
      cases sound with
      | touch silent later =>
          have unchanged := guarded.silent _ _ _ _ silent performed
          refine ⟨logical, rfl,
            shown.update guarded owned (fun loc lock guards _ => unchanged loc lock guards nofun) same
            still fun loc lock guards member => ?_⟩
          exact (unchanged loc lock guards nofun).trans (sees loc lock guards member)
  | @touched call act after result rest calls performed =>
      cases sound with
      | touch silent later =>
          have unchanged := guarded.silent _ _ _ _ silent performed
          refine ⟨logical, rfl,
            shown.update guarded owned (fun loc lock guards _ => unchanged loc lock guards nofun) same
            still fun loc lock guards member => ?_⟩
          exact (unchanged loc lock guards nofun).trans (sees loc lock guards member)
  | @again call rest calls =>
      refine ⟨logical, rfl, shown.update guarded owned same same still ?_⟩
      change Agree guard (owes _ (program.acquire call)) _ _
      rw [balanced.empty call]
      nofun
  | @act call act next after calls performed =>
      obtain ⟨goes, frame⟩ := guarded.goes _ _ _ _ _ _ sees performed
      refine ⟨logical, ?_, shown.update guarded owned ?_ same still goes⟩
      · simp only [linearise, performed]
        rfl
      · rw [current]
        exact frame
  | @commit call act after result calls performed =>
      obtain ⟨rfl, shows, frame⟩ := guarded.ends _ _ _ _ _ _ sees performed
      refine ⟨(apply call logical).2, ?_, shown.update guarded owned ?_ ?_ still shows⟩
      · simp only [linearise, performed]
        rfl
      · rw [current]
        exact frame
      · rw [current]
        exact guarded.applies call logical
  | release =>
      refine ⟨logical, rfl, shown.update guarded owned same same (fun lock after => ?_)
        (fun loc lock guards member => sees loc lock guards (List.mem_cons_of_mem _ member))⟩
      rcases free_of_update_none after with rfl | before
      · exact Or.inr fun loc guards => sees loc lock guards List.mem_cons_self
      · exact Or.inl before
  | finish => exact ⟨logical, rfl, shown.update guarded owned same same still trivial⟩

/-- The current call, once it has taken effect. -/
def Pc.committed : Pc Call Lock Act Result → List (Call × Result)
  | .releasing call _ result => [(call, result)]
  | _ => []

/-- The calls of a thread take effect in program order, each before it returns. -/
structure Story (program : List Call) (commits returns : List (Call × Result)) (worker : Worker Call Lock Act Result) :
    Prop where
  commits_eq : commits = returns ++ worker.pc.committed
  program_eq : program = returns.map Prod.fst ++ worker.pending

omit [DecidableEq Thread] in
/-- Each move continues the story of its thread. -/
theorem Story.move {calls : List Call} {commits returns : List (Call × Result)} {owner : Lock → Option Thread}
    {memory : Loc → Value} {worker : Worker Call Lock Act Result}
    {effect : Effect Thread Call Lock Act Loc Value Result} (story : Story calls commits returns worker)
    (move : Move program owner memory thread worker effect) :
    Story calls (commits ++ linearise program memory worker)
      (returns ++ effect.events.map fun event => (event.call, event.result)) effect.worker := by
  obtain ⟨rfl, rfl⟩ := story
  cases move with
  | commit performed => constructor <;> simp [linearise, performed, Pc.committed, Worker.pending]
  | act performed => constructor <;> simp [linearise, performed, Pc.committed, Worker.pending]
  | finish => constructor <;> simp [linearise, Pc.committed, Worker.pending]
  | _ => constructor <;> simp [linearise, Pc.committed, Worker.pending]

omit [DecidableEq Lock] in
/-- The calls that have taken effect are the first ones of the program. -/
theorem Story.calls_begin {calls : List Call} {commits returns : List (Call × Result)}
    {worker : Worker Call Lock Act Result} (story : Story calls commits returns worker) :
    commits.map Prod.fst <+: calls := by
  obtain ⟨rfl, rfl⟩ := story
  rw [List.map_append, List.prefix_append_right_inj]
  rcases worker with ⟨_ | _ | _ | _, calls⟩
  all_goals simp [Pc.committed, Worker.pending]

omit [DecidableEq Thread] in
/-- A move emits only events of its own thread. -/
theorem Move.events_thread {owner : Lock → Option Thread} {memory : Loc → Value} {worker : Worker Call Lock Act Result}
    {effect : Effect Thread Call Lock Act Loc Value Result} (move : Move program owner memory thread worker effect) :
    ∀ event ∈ effect.events, event.thread = thread := by
  cases move with
  | finish => simp
  | _ => nofun

theorem callsOf_events {events : List (Return Thread Call Result)} (own : ∀ event ∈ events, event.thread = thread) :
    callsOf thread events = events.map fun event => (event.call, event.result) := by
  rw [callsOf, List.filter_eq_self.mpr]
  simpa using own

theorem callsOf_events_other {events : List (Return Thread Call Result)} (own : ∀ event ∈ events, event.thread = thread)
    {other : Thread} (different : other ≠ thread) : callsOf other events = [] := by
  rw [callsOf, List.map_eq_nil_iff, List.filter_eq_nil_iff]
  intro event member same
  exact different ((of_decide_eq_true same).symm.trans (own event member))

/-- The memory shows the result of a serial order of the calls that have taken effect. -/
structure Serial (program : Program Call Lock Act Loc Value Result) (quiet : Act → Prop) (guard : Loc → Option Lock)
    (apply : Call → (Loc → Value) → Result × (Loc → Value))
    (inside : Call → Act → (Loc → Value) → (Loc → Value) → Prop) (memory : Loc → Value) (calls : Thread → List Call)
    (trace : List (Return Thread Call Result)) (state : State Thread Call Lock Act Loc Value Result)
    (order : List (Return Thread Call Result)) (logical : Loc → Value) : Prop where
  owned : Owned program quiet state
  shown : Shown program guard inside state logical
  replayed : replay apply memory (order.map Return.call) = (order.map Return.result, logical)
  stories : ∀ thread, Story (calls thread) (callsOf thread order) (callsOf thread trace) (state.workers thread)

variable {memory : Loc → Value} {calls : Thread → List Call} {trace : List (Return Thread Call Result)}

/-- Each step extends the serial order by the call that takes effect with it. -/
theorem Serial.step (balanced : program.Balanced quiet) (guarded : Guarded program quiet guard apply inside)
    {order : List (Return Thread Call Result)}
    (serial : Serial program quiet guard apply inside memory calls trace state order logical)
    {next : State Thread Call Lock Act Loc Value Result} {events : List (Return Thread Call Result)}
    (stepped : step program state thread = some (next, events)) :
    ∃ order' logical', Serial program quiet guard apply inside memory calls (trace ++ events) next order' logical' := by
  have owned := serial.owned.step balanced stepped
  obtain ⟨effect, move, rfl, rfl⟩ := step_move stepped
  obtain ⟨logical', effective, shown⟩ := serial.shown.move balanced guarded serial.owned rfl move
  have own : ∀ commit ∈ (linearise program state.memory (state.workers thread)).map
      fun commit => (⟨thread, commit.1, commit.2⟩ : Return Thread Call Result), commit.thread = thread := by
    intro commit member
    obtain ⟨pair, -, rfl⟩ := List.mem_map.mp member
    rfl
  refine ⟨order ++ (linearise program state.memory (state.workers thread)).map
      fun commit => ⟨thread, commit.1, commit.2⟩,
    logical', owned, shown, ?_, ?_⟩
  · simp only [List.map_append, List.map_map, Function.comp_def, replay_append, serial.replayed]
    rw [effective]
  · refine (Function.forall_update_iff state.workers fun other worker => Story (calls other) (callsOf other _)
      (callsOf other (trace ++ effect.events)) worker).mpr ⟨?_, fun other different => ?_⟩
    · rw [callsOf_append, callsOf_append, callsOf_events own, callsOf_events move.events_thread, List.map_map]
      simpa [Function.comp_def] using (serial.stories thread).move move
    · rw [callsOf_append, callsOf_append, callsOf_events_other own different,
        callsOf_events_other move.events_thread different, List.append_nil, List.append_nil]
      exact serial.stories other

/-- Every run of guarded calls is a serial run. -/
theorem run_serial (balanced : program.Balanced quiet) (guarded : Guarded program quiet guard apply inside)
    {schedule : List Thread}
    (ran : (machine program).run (initial memory calls) schedule = some (state, trace)) :
    ∃ order logical, Serial program quiet guard apply inside memory calls trace state order logical := by
  refine (machine program).run_invariant
    (fun past reached =>
      ∃ order logical, Serial program quiet guard apply inside memory calls past reached order logical)
    (fun past reached thread next events before stepped => ?_) ⟨[], memory, ?_⟩ ran
  · obtain ⟨order, logical, serial⟩ := before
    exact serial.step balanced guarded stepped
  · exact ⟨initial_owned memory calls, ⟨fun _ _ _ _ => rfl, fun _ => trivial⟩, rfl, fun _ => ⟨rfl, rfl⟩⟩

omit [DecidableEq Thread] in
/-- No mutex stays locked after the last call. -/
theorem Owned.free_of_finished (owned : Owned program quiet state)
    (finished : ∀ thread, (state.workers thread).Finished) (lock : Lock) : state.owner lock = none := by
  cases owner : state.owner lock with
  | none => rfl
  | some thread => exact absurd (finished thread) (owned.unfinished_of_owner owner)

/-- After the last call all calls have taken effect. -/
theorem Serial.calls_eq {order : List (Return Thread Call Result)}
    (serial : Serial program quiet guard apply inside memory calls trace state order logical)
    (finished : (state.workers thread).Finished) : (callsOf thread order).map Prod.fst = calls thread := by
  obtain ⟨commits_eq, program_eq⟩ := serial.stories thread
  rw [commits_eq, program_eq]
  simp only [Worker.pending, finished.1, finished.2, Pc.committed, List.append_nil]

end Ostep.Library.Locking
