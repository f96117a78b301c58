import Ostep.Proof.Transfer.Locks

namespace Ostep.Transfer

open Library

/-- The value in memory differs from the value after the committed calls
only between the two writes of a transfer. -/
def Pc.view (pc : Pc) (address : Addr) (value : Value) : Value :=
  match pc with
  | .readTarget call | .writeTarget call _ => if address = call.source then value - call.amount else value
  | _ => value

/-- The test has passed and the value that was read is still there. -/
def Pc.Local (logical : Addr → Value) : Pc → Prop
  | .readSource call | .readTarget call => (logical call.source).slt call.amount = false
  | .writeSource call value => (logical call.source).slt call.amount = false ∧ value = logical call.source
  | .writeTarget call value => (logical call.source).slt call.amount = false ∧ value = logical call.target
  | _ => True

/-- A thread sees the committed values of the counters that it has locked, up to its own writes. -/
structure Pc.Sees (ids : Addr → BitVec 32) (values logical : Addr → Value) (pc : Pc) : Prop where
  held : ∀ address ∈ pc.held ids, values address = pc.view address (logical address)
  kept : pc.Local logical

/-- A call holds the locks of both its counters. -/
theorem mem_both (ids : Addr → BitVec 32) (call : Call) (address : Addr) :
    address ∈ [first ids call, second ids call] ↔ address = call.source ∨ address = call.target := by
  rw [List.mem_cons, List.mem_singleton]
  obtain ⟨left, right⟩ | ⟨left, right⟩ := lockOrder_cases ids call
  · rw [left, right]
  · rw [left, right, or_comm]

/-- What a thread sees depends only on the counters that it has locked. -/
theorem Pc.Sees.congr {ids : Addr → BitVec 32} {values values' logical logical' : Addr → Value} {pc : Pc}
    (sees : pc.Sees ids values logical)
    (same : ∀ address ∈ pc.held ids, values' address = values address ∧ logical' address = logical address) :
    pc.Sees ids values' logical' := by
  refine ⟨fun address member => ?_, ?_⟩
  · rw [(same address member).1, (same address member).2]
    exact sees.held address member
  · have kept := sees.kept
    have source (call : Call) (both : pc.held ids = [first ids call, second ids call]) :
        logical' call.source = logical call.source :=
      (same _ (both ▸ (mem_both ids call _).mpr (Or.inl rfl))).2
    have target (call : Call) (both : pc.held ids = [first ids call, second ids call]) :
        logical' call.target = logical call.target :=
      (same _ (both ▸ (mem_both ids call _).mpr (Or.inr rfl))).2
    cases pc with
    | readSource call => simpa only [Pc.Local, source call rfl] using kept
    | writeSource call value => simpa only [Pc.Local, source call rfl] using kept
    | readTarget call => simpa only [Pc.Local, source call rfl] using kept
    | writeTarget call value => simpa only [Pc.Local, source call rfl, target call rfl] using kept
    | _ => trivial

/-- After the first write a thread sees the source without the amount. -/
theorem Pc.Sees.debit {ids : Addr → BitVec 32} {values logical : Addr → Value} {call : Call} {value : Value}
    (sees : (Pc.writeSource call value).Sees ids values logical) :
    (Pc.readTarget call).Sees ids (Function.update values call.source (value - call.amount)) logical := by
  obtain ⟨held, covered, rfl⟩ := sees
  refine ⟨fun address member => ?_, covered⟩
  by_cases debited : address = call.source
  · rw [debited, Function.update_self, Pc.view, if_pos rfl]
  · rw [Function.update_of_ne debited, Pc.view, if_neg debited]
    exact held address member

/-- After the second write a thread sees the values after its call. -/
theorem Pc.Sees.credit {ids : Addr → BitVec 32} {values logical : Addr → Value} {call : Call} {value : Value}
    (sees : (Pc.writeTarget call value).Sees ids values logical) :
    (Pc.unlockSecond call 0).Sees ids (Function.update values call.target (value + call.amount))
      (Function.update (Function.update logical call.source (logical call.source - call.amount)) call.target
        (logical call.target + call.amount)) := by
  obtain ⟨held, covered, rfl⟩ := sees
  refine ⟨fun address member => ?_, trivial⟩
  dsimp only [Pc.view]
  by_cases credited : address = call.target
  · rw [credited, Function.update_self, Function.update_self]
  · have source := (mem_both ids call address).mp member |>.resolve_right credited
    have debited := held address member
    rw [Pc.view, if_pos source] at debited
    rw [Function.update_of_ne credited, debited, Function.update_of_ne credited, source, Function.update_self]

variable {Thread : Type}

/-- Free counters show the committed values, and locked ones what their owner sees. -/
structure Shown (ids : Addr → BitVec 32) (state : State Thread) (logical : Addr → Value) : Prop where
  free : ∀ address, state.owner address = none → state.values address = logical address
  seen : ∀ thread, (state.workers thread).pc.Sees ids state.values logical

variable [DecidableEq Thread] {ids : Addr → BitVec 32} {state : State Thread} {logical : Addr → Value}
  {thread : Thread}

/-- A thread that changes only the counters that it has locked keeps what the others see. -/
theorem Shown.update (shown : Shown ids state logical) (locked : Locked ids state) {worker : Worker}
    {owner : Addr → Option Thread} {values logical' : Addr → Value}
    (frame : ∀ address ∉ (state.workers thread).pc.held ids,
      values address = state.values address ∧ logical' address = logical address ∧
        (owner address = none → state.owner address = none))
    (released : ∀ address ∈ (state.workers thread).pc.held ids, owner address = none →
      values address = logical' address)
    (sees : worker.pc.Sees ids values logical') :
    Shown ids ⟨values, owner, Function.update state.workers thread worker⟩ logical' := by
  refine ⟨fun address unowned => ?_, ?_⟩
  · by_cases mine : address ∈ (state.workers thread).pc.held ids
    · exact released address mine unowned
    · obtain ⟨sameValue, sameLogical, before⟩ := frame address mine
      rw [sameLogical]
      exact sameValue.trans (shown.free address (before unowned))
  · refine (Function.forall_update_iff state.workers fun _ worker => worker.pc.Sees ids values logical').mpr
      ⟨sees, fun other different => (shown.seen other).congr fun address member => ?_⟩
    have apart : address ∉ (state.workers thread).pc.held ids := fun mine =>
      different (locked.owned.unique member mine)
    exact ⟨(frame address apart).1, (frame address apart).2.1⟩

/-- A step that neither locks nor unlocks keeps what is shown. -/
theorem Shown.keep (shown : Shown ids state logical) (locked : Locked ids state) {worker : Worker}
    {values logical' : Addr → Value}
    (frame : ∀ address ∉ (state.workers thread).pc.held ids,
      values address = state.values address ∧ logical' address = logical address)
    (sees : worker.pc.Sees ids values logical') :
    Shown ids ⟨values, state.owner, Function.update state.workers thread worker⟩ logical' := by
  refine shown.update locked (fun address apart => ?_) (fun address mine unowned => ?_) sees
  · exact ⟨(frame address apart).1, (frame address apart).2, id⟩
  · rw [(locked.owned address thread).mpr mine] at unowned
    cases unowned

/-- A lock step shows the committed value of the locked counter. -/
theorem Shown.take (shown : Shown ids state logical) (locked : Locked ids state) {worker : Worker} {lock : Addr}
    (sees : worker.pc.Sees ids state.values logical) :
    Shown ids ⟨state.values, Function.update state.owner lock (some thread),
      Function.update state.workers thread worker⟩ logical := by
  have still (address : Addr) (unowned : Function.update state.owner lock (some thread) address = none) :
      state.owner address = none := by
    by_cases taken : address = lock
    · rw [taken, Function.update_self] at unowned
      cases unowned
    · rwa [Function.update_of_ne taken] at unowned
  exact shown.update locked (fun address _ => ⟨rfl, rfl, still address⟩)
    (fun address _ unowned => shown.free address (still address unowned)) sees

/-- An unlock step leaves the committed value in the unlocked counter. -/
theorem Shown.release (shown : Shown ids state logical) (locked : Locked ids state) {worker : Worker}
    {lock : Addr} (committed : state.values lock = logical lock)
    (mine : lock ∈ (state.workers thread).pc.held ids) (sees : worker.pc.Sees ids state.values logical) :
    Shown ids ⟨state.values, Function.update state.owner lock none,
      Function.update state.workers thread worker⟩ logical := by
  refine shown.update locked (fun address apart => ⟨rfl, rfl, fun unowned => ?_⟩)
    (fun address held unowned => ?_) sees
  · have different : address ≠ lock := by
      rintro rfl
      exact apart mine
    rwa [Function.update_of_ne different] at unowned
  · by_cases unlocked : address = lock
    · rw [unlocked]
      exact committed
    · rw [Function.update_of_ne unlocked, (locked.owned address thread).mpr held] at unowned
      cases unowned

/-- The calls that take effect with the next access of a thread, with their codes.
A transfer takes effect with its second write, a rejected one with its test. -/
def linearise (values : Addr → Value) : Worker → List (Call × Int)
  | ⟨.idle, call :: _⟩ => (earlyReturn call).toList.map fun code => (call, code)
  | ⟨.test call, _⟩ => if (values call.source).slt call.amount then [(call, -3)] else []
  | ⟨.writeTarget call _, _⟩ => [(call, 0)]
  | _ => []

/-- A call that returns early changes nothing. -/
theorem transferValue_early {call : Call} {code : Int} (returns : earlyReturn call = some code)
    (values : Addr → Value) : transferValue values call = (code, values) := by
  simp only [transferValue, returns]

/-- A transfer of more than the source holds changes nothing. -/
theorem transferValue_short {call : Call} (valid : earlyReturn call = none) {values : Addr → Value}
    (short : (values call.source).slt call.amount = true) : transferValue values call = (-3, values) := by
  simp only [transferValue, valid, short, if_true]

/-- A covered transfer moves the amount. -/
theorem transferValue_covered {call : Call} (valid : earlyReturn call = none) {values : Addr → Value}
    (covered : (values call.source).slt call.amount = false) :
    transferValue values call = (0,
      Function.update (Function.update values call.source (values call.source - call.amount)) call.target
        (values call.target + call.amount)) := by
  have other : Function.update values call.source (values call.source - call.amount) call.target =
      values call.target := Function.update_of_ne (source_ne_target valid).symm _ _
  simp only [transferValue, valid, covered, other, Bool.false_eq_true, if_false]

/-- Each move shows the values after the calls that take effect with it. -/
theorem Shown.move (shown : Shown ids state logical) (locked : Locked ids state) {before after : Worker}
    {owner : Addr → Option Thread} {values : Addr → Value} {events : List (Event Thread)}
    (current : state.workers thread = before)
    (move : Move ids state.owner state.values thread before owner values after events) :
    ∃ logical', runSerial logical ((linearise state.values before).map Prod.fst) =
        ((linearise state.values before).map Prod.snd, logical') ∧
      Shown ids ⟨values, owner, Function.update state.workers thread after⟩ logical' := by
  have valid := locked.valid thread
  obtain ⟨held, kept⟩ := shown.seen thread
  have same : ∀ address ∉ (state.workers thread).pc.held ids,
      state.values address = state.values address ∧ logical address = logical address :=
    fun _ _ => ⟨rfl, rfl⟩
  rw [current] at valid held kept
  have mem (call : Call) (address : Addr) := mem_both ids call address
  cases move with
  | @early call code rest returns =>
      refine ⟨logical, ?_, shown.keep locked same ⟨nofun, trivial⟩⟩
      simp only [linearise, returns, Option.toList_some, List.map_cons, List.map_nil, runSerial,
        transferValue_early returns]
  | @start call rest fresh =>
      refine ⟨logical, ?_, shown.keep locked same ⟨nofun, trivial⟩⟩
      simp only [linearise, fresh, Option.toList_none, List.map_nil, runSerial]
  | lockFirst free =>
      refine ⟨logical, rfl, shown.take locked ⟨fun address member => ?_, trivial⟩⟩
      rw [List.mem_singleton.mp member]
      exact shown.free _ free
  | @lockSecond call calls free =>
      refine ⟨logical, rfl, shown.take locked ⟨fun address member => ?_, trivial⟩⟩
      rcases List.mem_cons.mp member with rfl | member
      · exact held _ (List.mem_singleton.mpr rfl)
      · rw [List.mem_singleton.mp member]
        exact shown.free _ free
  | @testFails call calls short =>
      have source : state.values call.source = logical call.source :=
        held _ ((mem call _).mpr (Or.inl rfl))
      refine ⟨logical, ?_, shown.keep locked same ⟨held, trivial⟩⟩
      simp only [linearise, short, if_true, List.map_cons, List.map_nil, runSerial,
        transferValue_short (valid call rfl) (source ▸ short)]
  | @testPasses call calls covered =>
      have source : state.values call.source = logical call.source :=
        held _ ((mem call _).mpr (Or.inl rfl))
      rw [source] at covered
      refine ⟨logical, ?_, shown.keep locked same ⟨held, covered⟩⟩
      simp only [linearise, source, covered, Bool.false_eq_true, if_false, List.map_nil, runSerial]
  | @readSource call calls =>
      exact ⟨logical, rfl, shown.keep locked same ⟨held, kept, held _ ((mem call _).mpr (Or.inl rfl))⟩⟩
  | @writeSource call value calls =>
      refine ⟨logical, rfl, shown.keep locked (fun address apart => ⟨?_, rfl⟩) (Pc.Sees.debit ⟨held, kept⟩)⟩
      rw [current] at apart
      have notSource : address ≠ call.source := fun equal => apart ((mem call _).mpr (Or.inl equal))
      exact Function.update_of_ne notSource _ _
  | @readTarget call calls =>
      have target := held _ ((mem call _).mpr (Or.inr rfl))
      rw [Pc.view, if_neg (source_ne_target (valid call rfl)).symm] at target
      exact ⟨logical, rfl, shown.keep locked same ⟨held, kept, target⟩⟩
  | @writeTarget call value calls =>
      refine ⟨_, ?_, shown.keep locked (fun address apart => ?_) (Pc.Sees.credit ⟨held, kept⟩)⟩
      · simp only [linearise, List.map_cons, List.map_nil, runSerial,
          transferValue_covered (valid call rfl) kept.1]
      · rw [current] at apart
        have notSource : address ≠ call.source := fun equal => apart ((mem call _).mpr (Or.inl equal))
        have notTarget : address ≠ call.target := fun equal => apart ((mem call _).mpr (Or.inr equal))
        rw [Function.update_of_ne notTarget, Function.update_of_ne notTarget, Function.update_of_ne notSource]
        exact ⟨rfl, rfl⟩
  | @unlockSecond call code calls =>
      refine ⟨logical, rfl, shown.release locked (held _ (by simp [Pc.held])) (by simp [current, Pc.held])
        ⟨fun address member => ?_, trivial⟩⟩
      rw [List.mem_singleton.mp member]
      exact held _ (by simp [Pc.held])
  | @unlockFirst call code calls =>
      exact ⟨logical, rfl, shown.release locked (held _ (by simp [Pc.held])) (by simp [current, Pc.held])
        ⟨nofun, trivial⟩⟩

/-- The current call and its code, once it has taken effect. -/
def Pc.committed : Pc → List (Call × Int)
  | .unlockSecond call code | .unlockFirst call code => [(call, code)]
  | _ => []

/-- The addresses that the current call has written. -/
def Pc.written : Pc → List Addr
  | .readTarget call | .writeTarget call _ => [call.source]
  | .unlockSecond call code | .unlockFirst call code => if code = 0 then [call.source, call.target] else []
  | _ => []

/-- The calls of a thread have taken effect in program order, and a call without success has written nothing. -/
structure Story (program : List Call) (commits : List (Call × Int)) (ledger : Ledger) (worker : Worker) : Prop where
  commits_eq : commits = ledger.outcomes.map (fun outcome => (outcome.call, outcome.code)) ++ worker.pc.committed
  pending_eq : ledger.pending = worker.pc.written
  program_eq : program = ledger.outcomes.map Outcome.call ++ (worker.pc.call?.toList ++ worker.calls)
  quiet : ∀ outcome ∈ ledger.outcomes, outcome.code ≠ 0 → outcome.writes = []

/-- A move that emits nothing and commits nothing keeps the story. -/
theorem Story.keep {program : List Call} {commits : List (Call × Int)} {ledger : Ledger}
    {before after : Worker} (story : Story program commits ledger before)
    (committed : after.pc.committed = before.pc.committed) (written : after.pc.written = before.pc.written)
    (calls : after.pc.call?.toList ++ after.calls = before.pc.call?.toList ++ before.calls) :
    Story program (commits ++ []) ledger after where
  commits_eq := by rw [List.append_nil, committed]; exact story.commits_eq
  pending_eq := by rw [written]; exact story.pending_eq
  program_eq := by rw [calls]; exact story.program_eq
  quiet := story.quiet

/-- A write is pending until its call returns. -/
theorem Story.write {program : List Call} {commits latest : List (Call × Int)} {ledger : Ledger}
    {before after : Worker} (story : Story program commits ledger before) {address : Addr}
    (committed : after.pc.committed = before.pc.committed ++ latest)
    (written : after.pc.written = before.pc.written ++ [address])
    (calls : after.pc.call?.toList ++ after.calls = before.pc.call?.toList ++ before.calls) :
    Story program (commits ++ latest) (ledger.record thread (.wrote thread address)) after where
  commits_eq := by simp [Ledger.record, committed, story.commits_eq]
  pending_eq := by simp [Ledger.record, written, story.pending_eq]
  program_eq := by simpa [Ledger.record, calls] using story.program_eq
  quiet := by simpa [Ledger.record] using story.quiet

/-- Each move continues the story of its thread. -/
theorem Story.move {program : List Call} {commits : List (Call × Int)} {ledger : Ledger}
    {owner owner' : Addr → Option Thread} {values values' : Addr → Value} {before after : Worker}
    {events : List (Event Thread)} (story : Story program commits ledger before)
    (move : Move ids owner values thread before owner' values' after events) :
    Story program (commits ++ linearise values before) (events.foldl (Ledger.record thread) ledger) after := by
  have ⟨commits_eq, pending_eq, program_eq, quiet⟩ := story
  cases move with
  | @early call code rest returns =>
      simp only [Pc.committed, List.append_nil] at commits_eq
      refine ⟨?_, ?_, ?_, ?_⟩
      · simp [linearise, returns, Ledger.record, Pc.committed, commits_eq]
      · simp [Ledger.record, Pc.written]
      · simpa [Ledger.record, Pc.call?] using program_eq
      · have silent : ledger.pending = [] := pending_eq
        simpa [Ledger.record, or_imp, forall_and, silent] using quiet
  | @start call rest fresh =>
      simp only [linearise, fresh, Option.toList_none, List.map_nil]
      exact story.keep rfl rfl rfl
  | lockFirst free => exact story.keep rfl rfl rfl
  | lockSecond free => exact story.keep rfl rfl rfl
  | @testFails call calls short =>
      refine ⟨?_, pending_eq, program_eq, quiet⟩
      simp only [Pc.committed, List.append_nil] at commits_eq
      simp [linearise, short, Pc.committed, commits_eq]
  | @testPasses call calls covered =>
      simp only [linearise, covered, Bool.false_eq_true, if_false]
      exact story.keep rfl rfl rfl
  | readSource => exact story.keep rfl rfl rfl
  | writeSource => exact story.write rfl rfl rfl
  | readTarget => exact story.keep rfl rfl rfl
  | writeTarget => exact story.write rfl rfl rfl
  | unlockSecond => exact story.keep rfl rfl rfl
  | @unlockFirst call code calls =>
      refine ⟨?_, ?_, ?_, ?_⟩
      · simpa [linearise, Ledger.record, Pc.committed] using commits_eq
      · simp [Ledger.record, Pc.written]
      · simpa [Ledger.record, Pc.call?] using program_eq
      · have silent : code ≠ 0 → ledger.pending = [] := fun failed => by rw [pending_eq, Pc.written, if_neg failed]
        simpa [Ledger.record, or_imp, forall_and] using And.intro quiet silent

/-- A move emits only events of its own thread. -/
theorem Move.record_other {owner owner' : Addr → Option Thread} {values values' : Addr → Value}
    {before after : Worker} {events : List (Event Thread)}
    (move : Move ids owner values thread before owner' values' after events) {other : Thread}
    (different : other ≠ thread) (ledger : Ledger) : events.foldl (Ledger.record other) ledger = ledger := by
  cases move with
  | early returns => simp [Ledger.record, different.symm]
  | writeSource => simp [Ledger.record, different.symm]
  | writeTarget => simp [Ledger.record, different.symm]
  | unlockFirst => simp [Ledger.record, different.symm]
  | _ => rfl

/-- A step changes only the value of a counter that it reports as written. -/
theorem wrote_of_changed {next : State Thread} {events : List (Event Thread)}
    (stepped : step ids state thread = some (next, events)) {address : Addr}
    (changed : next.values address ≠ state.values address) : .wrote thread address ∈ events := by
  obtain ⟨before, owner, values, after, -, move, rfl⟩ := step_move stepped
  cases move with
  | @writeSource call value calls =>
      have written : address = call.source := by
        by_contra other
        exact changed (Function.update_of_ne other _ _)
      rw [written]
      exact List.mem_singleton_self _
  | @writeTarget call value calls =>
      have written : address = call.target := by
        by_contra other
        exact changed (Function.update_of_ne other _ _)
      rw [written]
      exact List.mem_singleton_self _
  | _ => exact absurd rfl changed

/-- A serial run continues after a serial run. -/
theorem runSerial_append (values : Addr → Value) (earlier later : List Call) :
    runSerial values (earlier ++ later) =
      ((runSerial values earlier).1 ++ (runSerial (runSerial values earlier).2 later).1,
        (runSerial (runSerial values earlier).2 later).2) := by
  induction earlier generalizing values with
  | nil => rfl
  | cons call rest ih => simp only [List.cons_append, runSerial, ih]

/-- The thread's new commits follow its earlier ones. -/
theorem commitsOf_append (order : List (Commit Thread)) (commits : List (Call × Int)) :
    commitsOf thread (order ++ commits.map fun commit => ⟨thread, commit.1, commit.2⟩) =
      commitsOf thread order ++ commits := by
  simp [commitsOf, List.filter_map, Function.comp_def]

/-- The commits of other threads stay. -/
theorem commitsOf_append_other {other : Thread} (different : other ≠ thread) (order : List (Commit Thread))
    (commits : List (Call × Int)) :
    commitsOf other (order ++ commits.map fun commit => ⟨thread, commit.1, commit.2⟩) = commitsOf other order := by
  simp [commitsOf, List.filter_map, Function.comp_def, different.symm]

/-- The memory shows the result of a serial order of the calls that have taken effect. -/
structure Serial (ids : Addr → BitVec 32) (values : Addr → Value) (programs : Thread → List Call)
    (trace : List (Event Thread)) (state : State Thread) (order : List (Commit Thread))
    (logical : Addr → Value) : Prop where
  locked : Locked ids state
  shown : Shown ids state logical
  replay : runSerial values (order.map Commit.call) = (order.map Commit.code, logical)
  stories : ∀ thread,
    Story (programs thread) (commitsOf thread order) (ledger thread trace) (state.workers thread)

/-- Each step extends the serial order by the calls that take effect with it. -/
theorem Serial.step {values : Addr → Value} {programs : Thread → List Call} {trace events : List (Event Thread)}
    {order : List (Commit Thread)} {next : State Thread}
    (serial : Serial ids values programs trace state order logical)
    (stepped : step ids state thread = some (next, events)) :
    ∃ order' logical', Serial ids values programs (trace ++ events) next order' logical' := by
  have locked := serial.locked.step stepped
  obtain ⟨before, owner, values', after, current, move, rfl⟩ := step_move stepped
  obtain ⟨logical', effect, shown⟩ := serial.shown.move serial.locked current move
  refine ⟨order ++ (linearise state.values before).map fun commit => ⟨thread, commit.1, commit.2⟩, logical',
    locked, shown, ?_, ?_⟩
  · simp only [List.map_append, List.map_map, Function.comp_def, runSerial_append, serial.replay]
    rw [effect]
  · refine (Function.forall_update_iff state.workers fun other worker => Story (programs other) (commitsOf other _)
      (ledger other (trace ++ events)) worker).mpr ⟨?_, fun other different => ?_⟩
    · rw [commitsOf_append, ledger, List.foldl_append]
      exact (current ▸ serial.stories thread).move move
    · rw [commitsOf_append_other different, ledger, List.foldl_append, move.record_other different]
      exact serial.stories other

/-- Nothing has taken effect before the first step. -/
theorem initial_serial (values : Addr → Value) (programs : Thread → List Call) :
    Serial ids values programs [] (initial values programs) [] values where
  locked := initial_locked ids values programs
  shown := ⟨fun _ _ => rfl, fun _ => ⟨nofun, trivial⟩⟩
  replay := rfl
  stories _ := ⟨rfl, rfl, rfl, nofun⟩

/-- The final values and codes of interleaved transfers are those of a serial order that keeps the order
of each thread. A call that fails writes no value, and no value changes without a recorded write. -/
theorem transfer_serialisable (ids : Addr → BitVec 32) (values : Addr → Value) (programs : Thread → List Call)
    (schedule : List Thread) (state : State Thread) (trace : List (Event Thread))
    (ran : (machine ids).run (initial values programs) schedule = some (state, trace))
    (finished : ∀ thread, (state.workers thread).Finished) :
    (∃ order : List (Commit Thread),
      runSerial values (order.map Commit.call) = (order.map Commit.code, state.values) ∧
      ∀ thread, (commitsOf thread order).map Prod.fst = programs thread ∧
        commitsOf thread order =
          (ledger thread trace).outcomes.map fun outcome => (outcome.call, outcome.code)) ∧
    (∀ thread, ∀ outcome ∈ (ledger thread trace).outcomes, outcome.code ≠ 0 → outcome.writes = []) ∧
    ∀ (reached next : State Thread) thread events, step ids reached thread = some (next, events) →
      ∀ address, next.values address ≠ reached.values address → .wrote thread address ∈ events := by
  obtain ⟨order, logical, serial⟩ := (machine ids).run_invariant
    (fun past reached => ∃ order logical, Serial ids values programs past reached order logical)
    (fun past reached thread next events before stepped =>
      before.elim fun _ before => before.elim fun _ serial => serial.step stepped)
    ⟨[], values, initial_serial values programs⟩ ran
  have unlocked (address : Addr) : state.owner address = none := by
    cases owner : state.owner address with
    | none => rfl
    | some thread => exact absurd (finished thread) (serial.locked.unfinished_of_owner owner)
  have committed : state.values = logical := funext fun address => serial.shown.free address (unlocked address)
  refine ⟨⟨order, committed ▸ serial.replay, fun thread => ?_⟩, fun thread => (serial.stories thread).quiet,
    fun reached next thread events stepped address changed => wrote_of_changed stepped changed⟩
  obtain ⟨commits_eq, -, program_eq, -⟩ := serial.stories thread
  simp only [(finished thread).1, (finished thread).2, Pc.committed, Pc.call?, Option.toList_none,
    List.append_nil] at commits_eq program_eq
  refine ⟨?_, commits_eq⟩
  rw [commits_eq, program_eq, List.map_map]
  rfl

/-- Two transfers in opposite directions. The second one succeeds only after the first one. -/
def opposite (thread : Bool) : Call := if thread then ⟨64, 128, 3⟩ else ⟨128, 64, 12⟩

/-- Two interleaved transfers in opposite directions both succeed and end with the values of a serial order. -/
theorem transfer_two_threads :
    ∃ state trace, (machine fun _ => 7).run (initial (fun _ => 10) fun thread => [opposite thread])
        ([true, false] ++ List.replicate 9 true ++ List.replicate 9 false) = some (state, trace) ∧
      (∀ thread, (state.workers thread).Finished) ∧
      ∃ order : List (Commit Bool),
        runSerial (fun _ => 10) (order.map Commit.call) = (order.map Commit.code, state.values) ∧
        ∀ thread, (commitsOf thread order).map Prod.fst = [opposite thread] ∧
          commitsOf thread order = [(opposite thread, 0)] := by
  have complete : ((machine fun _ => 7).run (initial (fun _ => 10) fun thread => [opposite thread])
      ([true, false] ++ List.replicate 9 true ++ List.replicate 9 false)).map
        (fun result => fun thread => (result.1.workers thread, (ledger thread result.2).outcomes.map fun outcome =>
          (outcome.call, outcome.code))) =
      some fun thread => (⟨.idle, []⟩, [(opposite thread, 0)]) := by decide
  obtain ⟨⟨state, trace⟩, ran, ended⟩ := Option.map_eq_some_iff.mp complete
  have finished (thread : Bool) : (state.workers thread).Finished := by
    have worker := congrArg Prod.fst (congrFun ended thread)
    exact ⟨congrArg Worker.pc worker, congrArg Worker.calls worker⟩
  obtain ⟨⟨order, replayed, programs⟩, -⟩ := transfer_serialisable _ _ _ _ state trace ran finished
  refine ⟨state, trace, ran, finished, order, replayed, fun thread => ⟨(programs thread).1, ?_⟩⟩
  exact (programs thread).2.trans (congrArg Prod.snd (congrFun ended thread))

end Ostep.Transfer
