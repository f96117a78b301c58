import Ostep.Library.Mutex
import Ostep.Construction.BoundedQueue

namespace Ostep.BoundedQueue

open Library Library.Mutex

variable {Thread : Type}

/-- The accesses of a thread that leave the other threads as they are, with their guards. -/
inductive Access (queue : Queue) (thread : Thread) :
    Option Thread → Pc → Queue → Option Thread → Pc → List (Event Thread) → Prop where
  | lock {pc : Pc} {call : Call} (ready : pc = .locking call ∨ pc = .awakened call) :
      Access queue thread none pc queue (some thread) (.testing call) []
  | park {owner : Option Thread} {call : Call} (waits : call.waits queue = true) :
      Access queue thread owner (.testing call) queue none (.parked call) []
  | refuse {owner : Option Thread} {call : Call} (refused : call.refused queue = true) :
      Access queue thread owner (.testing call) queue owner (.unlocking (.refused call.side))
        [.critical thread (.refused call.side)]
  | proceed {owner : Option Thread} {call : Call} (leaves : call.waits queue = false)
      (accepted : call.refused queue = false) :
      Access queue thread owner (.testing call) queue owner (.transferring call) []
  | store {owner : Option Thread} (value : Word) :
      Access queue thread owner (.transferring (.push value))
        { queue with data := Function.update queue.data queue.head value } owner (.advancing .push value)
        [.critical thread (.pushed value)]
  | load {owner : Option Thread} :
      Access queue thread owner (.transferring .pop) queue owner (.advancing .pop (queue.data queue.tail))
        [.critical thread (.popped (queue.data queue.tail))]
  | advance {owner : Option Thread} (side : Side) (value : Word) :
      Access queue thread owner (.advancing side value) (side.advance queue) owner (.counting side value) []
  | recount {owner : Option Thread} (side : Side) (value : Word) :
      Access queue thread owner (.counting side value) (side.recount queue) owner (.signalling side value) []
  | unlock {owner : Option Thread} (outcome : Outcome) :
      Access queue thread owner (.unlocking outcome) queue none .outside [.returned thread outcome.code]
  | lockClose : Access queue thread none .closeLocking queue (some thread) .closing []
  | close {owner : Option Thread} :
      Access queue thread owner .closing { queue with closed := true } owner (.broadcasting .push)
        [.critical thread .closed]

/-- The thread that acts. -/
def Action.thread : Action Thread → Thread
  | .call thread _ _ | .close thread _ | .go thread _ | .spurious thread _ => thread

theorem access_cases {queue next : Queue} {owner owner' : Option Thread} {thread : Thread} {pc pc' : Pc}
    {events : List (Event Thread)} (accessed : access queue owner thread pc = some (next, owner', pc', events)) :
    Access queue thread owner pc next owner' pc' events := by
  cases pc with
  | outside => cases accessed
  | parked call => cases accessed
  | signalling side value => cases accessed
  | broadcasting side => cases accessed
  | locking call =>
      simp only [access, Option.ite_none_right_eq_some] at accessed
      obtain ⟨rfl, same⟩ := accessed
      cases same
      exact .lock (Or.inl rfl)
  | awakened call =>
      simp only [access, Option.ite_none_right_eq_some] at accessed
      obtain ⟨rfl, same⟩ := accessed
      cases same
      exact .lock (Or.inr rfl)
  | testing call =>
      simp only [access] at accessed
      split at accessed
      · next waits =>
          cases accessed
          exact .park waits
      · next leaves =>
          split at accessed
          · next refused =>
              cases accessed
              exact .refuse refused
          · next accepted =>
              cases accessed
              exact .proceed (Bool.eq_false_iff.mpr leaves) (Bool.eq_false_iff.mpr accepted)
  | transferring call =>
      cases call with
      | push value =>
          cases accessed
          exact .store value
      | pop =>
          cases accessed
          exact .load
  | advancing side value =>
      cases accessed
      exact .advance side value
  | counting side value =>
      cases accessed
      exact .recount side value
  | unlocking outcome =>
      cases accessed
      exact .unlock outcome
  | closeLocking =>
      simp only [access, Option.ite_none_right_eq_some] at accessed
      obtain ⟨rfl, same⟩ := accessed
      cases same
      exact .lockClose
  | closing =>
      cases accessed
      exact .close

/-- The thread owns the mutex. -/
def Pc.Inside : Pc → Prop
  | .testing _ | .transferring _ | .advancing _ _ | .counting _ _ | .signalling _ _ | .unlocking _ | .closing
  | .broadcasting _ => True
  | _ => False

/-- The queue has room for a push or a value for a pop. -/
def Side.Ready (queue : Queue) : Side → Prop
  | .push => queue.count < bqCapacity ∧ queue.closed = false
  | .pop => 0 < queue.count

/-- The tests of the thread inside still hold. The queue stays open until a successful push returns. -/
def Pc.Sound (queue : Queue) : Pc → Prop
  | .transferring call => call.side.Ready queue
  | .advancing side _ | .counting side _ => side.Ready queue
  | .signalling .push _ | .unlocking (.pushed _) => queue.closed = false
  | _ => True

/-- A thread outside the critical sections has tested nothing. -/
theorem Pc.sound_of_outside {pc : Pc} (outside : ¬pc.Inside) (queue : Queue) : pc.Sound queue := by
  cases pc with
  | transferring call => exact absurd trivial outside
  | advancing side value => exact absurd trivial outside
  | counting side value => exact absurd trivial outside
  | signalling side value => exact absurd trivial outside
  | unlocking outcome => exact absurd trivial outside
  | _ => trivial

/-- A call that passes both tests is ready. -/
theorem ready_of_tests {queue : Queue} {call : Call} (bounded : queue.count ≤ bqCapacity)
    (leaves : call.waits queue = false) (accepted : call.refused queue = false) : call.side.Ready queue := by
  cases call with
  | push value =>
      have opened : queue.closed = false := accepted
      simp only [Call.waits, opened, Bool.not_false, Bool.and_true, decide_eq_false_iff_not] at leaves
      exact ⟨Nat.lt_of_le_of_ne bounded leaves, opened⟩
  | pop =>
      apply Nat.pos_of_ne_zero
      intro empty
      cases closed : queue.closed with
      | true => simp [Call.refused, closed, empty] at accepted
      | false => simp [Call.waits, closed, empty] at leaves

@[simp] theorem Pc.wake_inside (side : Side) (pc : Pc) : (pc.wake side).Inside ↔ pc.Inside := by
  cases pc with
  | parked call =>
      simp only [Pc.wake]
      split <;> exact Iff.rfl
  | _ => exact Iff.rfl

/-- A wake-up leaves the threads inside. -/
theorem Pc.wake_of_inside {pc : Pc} (inside : pc.Inside) (side : Side) : pc.wake side = pc := by
  cases pc with
  | parked call => exact inside.elim
  | _ => rfl

/-- Only the thread inside has tested the queue, and the count is in range. -/
structure Safe (state : State Thread) : Prop where
  guarded : Guards Pc.Inside state.owner state.threads
  bounded : state.queue.count ≤ bqCapacity
  sound : ∀ thread, (state.threads thread).Sound state.queue

variable {state : State Thread}

/-- The queue starts safe. -/
theorem initial_safe (data : Nat → Word) : Safe (initial data : State Thread) where
  guarded _ := iff_of_false nofun id
  bounded := Nat.zero_le _
  sound _ := trivial

/-- Wake-ups keep the state safe. -/
theorem Safe.wake (safe : Safe state) {side : Side} {threads : Thread → Pc}
    (woken : ∀ thread, threads thread = state.threads thread ∨ threads thread = (state.threads thread).wake side) :
    Safe { state with threads } := by
  refine ⟨fun thread => ?_, safe.bounded, fun thread => ?_⟩
  · change state.owner = some thread ↔ (threads thread).Inside
    rw [safe.guarded thread]
    rcases woken thread with same | wakes
    · rw [same]
    · rw [wakes, Pc.wake_inside]
  · change (threads thread).Sound state.queue
    by_cases inside : (state.threads thread).Inside
    · have same : threads thread = state.threads thread :=
        (woken thread).elim id fun wakes => wakes.trans (Pc.wake_of_inside inside side)
      rw [same]
      exact safe.sound thread
    · apply Pc.sound_of_outside
      rcases woken thread with same | wakes
      · rwa [same]
      · rwa [wakes, Pc.wake_inside]

variable [DecidableEq Thread] {thread : Thread}

/-- A thread changes the queue only while it is inside. -/
theorem Safe.update (safe : Safe state) {queue : Queue} {owner : Option Thread} {next : Pc}
    (guarded : Guards Pc.Inside owner (Function.update state.threads thread next))
    (bounded : queue.count ≤ bqCapacity) (sound : next.Sound queue)
    (others : queue = state.queue ∨ (state.threads thread).Inside) :
    Safe ⟨queue, owner, Function.update state.threads thread next⟩ := by
  refine ⟨guarded, bounded, ?_⟩
  refine (Function.forall_update_iff state.threads fun _ pc => pc.Sound queue).mpr
    ⟨sound, fun other different => ?_⟩
  rcases others with rfl | inside
  · exact safe.sound other
  · exact Pc.sound_of_outside (safe.guarded.alone inside different) queue

/-- Each access keeps the state safe. -/
theorem Safe.access (safe : Safe state) {queue : Queue} {owner : Option Thread} {next : Pc}
    {events : List (Event Thread)}
    (moved : Access state.queue thread state.owner (state.threads thread) queue owner next events) :
    Safe ⟨queue, owner, Function.update state.threads thread next⟩ := by
  have guarded := safe.guarded
  have bounded := safe.bounded
  have sound := safe.sound thread
  rcases state with ⟨before, holder, threads⟩
  dsimp only at moved guarded bounded sound
  generalize current : threads thread = pc at moved sound
  have mine (inside : pc.Inside) : (threads thread).Inside := current ▸ inside
  have stays (inside : pc.Inside) (still : next.Inside) :
      Guards Pc.Inside holder (Function.update threads thread next) :=
    guarded.keep (iff_of_true still (mine inside))
  cases moved with
  | lock ready => exact safe.update (guarded.take trivial) bounded trivial (Or.inl rfl)
  | park waits =>
      exact safe.update (guarded.release (mine trivial) id) bounded trivial (Or.inl rfl)
  | refuse refused => exact safe.update (stays trivial trivial) bounded trivial (Or.inl rfl)
  | proceed leaves accepted =>
      exact safe.update (stays trivial trivial) bounded (ready_of_tests bounded leaves accepted) (Or.inl rfl)
  | store value => exact safe.update (stays trivial trivial) bounded sound (Or.inr (mine trivial))
  | load => exact safe.update (stays trivial trivial) bounded sound (Or.inl rfl)
  | advance side value =>
      refine safe.update (stays trivial trivial) ?_ ?_ (Or.inr (mine trivial))
      · cases side <;> exact bounded
      · cases side <;> exact sound
  | recount side value =>
      refine safe.update (stays trivial trivial) ?_ ?_ (Or.inr (mine trivial))
      · cases side with
        | push => exact sound.1
        | pop => exact (Nat.sub_le _ _).trans bounded
      · cases side with
        | push => exact sound.2
        | pop => trivial
  | unlock outcome =>
      exact safe.update (guarded.release (mine trivial) id) bounded trivial (Or.inl rfl)
  | lockClose => exact safe.update (guarded.take trivial) bounded trivial (Or.inl rfl)
  | close => exact safe.update (stays trivial trivial) bounded trivial (Or.inr (mine trivial))

/-- The first access of a call takes the mutex. -/
def Pc.Entry (pc : Pc) : Prop := pc = .closeLocking ∨ ∃ call, pc = .locking call

variable [Fintype Thread]

/-- The steps of the machine. -/
inductive Step (state : State Thread) (thread : Thread) : State Thread → List (Event Thread) → Prop where
  | enter {first : Pc} (outside : state.threads thread = .outside) (entry : first.Entry) :
      Step state thread { state with threads := Function.update state.threads thread first } []
  | null (outside : state.threads thread = .outside) : Step state thread state [.returned thread (-1)]
  | access {queue : Queue} {owner : Option Thread} {next : Pc} {events : List (Event Thread)}
      (moved : Access state.queue thread state.owner (state.threads thread) queue owner next events) :
      Step state thread ⟨queue, owner, Function.update state.threads thread next⟩ events
  | signal {side : Side} {value : Word} {woken : Option Thread} {threads : Thread → Pc}
      (current : state.threads thread = .signalling side value)
      (signalled : signal state.threads side.other woken = some threads) :
      Step state thread
        { state with threads := Function.update threads thread (.unlocking (side.moved value)) } []
  | broadcast {side : Side} (current : state.threads thread = .broadcasting side) :
      Step state thread { state with
        threads := Function.update (fun other => (state.threads other).wake side) thread
          (afterBroadcast side) } []
  | spurious {side : Side} {threads : Thread → Pc}
      (signalled : BoundedQueue.signal state.threads side (some thread) = some threads) :
      Step state thread { state with threads } []

theorem Step.of_enter {state next : State Thread} {thread : Thread} {nonNull : Bool} {first : Pc}
    {events : List (Event Thread)} (entry : first.Entry)
    (entered : BoundedQueue.enter state thread nonNull first = some (next, events)) :
    Step state thread next events := by
  unfold BoundedQueue.enter at entered
  split at entered
  · next outside =>
      split at entered
      · cases entered
        exact .enter outside entry
      · cases entered
        exact .null outside
  · cases entered

theorem Step.of_go {state next : State Thread} {thread : Thread} {woken : Option Thread}
    {events : List (Event Thread)} (went : goStep state thread woken = some (next, events)) :
    Step state thread next events := by
  unfold goStep at went
  split at went
  · next side value current =>
      obtain ⟨threads, signalled, same⟩ := Option.map_eq_some_iff.mp went
      cases same
      exact .signal current signalled
  · next side current =>
      cases went
      exact .broadcast current
  · obtain ⟨⟨queue, owner, after, emitted⟩, accessed, same⟩ := Option.map_eq_some_iff.mp went
    cases same
    exact .access (access_cases accessed)

/-- The machine takes only these steps. -/
theorem Step.of_machine {state next : State Thread} {action : Action Thread} {events : List (Event Thread)}
    (stepped : machine.step state action = some (next, events)) : Step state action.thread next events := by
  cases action with
  | call thread nonNull call => exact .of_enter (Or.inr ⟨call, rfl⟩) stepped
  | close thread nonNull => exact .of_enter (Or.inl rfl) stepped
  | go thread woken => exact .of_go stepped
  | spurious thread side =>
      obtain ⟨threads, signalled, same⟩ := Option.map_eq_some_iff.mp stepped
      cases same
      exact .spurious signalled

/-- A signal wakes only threads of its side. -/
theorem signal_woken {threads threads' : Thread → Pc} {side : Side} {woken : Option Thread}
    (signalled : signal threads side woken = some threads') (thread : Thread) :
    threads' thread = threads thread ∨ threads' thread = (threads thread).wake side := by
  cases woken with
  | none =>
      simp only [signal, Option.ite_none_right_eq_some, Option.some.injEq] at signalled
      exact Or.inl (congrFun signalled.2.symm thread)
  | some other =>
      simp only [signal, Option.ite_none_right_eq_some, Option.some.injEq] at signalled
      obtain ⟨-, rfl⟩ := signalled
      by_cases same : thread = other
      · subst same
        exact Or.inr (Function.update_self ..)
      · exact Or.inl (Function.update_of_ne same ..)

/-- Every step keeps the state safe. -/
theorem Safe.step (safe : Safe state) {next : State Thread} {events : List (Event Thread)}
    (step : Step state thread next events) : Safe next := by
  cases step with
  | enter outside entry =>
      refine safe.update (safe.guarded.keep ?_) safe.bounded ?_ (Or.inl rfl)
      · rw [outside]
        rcases entry with rfl | ⟨call, rfl⟩ <;> exact Iff.rfl
      · rcases entry with rfl | ⟨call, rfl⟩ <;> trivial
  | null outside => exact safe
  | access moved => exact safe.access moved
  | @signal side value woken threads current signalled =>
      have awake := safe.wake (signal_woken signalled)
      have inside : (threads thread).Inside := by
        rcases signal_woken signalled thread with same | wakes
        · rw [same, current]
          trivial
        · rw [wakes, current]
          trivial
      refine awake.update (awake.guarded.keep (iff_of_true trivial inside)) awake.bounded ?_ (Or.inl rfl)
      have sound := safe.sound thread
      rw [current] at sound
      cases side with
      | push => exact sound
      | pop => trivial
  | @broadcast side current =>
      have awake : Safe { state with threads := fun other => (state.threads other).wake side } :=
        safe.wake fun _ => Or.inr rfl
      have inside : ((state.threads thread).wake side).Inside := by
        rw [current]
        trivial
      refine awake.update (awake.guarded.keep (iff_of_true ?_ inside)) awake.bounded ?_ (Or.inl rfl)
      · cases side <;> trivial
      · cases side <;> trivial
  | spurious signalled => exact safe.wake (signal_woken signalled)

end Ostep.BoundedQueue
