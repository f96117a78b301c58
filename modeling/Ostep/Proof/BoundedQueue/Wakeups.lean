import Ostep.Library.Count
import Ostep.Proof.BoundedQueue.Step

namespace Ostep.BoundedQueue

open Library Library.Count Library.Mutex

/-- The values a pop can take, and the slots a push can fill. -/
def Side.available (queue : Queue) : Side → Nat
  | .push => bqCapacity - queue.count
  | .pop => queue.count

/-- The thread will take what is available to the side, or wake another thread for it. -/
def Pc.covers (side : Side) : Pc → Nat
  | .awakened call | .testing call | .transferring call => if call.side = side then 1 else 0
  | .advancing mine _ | .counting mine _ => if mine = side then 1 else 0
  | .signalling mine _ => if mine.other = side then 1 else 0
  | _ => 0

/-- The rest of `bq_close` wakes the parked threads of the side. -/
def Pc.Wakes (side : Side) : Pc → Prop
  | .broadcasting .push => True
  | .broadcasting .pop => side = .pop
  | _ => False

variable {side other : Side} {pc : Pc}

theorem Pc.inside_of_wakes (wakes : pc.Wakes side) : pc.Inside := by
  cases pc with
  | broadcasting first => trivial
  | _ => exact wakes.elim

/-- Outside the critical sections only the awakened threads count. -/
theorem Pc.covers_of_outside (outside : ¬pc.Inside) : pc.covers side = pc.awakenedOn side := by
  cases pc with
  | testing call => exact absurd trivial outside
  | transferring call => exact absurd trivial outside
  | advancing mine value => exact absurd trivial outside
  | counting mine value => exact absurd trivial outside
  | signalling mine value => exact absurd trivial outside
  | _ => rfl

/-- A wake-up parks nobody. -/
theorem Pc.parked_of_wake (parked : (pc.wake other).ParkedOn side) : pc.ParkedOn side ∧ side ≠ other := by
  cases pc with
  | parked call =>
      simp only [Pc.wake] at parked
      split at parked
      · exact parked.elim
      · next different =>
          have same : call.side = side := parked
          exact ⟨same, same ▸ different⟩
  | _ => exact parked.elim

/-- Threads that are parked after a wake-up were parked before. -/
theorem parked_of_woken {now : Pc} (woken : now = pc ∨ now = pc.wake other) (parked : now.ParkedOn side) :
    pc.ParkedOn side := by
  rcases woken with rfl | rfl
  · exact parked
  · exact (Pc.parked_of_wake parked).1

/-- A thread that is woken covers what it waited for. -/
theorem Pc.covers_wake (pc : Pc) : pc.covers side ≤ (pc.wake other).covers side := by
  cases pc with
  | parked call => exact Nat.zero_le _
  | _ => exact le_rfl

/-- A woken thread covers exactly one of what it waited for. -/
theorem Pc.covers_wake_parked (parked : pc.ParkedOn side) : (pc.wake side).covers side = pc.covers side + 1 := by
  cases pc with
  | parked call =>
      have same : call.side = side := parked
      simp [Pc.wake, Pc.covers, same]
  | _ => exact parked.elim

variable {Thread : Type} {thread : Thread}

section Access

variable {queue after : Queue} {owner released : Option Thread} {next : Pc} {events : List (Event Thread)}

/-- A thread takes the free mutex, or it is inside and does not close the queue. -/
theorem Access.busy (moved : Access queue thread owner pc after released next events) :
    owner = none ∨ pc.Inside ∧ ¬pc.Wakes side := by
  cases moved with
  | lock ready => exact Or.inl rfl
  | lockClose => exact Or.inl rfl
  | _ => exact Or.inr ⟨trivial, id⟩

/-- A thread parks only on an open queue that has nothing for it. -/
theorem Access.parks (moved : Access queue thread owner pc after released next events)
    (parked : next.ParkedOn side) :
    queue.closed = false ∧ after.closed = false ∧ side.available after = 0 := by
  cases moved with
  | @park _ call waits =>
      have same : call.side = side := parked
      subst same
      cases call with
      | push value =>
          simp only [Call.waits, Bool.and_eq_true, decide_eq_true_eq, Bool.not_eq_true'] at waits
          exact ⟨waits.2, waits.2, by simp [Call.side, Side.available, waits.1]⟩
      | pop =>
          simp only [Call.waits, Bool.and_eq_true, decide_eq_true_eq, Bool.not_eq_true'] at waits
          exact ⟨waits.2, waits.2, waits.1⟩
  | _ => exact parked.elim

/-- The thread that closes the queue goes on to wake everybody. -/
theorem Access.closes (moved : Access queue thread owner pc after released next events)
    (opened : queue.closed = false) (closed : after.closed = true) : next.Wakes side := by
  cases moved with
  | close => trivial
  | advance mine value => cases mine <;> cases opened.symm.trans closed
  | recount mine value => cases mine <;> cases opened.symm.trans closed
  | _ => cases opened.symm.trans closed

/-- What becomes available to a side is covered by the thread that makes it available. -/
theorem Access.balance (moved : Access queue thread owner pc after released next events)
    (sound : pc.Sound queue) (opened : queue.closed = false) (stays : ¬next.ParkedOn side) :
    side.available after + pc.covers side ≤ side.available queue + next.covers side := by
  cases moved with
  | lock ready =>
      apply Nat.add_le_add_left
      rcases ready with rfl | rfl
      · exact Nat.zero_le _
      · exact le_rfl
  | @park _ call waits =>
      have different : call.side ≠ side := stays
      simp [Pc.covers, different]
  | @refuse _ call refused => cases call <;> simp [Call.refused, opened] at refused
  | proceed leaves accepted => exact le_rfl
  | store value => exact le_rfl
  | load => exact le_rfl
  | advance mine value => cases mine <;> exact le_rfl
  | recount mine value =>
      cases mine with
      | push =>
          have room := sound.1
          cases side with
          | push =>
              simp [Side.available, Side.recount, Pc.covers, Side.other]
              omega
          | pop => simp [Side.available, Side.recount, Pc.covers, Side.other]
      | pop =>
          have positive : 0 < queue.count := sound
          cases side with
          | push =>
              simp [Side.available, Side.recount, Pc.covers, Side.other]
              omega
          | pop =>
              simp [Side.available, Side.recount, Pc.covers, Side.other]
              omega
  | unlock outcome => exact le_rfl
  | lockClose => exact le_rfl
  | close => exact le_rfl

end Access

variable {state : State Thread}

/-- Nobody else is closing the queue while a thread is inside. -/
theorem Safe.closer_eq (safe : Safe state) (inside : (state.threads thread).Inside) {closer : Thread}
    (wakes : (state.threads closer).Wakes side) : closer = thread := by
  have mine := (safe.guarded thread).mpr inside
  have theirs := (safe.guarded closer).mpr (Pc.inside_of_wakes wakes)
  exact Option.some.inj (theirs.symm.trans mine)

/-- Nobody closes the queue while a thread makes another access. -/
theorem Safe.idle {queue : Queue} {owner : Option Thread} {next : Pc} {events : List (Event Thread)}
    (safe : Safe state)
    (moved : Access state.queue thread state.owner (state.threads thread) queue owner next events)
    (closer : Thread) : ¬(state.threads closer).Wakes side := by
  intro wakes
  rcases moved.busy with free | ⟨inside, waking⟩
  · cases free.symm.trans ((safe.guarded closer).mpr (Pc.inside_of_wakes wakes))
  · rw [safe.closer_eq inside wakes] at wakes
    exact waking wakes

/-- Threads that are parked after an update of another thread were parked before. -/
theorem parked_of_update [DecidableEq Thread] {threads : Thread → Pc} {next : Pc} {waiting : Thread}
    (stays : ¬next.ParkedOn side) (parked : (Function.update threads thread next waiting).ParkedOn side) :
    (threads waiting).ParkedOn side := by
  by_cases same : waiting = thread
  · subst same
    rw [Function.update_self] at parked
    exact absurd parked stays
  · rwa [Function.update_of_ne same] at parked

variable [Fintype Thread]

/-- While a thread is parked, other threads cover everything available to its side.
A parked thread of a closed queue is about to be woken. -/
structure Covered (side : Side) (state : State Thread) : Prop where
  enough : ∀ thread, (state.threads thread).ParkedOn side →
    side.available state.queue ≤ total (Pc.covers side) state.threads
  pending : ∀ thread, (state.threads thread).ParkedOn side → state.queue.closed = true →
    ∃ closer, (state.threads closer).Wakes side

theorem initial_covered (data : Nat → Word) : Covered side (initial data : State Thread) :=
  ⟨fun _ => False.elim, fun _ => False.elim⟩

/-- Nobody is parked on a closed queue unless the owner of the mutex is closing it. -/
theorem Covered.unparked (covered : Covered side state) (closed : state.queue.closed = true)
    (idle : ∀ closer, ¬(state.threads closer).Wakes side) : ¬(state.threads thread).ParkedOn side :=
  fun parked => (covered.pending thread parked closed).elim idle

/-- While the mutex is free, only awakened threads cover what is available to a parked thread. -/
theorem Covered.awakened (covered : Covered side state) (safe : Safe state) (free : state.owner = none)
    (parked : (state.threads thread).ParkedOn side) :
    state.queue.closed = false ∧ side.available state.queue ≤ total (Pc.awakenedOn side) state.threads := by
  have outside (other : Thread) : ¬(state.threads other).Inside := by
    intro inside
    cases free.symm.trans ((safe.guarded other).mpr inside)
  constructor
  · apply Bool.eq_false_iff.mpr
    intro closed
    obtain ⟨closer, wakes⟩ := covered.pending thread parked closed
    exact outside closer (Pc.inside_of_wakes wakes)
  · rw [← total_congr fun other => Pc.covers_of_outside (outside other)]
    exact covered.enough thread parked

/-- Wake-ups keep the parked threads covered. -/
theorem Covered.wake (covered : Covered side state) {threads : Thread → Pc}
    (woken : ∀ thread, threads thread = state.threads thread ∨ threads thread = (state.threads thread).wake other) :
    Covered side { state with threads } := by
  refine ⟨fun waiting parked => ?_, fun waiting parked closed => ?_⟩
  · apply (covered.enough waiting (parked_of_woken (woken waiting) parked)).trans
    apply total_mono
    intro thread
    rcases woken thread with same | wakes
    · exact (congrArg (Pc.covers side) same).ge
    · exact (Pc.covers_wake _).trans (congrArg (Pc.covers side) wakes).ge
  · obtain ⟨closer, wakes⟩ := covered.pending waiting (parked_of_woken (woken waiting) parked) closed
    have same : threads closer = state.threads closer :=
      (woken closer).elim id fun woke => woke.trans (Pc.wake_of_inside (Pc.inside_of_wakes wakes) other)
    refine ⟨closer, ?_⟩
    change (threads closer).Wakes side
    rwa [same]

variable [DecidableEq Thread]

/-- Each access keeps the parked threads covered. -/
theorem Covered.access (covered : Covered side state) (safe : Safe state) {queue : Queue} {owner : Option Thread}
    {next : Pc} {events : List (Event Thread)}
    (moved : Access state.queue thread state.owner (state.threads thread) queue owner next events) :
    Covered side ⟨queue, owner, Function.update state.threads thread next⟩ := by
  cases opened : state.queue.closed with
  | true =>
      have stays : ¬next.ParkedOn side := fun parked => by simp [(moved.parks parked).1] at opened
      have nobody (waiting : Thread) : ¬(Function.update state.threads thread next waiting).ParkedOn side :=
        fun parked => covered.unparked opened (safe.idle moved) (parked_of_update stays parked)
      exact ⟨fun waiting parked => absurd parked (nobody waiting),
        fun waiting parked => absurd parked (nobody waiting)⟩
  | false =>
      refine ⟨fun waiting parked => ?_, fun waiting parked closed => ?_⟩
      · by_cases parks : next.ParkedOn side
        · rw [(moved.parks parks).2.2]
          exact Nat.zero_le _
        · have before := covered.enough waiting (parked_of_update parks parked)
          have balance := moved.balance (safe.sound thread) opened parks
          have exchange := total_update (Pc.covers side) state.threads thread next
          dsimp only
          omega
      · refine ⟨thread, ?_⟩
        change (Function.update state.threads thread next thread).Wakes side
        rw [Function.update_self]
        exact moved.closes opened closed

/-- A thread that starts a call covers nothing yet. -/
theorem Covered.enter (covered : Covered side state) {first : Pc} (outside : state.threads thread = .outside)
    (entry : first.Entry) :
    Covered side { state with threads := Function.update state.threads thread first } := by
  have stays : ¬first.ParkedOn side := by rcases entry with rfl | ⟨call, rfl⟩ <;> exact id
  refine ⟨fun waiting parked => ?_, fun waiting parked closed => ?_⟩
  · have before := covered.enough waiting (parked_of_update stays parked)
    have exchange := total_update (Pc.covers side) state.threads thread first
    have weightless : (state.threads thread).covers side = 0 := by
      rw [outside]
      rfl
    dsimp only
    omega
  · obtain ⟨closer, wakes⟩ := covered.pending waiting (parked_of_update stays parked) closed
    have different : closer ≠ thread := by
      rintro rfl
      rw [outside] at wakes
      exact wakes
    refine ⟨closer, ?_⟩
    dsimp only
    rwa [Function.update_of_ne different]

/-- While somebody stays parked, a signal has woken a thread. -/
theorem signal_covers {threads threads' : Thread → Pc} {woken : Option Thread} {waiting : Thread}
    (signalled : signal threads side woken = some threads') (parked : (threads' waiting).ParkedOn side) :
    total (Pc.covers side) threads' = total (Pc.covers side) threads + 1 := by
  cases woken with
  | none =>
      simp only [signal, Option.ite_none_right_eq_some, Option.some.injEq] at signalled
      obtain ⟨nobody, rfl⟩ := signalled
      exact absurd parked (nobody waiting)
  | some first =>
      simp only [signal, Option.ite_none_right_eq_some, Option.some.injEq] at signalled
      obtain ⟨asleep, rfl⟩ := signalled
      have exchange := total_update (Pc.covers side) threads first ((threads first).wake side)
      have gains := Pc.covers_wake_parked asleep
      omega

/-- A signal passes on what the thread covered. -/
theorem Covered.signal (covered : Covered side state) (safe : Safe state) {mine : Side} {value : Word}
    {woken : Option Thread} {threads : Thread → Pc} (current : state.threads thread = .signalling mine value)
    (signalled : BoundedQueue.signal state.threads mine.other woken = some threads) :
    Covered side { state with threads := Function.update threads thread (.unlocking (mine.moved value)) } := by
  have inside : (state.threads thread).Inside := by
    rw [current]
    trivial
  have same : threads thread = .signalling mine value :=
    (signal_woken signalled thread).elim (fun same => same.trans current)
      fun wakes => (wakes.trans (Pc.wake_of_inside inside _)).trans current
  have idle (closer : Thread) : ¬(state.threads closer).Wakes side := by
    intro wakes
    rw [safe.closer_eq inside wakes, current] at wakes
    exact wakes
  refine ⟨fun waiting parked => ?_, fun waiting parked closed => ?_⟩
  · have still : (threads waiting).ParkedOn side := parked_of_update id parked
    have exchange := total_update (Pc.covers side) threads thread (.unlocking (mine.moved value))
    rw [same] at exchange
    by_cases signals : mine.other = side
    · -- The woken thread covers what the signalling thread covered.
      subst signals
      have before := covered.enough waiting (parked_of_woken (signal_woken signalled waiting) still)
      have gains := signal_covers signalled still
      simp only [Pc.covers, if_pos] at exchange
      dsimp only
      omega
    · have before := (covered.wake (signal_woken signalled)).enough waiting still
      simp only [Pc.covers, if_neg signals] at exchange
      dsimp only at before ⊢
      omega
  · have still : (threads waiting).ParkedOn side := parked_of_update id parked
    exact absurd (parked_of_woken (signal_woken signalled waiting) still) (covered.unparked closed idle)

/-- A broadcast leaves nobody parked on its side. -/
theorem Covered.broadcast (covered : Covered side state) (safe : Safe state) {first : Side}
    (current : state.threads thread = .broadcasting first) :
    Covered side { state with
      threads := Function.update (fun other => (state.threads other).wake first) thread (afterBroadcast first) } := by
  have awake : Covered side { state with threads := fun other => (state.threads other).wake first } :=
    covered.wake fun _ => Or.inr rfl
  have stays : ¬(afterBroadcast first).ParkedOn side := by cases first <;> exact id
  refine ⟨fun waiting parked => ?_, fun waiting parked closed => ?_⟩
  · have before := awake.enough waiting (parked_of_update stays parked)
    have exchange := total_update (Pc.covers side) (fun other => (state.threads other).wake first) thread
      (afterBroadcast first)
    have weightless : (afterBroadcast first).covers side = 0 := by cases first <;> rfl
    have waking : ((state.threads thread).wake first).covers side = 0 := by
      rw [current]
      rfl
    dsimp only at before exchange ⊢
    omega
  · have inside : (state.threads thread).Inside := by
      rw [current]
      trivial
    dsimp only at parked
    have still := parked_of_update stays parked
    obtain ⟨before, different⟩ := Pc.parked_of_wake still
    obtain ⟨closer, wakes⟩ := covered.pending waiting before closed
    rw [safe.closer_eq inside wakes, current] at wakes
    refine ⟨thread, ?_⟩
    dsimp only
    rw [Function.update_self]
    cases first with
    | push =>
        change side = .pop
        revert different
        cases side <;> decide
    | pop => exact absurd wakes different

/-- Every step keeps the parked threads covered. -/
theorem Covered.step (covered : Covered side state) (safe : Safe state) {next : State Thread}
    {events : List (Event Thread)} (step : Step state thread next events) : Covered side next := by
  cases step with
  | enter outside entry => exact covered.enter outside entry
  | null outside => exact covered
  | access moved => exact covered.access safe moved
  | signal current signalled => exact covered.signal safe current signalled
  | broadcast current => exact covered.broadcast safe current
  | spurious signalled => exact covered.wake (signal_woken signalled)

/-- Every run keeps the parked threads covered. -/
theorem run_covered {data : Nat → Word} {schedule : List (Action Thread)} {trace : List (Event Thread)}
    (ran : machine.run (initial data) schedule = some (state, trace)) :
    Safe state ∧ ∀ side, Covered side state := by
  refine machine.run_invariant (fun _ state => Safe state ∧ ∀ side, Covered side state)
    ?_ ⟨initial_safe data, fun _ => initial_covered data⟩ ran
  rintro past state action next events ⟨safe, covered⟩ stepped
  have step := Step.of_machine stepped
  exact ⟨safe.step step, fun side => (covered side).step safe step⟩

/-- While the mutex is free, a parked thread waits on an open queue, and the awakened threads of its side
are enough for all that is available. With nobody awakened its condition does not hold. -/
theorem boundedQueue_no_lost_wakeup (data : Nat → Word) (schedule : List (Action Thread))
    (trace : List (Event Thread)) (ran : machine.run (initial data) schedule = some (state, trace))
    (free : state.owner = none) :
    (∀ thread, (state.threads thread).ParkedOn .pop →
      state.queue.closed = false ∧ state.queue.count ≤ total (Pc.awakenedOn .pop) state.threads) ∧
    (∀ thread, (state.threads thread).ParkedOn .push →
      state.queue.closed = false ∧
      bqCapacity - state.queue.count ≤ total (Pc.awakenedOn .push) state.threads) ∧
    ∀ thread call, state.threads thread = .parked call →
      (∀ other, (state.threads other).awakenedOn call.side = 0) → call.waits state.queue = true := by
  obtain ⟨safe, covered⟩ := run_covered ran
  refine ⟨fun thread parked => (covered .pop).awakened safe free parked,
    fun thread parked => (covered .push).awakened safe free parked, fun thread call current nobody => ?_⟩
  have parked : (state.threads thread).ParkedOn call.side := by
    rw [current]
    rfl
  obtain ⟨opened, enough⟩ := (covered call.side).awakened safe free parked
  rw [total_eq_zero nobody, Nat.le_zero] at enough
  cases call with
  | push value =>
      have full : state.queue.count = bqCapacity :=
        le_antisymm safe.bounded (Nat.sub_eq_zero_iff_le.mp enough)
      simp [Call.waits, full, opened]
  | pop =>
      have empty : state.queue.count = 0 := enough
      simp [Call.waits, empty, opened]

/-- A push wakes one of two parked poppers. -/
def onePopperWoken {Thread : Type} (first second pusher : Thread) : List (Action Thread) :=
  [Action.call first true .pop, .go first none, .go first none, .call second true .pop, .go second none,
    .go second none, .call pusher true (.push 7)] ++
    List.replicate 5 (Action.go pusher none) ++ [Action.go pusher (some first), .go pusher none]

/-- The other popper stays parked on an open queue with one value, and one popper is awake. -/
theorem boundedQueue_one_popper_woken :
    ∃ state trace, machine.run (initial fun _ => 0) (onePopperWoken (0 : Fin 3) 1 2) = some (state, trace) ∧
      (state.threads 1).ParkedOn .pop ∧ state.queue.count = 1 ∧
      state.queue.closed = false ∧ 1 ≤ total (Pc.awakenedOn .pop) state.threads := by
  have woken : (machine.run (initial fun _ => 0) (onePopperWoken (0 : Fin 3) 1 2)).map
      (fun result => (result.1.owner, result.1.queue.count, result.1.threads 1)) = some (none, 1, .parked .pop) := by
    decide +kernel
  obtain ⟨⟨state, trace⟩, ran, ended⟩ := Option.map_eq_some_iff.mp woken
  obtain ⟨free, rest⟩ := Prod.mk.inj ended
  obtain ⟨count, waiting⟩ := Prod.mk.inj rest
  have parked : (state.threads 1).ParkedOn .pop := (congrArg (Pc.ParkedOn .pop) waiting).mpr rfl
  obtain ⟨opened, enough⟩ := (boundedQueue_no_lost_wakeup _ _ _ ran free).1 1 parked
  exact ⟨state, trace, ran, parked, count, opened, count.ge.trans enough⟩

end Ostep.BoundedQueue
