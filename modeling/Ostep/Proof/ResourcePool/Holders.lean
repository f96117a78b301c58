import Ostep.Library.History
import Ostep.Library.Mutex
import Ostep.Proof.ResourcePool.Table

namespace Ostep.ResourcePool

open Library Library.Count Library.History Library.Mutex

variable {Thread : Type}

/-- The steps of a thread inside a call, with their guards. -/
inductive Access (pool : Pool) (thread : Thread) (held : List Word) :
    Pc → Pool → Client → List (Event Thread) → Prop where
  | wait (permit : 0 < pool.available) :
      Access pool thread held .waitPermit { pool with available := pool.available - 1 } ⟨.lockAcquire, held⟩ []
  | acquire {i : Slot} (opened : pool.closed = false) (found : findFree pool = some i) :
      Access pool thread held .lockAcquire { pool with inUse := Function.update pool.inUse i true }
        ⟨.outside, pool.ids i :: held⟩ [.acquired thread (pool.ids i), .returned thread 0]
  | fallThrough (opened : pool.closed = false) (full : findFree pool = none) :
      Access pool thread held .lockAcquire pool ⟨.outside, pool.ids 0 :: held⟩
        [.acquired thread (pool.ids 0), .returned thread 0]
  | refuse (closed : pool.closed = true) :
      Access pool thread held .lockAcquire pool ⟨.giveBack, held⟩ [.refused thread]
  | giveBack : Access pool thread held .giveBack (semPost pool) ⟨.outside, held⟩ [.returned thread (-2)]
  | release {id : Word} {i : Slot} (found : findId pool id = some i) :
      Access pool thread held (.lockRelease id) { pool with inUse := Function.update pool.inUse i false }
        ⟨.postPermit, held.filter (· ≠ id)⟩ [.released thread id]
  | unknown {id : Word} (missing : findId pool id = none) :
      Access pool thread held (.lockRelease id) { pool with mutexFree := false } ⟨.outside, held⟩
        [.returned thread (-1)]
  | post : Access pool thread held .postPermit (semPost pool) ⟨.outside, held⟩ [.returned thread 0]
  | close : Access pool thread held .lockClose (closeSection pool) ⟨.outside, held⟩ [.closed thread]

theorem access_cases {pool after : Pool} {thread : Thread} {client next : Client} {events : List (Event Thread)}
    (accessed : access pool thread client = some (after, next, events)) :
    Access pool thread client.held client.pc after next events := by
  rcases client with ⟨pc, held⟩
  cases pc with
  | outside => cases accessed
  | waitPermit =>
      simp only [access, semWait, Option.map_eq_some_iff, Option.ite_none_right_eq_some] at accessed
      obtain ⟨_, ⟨permit, taken⟩, same⟩ := accessed
      cases taken
      cases same
      exact .wait permit
  | lockAcquire =>
      simp only [access, Option.ite_none_right_eq_some] at accessed
      obtain ⟨-, accessed⟩ := accessed
      cases closed : pool.closed with
      | true =>
          rw [acquireSection_closed closed] at accessed
          cases accessed
          exact .refuse closed
      | false =>
          cases found : findFree pool with
          | none =>
              rw [acquireSection_full closed found] at accessed
              cases accessed
              exact .fallThrough closed found
          | some i =>
              rw [acquireSection_found closed found] at accessed
              cases accessed
              exact .acquire closed found
  | giveBack =>
      cases accessed
      exact .giveBack
  | lockRelease id =>
      simp only [access, Option.ite_none_right_eq_some] at accessed
      obtain ⟨-, accessed⟩ := accessed
      cases found : findId pool id with
      | none =>
          rw [releaseSection_unknown found] at accessed
          cases accessed
          exact .unknown found
      | some i =>
          rw [releaseSection_found found] at accessed
          cases accessed
          exact .release found
  | postPermit =>
      cases accessed
      exact .post
  | lockClose =>
      simp only [access, Option.ite_none_right_eq_some] at accessed
      obtain ⟨-, same⟩ := accessed
      cases same
      exact .close

variable {state : State Thread} {thread : Thread}

/-- No acquire succeeds after the pool is closed. -/
structure Logged (history : List (Event Thread)) (pool : Pool) : Prop where
  closed : (∃ thread, .closed thread ∈ history) → pool.closed = true
  late : Always (fun before event => (∃ thread, .closed thread ∈ before) →
    ∀ thread id, event ≠ .acquired thread id) history

/-- An event that neither closes the pool nor acquires an id. -/
theorem Logged.pass {history : List (Event Thread)} {pool after : Pool} (logged : Logged history pool)
    {event : Event Thread} (closes : ∀ thread, event ≠ .closed thread)
    (acquires : ∀ thread id, event ≠ .acquired thread id) (same : after.closed = pool.closed) :
    Logged (history ++ [event]) after := by
  refine ⟨?_, logged.late.append fun _ => acquires⟩
  rintro ⟨thread, member⟩
  rw [same]
  rcases List.mem_append.mp member with earlier | last
  · exact logged.closed ⟨thread, earlier⟩
  · exact absurd (List.mem_singleton.mp last).symm (closes thread)

/-- Each step inside a call keeps the log. -/
theorem Logged.access {history events : List (Event Thread)} {pool after : Pool} (logged : Logged history pool)
    {held : List Word} {pc : Pc} {client : Client} (moved : Access pool thread held pc after client events) :
    Logged (history ++ events) after := by
  have acquired (opened : pool.closed = false) (id : Word) : Logged (history ++ [Event.acquired thread id]) pool := by
    have never : ¬∃ thread, .closed thread ∈ history := fun closed => by
      rw [logged.closed closed] at opened
      cases opened
    refine ⟨?_, logged.late.append fun closed => absurd closed never⟩
    rintro ⟨other, member⟩
    rcases List.mem_append.mp member with earlier | last
    · exact absurd ⟨other, earlier⟩ never
    · cases List.mem_singleton.mp last
  cases moved with
  | wait permit =>
      rw [List.append_nil]
      exact ⟨logged.closed, logged.late⟩
  | @acquire i opened found =>
      rw [← List.singleton_append, ← List.append_assoc]
      exact (acquired opened _).pass nofun nofun rfl
  | fallThrough opened full =>
      rw [← List.singleton_append, ← List.append_assoc]
      exact (acquired opened _).pass nofun nofun rfl
  | refuse closed => exact logged.pass nofun nofun rfl
  | giveBack => exact logged.pass nofun nofun rfl
  | release found => exact logged.pass nofun nofun rfl
  | unknown missing => exact logged.pass nofun nofun rfl
  | post => exact logged.pass nofun nofun rfl
  | close => exact ⟨fun _ => rfl, logged.late.append fun _ => nofun⟩

section Enter

variable [DecidableEq Thread]

/-- A call starts, or it ends at once with a null pointer. -/
theorem enter_cases {nonNull : Bool} {first : Pc} {failed events : List (Event Thread)} {next : State Thread}
    (entered : enter state thread nonNull first failed = some (next, events)) :
    (state.threads thread).pc = .outside ∧
    (next = { state with threads := Function.update state.threads thread { state.threads thread with pc := first } } ∧
        events = [] ∨ next = state ∧ events = failed) := by
  unfold enter at entered
  split at entered
  · next outside =>
      split at entered
      · cases entered
        exact ⟨outside, Or.inl ⟨rfl, rfl⟩⟩
      · cases entered
        exact ⟨outside, Or.inr ⟨rfl, rfl⟩⟩
  · cases entered

/-- A call that starts or fails keeps the log. -/
theorem Logged.enter {history events failed : List (Event Thread)} {nonNull : Bool} {first : Pc} {next : State Thread}
    (logged : Logged history state.pool) (failing : failed = [] ∨ failed = [.returned thread (-1)])
    (entered : ResourcePool.enter state thread nonNull first failed = some (next, events)) :
    Logged (history ++ events) next.pool := by
  obtain ⟨-, ⟨rfl, rfl⟩ | ⟨rfl, rfl⟩⟩ := enter_cases entered
  · rwa [List.append_nil]
  · rcases failing with rfl | rfl
    · rwa [List.append_nil]
    · exact logged.pass nofun nofun rfl

/-- Each step keeps the log. -/
theorem Logged.step {history events : List (Event Thread)} (logged : Logged history state.pool)
    {action : Action Thread} {next : State Thread} (stepped : machine.step state action = some (next, events)) :
    Logged (history ++ events) next.pool := by
  cases action with
  | acquire thread nonNull => exact logged.enter (Or.inr rfl) stepped
  | release thread nonNull id => exact logged.enter (Or.inr rfl) stepped
  | close thread nonNull => exact logged.enter (Or.inl rfl) stepped
  | go thread =>
      obtain ⟨⟨pool, client, emitted⟩, accessed, same⟩ := Option.map_eq_some_iff.mp stepped
      cases same
      exact logged.access (access_cases accessed)

end Enter

/-- A thread that releases an id holds it. -/
def Client.Sound (client : Client) : Prop := ∀ id, client.pc = .lockRelease id → id ∈ client.held

/-- The ids that the threads hold. -/
def State.held (state : State Thread) (thread : Thread) : List Word := (state.threads thread).held

theorem held_update [DecidableEq Thread] (state : State Thread) (pool : Pool) (thread : Thread) (client : Client) :
    State.held ⟨pool, Function.update state.threads thread client⟩ =
      Function.update state.held thread client.held :=
  Function.comp_update Client.held state.threads thread client

/-- Each used slot has one owner, and every permit is accounted for. -/
structure Holds [Fintype Thread] (owner : Word → Option Thread) (state : State Thread) : Prop where
  distinct : Function.Injective state.pool.ids
  free : state.pool.mutexFree = true
  owns : Owns owner state.held
  marks : ∀ i, state.pool.inUse i = (owner (state.pool.ids i)).isSome
  known : ∀ id thread, owner id = some thread → ∃ i, state.pool.ids i = id
  permits : state.pool.available + used state.pool + total Client.pending state.threads = rpCap
  sound : ∀ thread, (state.threads thread).Sound

variable [Fintype Thread]

/-- Nothing is held at the start. -/
theorem initial_holds {ids : Slot → Word} (distinct : Function.Injective ids) :
    Holds (fun _ => none) (initial ids : State Thread) where
  distinct := distinct
  free := rfl
  owns _ _ := iff_of_false nofun List.not_mem_nil
  marks _ := rfl
  known := nofun
  permits := by
    change rpCap + used (emptyPool ids) + total Client.pending _ = rpCap
    rw [used_emptyPool]
    exact congrArg (rpCap + 0 + ·) (total_eq_zero fun _ => rfl)
  sound _ := nofun

variable {owner : Word → Option Thread}

/-- An acquire that reaches its scan finds an unused slot. -/
theorem Holds.findFree_ne_none (holds : Holds owner state) (scanning : (state.threads thread).pc = .lockAcquire) :
    ∃ i, findFree state.pool = some i := by
  apply exists_findFree
  apply exists_unused
  have one := le_total Client.pending state.threads thread
  have mine : (state.threads thread).pending = 1 := by rw [Client.pending, scanning]
  have permits := holds.permits
  omega

variable [DecidableEq Thread]

/-- A step that keeps the table and the held ids moves permits only. -/
theorem Holds.move (holds : Holds owner state) {old : Client} (current : state.threads thread = old)
    (available : Nat) (closed : Bool) {client : Client} (held : client.held = old.held)
    (permits : available + client.pending = state.pool.available + old.pending) (sound : client.Sound) :
    Holds owner ⟨{ state.pool with available, closed }, Function.update state.threads thread client⟩ := by
  subst current
  have pendingTotal := total_update Client.pending state.threads thread client
  have balance := holds.permits
  refine ⟨holds.distinct, holds.free, ?_, holds.marks, holds.known, ?_, ?_⟩
  · rw [held_update]
    exact holds.owns.keep held
  · change available + used state.pool + _ = rpCap
    dsimp only
    omega
  · exact (Function.forall_update_iff state.threads fun _ client => client.Sound).mpr
      ⟨sound, fun other _ => holds.sound other⟩

/-- A step that changes the owner of a slot marks the slot, and exchanges its permit. -/
theorem Holds.mark (holds : Holds owner state) {old : Client} (current : state.threads thread = old)
    (i : Slot) (holder : Option Thread) {client : Client}
    (owns : Owns (Function.update owner (state.pool.ids i) holder) (Function.update state.held thread client.held))
    (permits : holder.isSome.toNat + client.pending = (state.pool.inUse i).toNat + old.pending)
    (sound : client.Sound) :
    Holds (Function.update owner (state.pool.ids i) holder)
      ⟨{ state.pool with inUse := Function.update state.pool.inUse i holder.isSome },
        Function.update state.threads thread client⟩ := by
  subst current
  have pendingTotal := total_update Client.pending state.threads thread client
  have usedTotal := used_update state.pool i holder.isSome
  have balance := holds.permits
  refine ⟨holds.distinct, holds.free, ?_, fun j => ?_, fun id other held => ?_, ?_, ?_⟩
  · rw [held_update]
    exact owns
  · dsimp only
    by_cases same : j = i
    · subst same
      rw [Function.update_self, Function.update_self]
    · rw [Function.update_of_ne same, Function.update_of_ne fun equal => same (holds.distinct equal)]
      exact holds.marks j
  · by_cases same : id = state.pool.ids i
    · exact ⟨i, same.symm⟩
    · rw [Function.update_of_ne same] at held
      exact holds.known id other held
  · dsimp only at usedTotal ⊢
    omega
  · exact (Function.forall_update_iff state.threads fun _ client => client.Sound).mpr
      ⟨sound, fun other _ => holds.sound other⟩

/-- Each step inside a call keeps the accounts. The mutex stays free, and no scan falls through. -/
theorem Holds.access (holds : Holds owner state) {pc : Pc} {held : List Word}
    (current : state.threads thread = ⟨pc, held⟩) {pool : Pool} {client : Client} {events : List (Event Thread)}
    (moved : Access state.pool thread held pc pool client events) :
    ∃ owner', Holds owner' ⟨pool, Function.update state.threads thread client⟩ := by
  have mine : state.held thread = held := congrArg Client.held current
  have sound := holds.sound thread
  rw [current] at sound
  cases moved with
  | wait permit => exact ⟨owner, holds.move current _ _ rfl (Nat.sub_add_cancel permit) nofun⟩
  | @acquire i opened found =>
      have idle := inUse_of_findFree found
      have vacant : owner (state.pool.ids i) = none := by
        rw [holds.marks i, Option.isSome_eq_false_iff, Option.isNone_iff_eq_none] at idle
        exact idle
      refine ⟨_, holds.mark current i (some thread) (holds.owns.take vacant fun _ => ?_) ?_ nofun⟩
      · rw [mine]
        exact List.mem_cons
      · rw [idle]
        rfl
  | fallThrough opened full =>
      obtain ⟨i, found⟩ := holds.findFree_ne_none (congrArg Client.pc current)
      cases full.symm.trans found
  | refuse closed => exact ⟨owner, holds.move current _ _ rfl rfl nofun⟩
  | giveBack => exact ⟨owner, holds.move current _ _ rfl rfl nofun⟩
  | @release id i found =>
      have same := ids_of_findId found
      have owned : owner id = some thread := (holds.owns id thread).mpr (mine ▸ sound id rfl)
      subst same
      refine ⟨_, holds.mark current i none (holds.owns.release (mine ▸ sound _ rfl) fun other => ?_) ?_ nofun⟩
      · rw [mine, List.mem_filter, decide_eq_true_eq, and_comm]
      · rw [holds.marks i, owned]
        rfl
  | @unknown id missing =>
      have owned : owner id = some thread := (holds.owns id thread).mpr (mine ▸ sound id rfl)
      obtain ⟨i, found⟩ := exists_findId (holds.known id thread owned)
      cases missing.symm.trans found
  | post => exact ⟨owner, holds.move current _ _ rfl rfl nofun⟩
  | close => exact ⟨owner, holds.move current _ _ rfl rfl nofun⟩

/-- A thread that starts a call keeps the accounts. -/
theorem Holds.enter (holds : Holds owner state) {nonNull : Bool} {first : Pc} {failed events : List (Event Thread)}
    {next : State Thread} (entered : ResourcePool.enter state thread nonNull first failed = some (next, events))
    (idle : Client.pending ⟨first, state.held thread⟩ = 0)
    (sound : ∀ id, first = .lockRelease id → id ∈ state.held thread) : Holds owner next := by
  obtain ⟨outside, ⟨rfl, -⟩ | ⟨rfl, -⟩⟩ := enter_cases entered
  · have before : (state.threads thread).pending = 0 := by rw [Client.pending, outside]
    exact holds.move rfl _ _ rfl (congrArg (state.pool.available + ·) (idle.trans before.symm)) sound
  · exact holds

/-- Each conforming step keeps the accounts. -/
theorem Holds.step (holds : Holds owner state) {action : Action Thread} (conforms : ReleasesHeld state action)
    {next : State Thread} {events : List (Event Thread)} (stepped : machine.step state action = some (next, events)) :
    ∃ owner', Holds owner' next := by
  cases action with
  | acquire thread nonNull => exact ⟨owner, holds.enter stepped rfl nofun⟩
  | release thread nonNull id =>
      refine ⟨owner, holds.enter stepped rfl fun other same => ?_⟩
      cases same
      exact conforms
  | close thread nonNull => exact ⟨owner, holds.enter stepped rfl nofun⟩
  | go thread =>
      obtain ⟨⟨pool, client, emitted⟩, accessed, same⟩ := Option.map_eq_some_iff.mp stepped
      cases same
      exact holds.access rfl (access_cases accessed)

/-- If threads release only ids that they hold, no id is held by two threads, every scan of an open pool finds
an unused slot, the permits add up to the capacity, and no acquire succeeds after the pool is closed. -/
theorem resourcePool_exclusive (ids : Slot → Word) (distinct : Function.Injective ids)
    (schedule : List (Action Thread)) (trace : List (Event Thread))
    (conforming : machine.Along ReleasesHeld (initial ids) schedule)
    (ran : machine.run (initial ids) schedule = some (state, trace)) :
    (∀ id first second, id ∈ (state.threads first).held → id ∈ (state.threads second).held → first = second) ∧
    (∀ thread, (state.threads thread).pc = .lockAcquire → state.pool.closed = false →
      ∃ i, findFree state.pool = some i ∧ state.pool.inUse i = false) ∧
    state.pool.available + used state.pool + total Client.pending state.threads = rpCap ∧
    Always (fun before event => (∃ thread, .closed thread ∈ before) →
      ∀ thread id, event ≠ .acquired thread id) trace := by
  obtain ⟨⟨owner, holds⟩, logged⟩ := machine.run_invariant_along ReleasesHeld
    (fun _ past state => (∃ owner, Holds owner state) ∧ Logged past state.pool)
    (fun _ _ _ _ _ _ ⟨⟨_, holds⟩, logged⟩ conforms stepped => ⟨holds.step conforms stepped, logged.step stepped⟩)
    ⟨⟨_, initial_holds distinct⟩, nofun, always_nil⟩ conforming ran
  refine ⟨fun id first second => holds.owns.unique, fun thread scanning _ => ?_, holds.permits, logged.late⟩
  obtain ⟨i, found⟩ := holds.findFree_ne_none scanning
  exact ⟨i, found, inUse_of_findFree found⟩

/-- Two threads acquire, one of them releases its id, and it is refused after the other one closes the pool. -/
def acquireAfterClose {Thread : Type} (first second : Thread) : List (Action Thread) :=
  [.acquire first true, .acquire second true, .go first, .go second, .go second, .go first,
    .release first true 11, .go first, .go first, .acquire first true, .go first,
    .close second true, .go second, .go first]

/-- The refused thread has not given its permit back, and the other thread alone holds its id. -/
theorem resourcePool_acquire_after_close :
    ∃ state trace, machine.run (initial exampleIds) (acquireAfterClose (0 : Fin 2) 1) = some (state, trace) ∧
      .refused 0 ∈ trace ∧ (∀ thread, 10 ∈ (state.threads thread).held → thread = 1) ∧
      state.pool.available + used state.pool + total Client.pending state.threads = rpCap := by
  have conforming : machine.Along ReleasesHeld (initial exampleIds) (acquireAfterClose (0 : Fin 2) 1) := by
    decide +kernel
  have refused : (machine.run (initial exampleIds) (acquireAfterClose (0 : Fin 2) 1)).map
      (fun result => ((result.1.threads 1).held, decide (.refused 0 ∈ result.2))) = some ([10], true) := by
    decide +kernel
  obtain ⟨⟨state, trace⟩, ran, ended⟩ := Option.map_eq_some_iff.mp refused
  obtain ⟨held, member⟩ := Prod.mk.inj ended
  have mine : 10 ∈ (state.threads 1).held := held ▸ List.mem_singleton_self 10
  obtain ⟨exclusive, -, permits, -⟩ := resourcePool_exclusive _ exampleIds_injective _ _ conforming ran
  exact ⟨state, trace, ran, of_decide_eq_true member, fun thread theirs => exclusive 10 thread 1 theirs mine, permits⟩

end Ostep.ResourcePool
