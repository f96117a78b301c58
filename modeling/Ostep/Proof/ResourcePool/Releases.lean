import Ostep.Proof.ResourcePool.Table

namespace Ostep.ResourcePool

open Library

variable {pool after : Pool} {call : Call} {results : List Result} {id : Word}

/-- The mutex is free, and each unused slot has its permit. -/
structure Counted (pool : Pool) : Prop where
  distinct : Function.Injective pool.ids
  free : pool.mutexFree = true
  permits : pool.available = unused pool

/-- The empty pool has a permit for every slot. -/
theorem emptyPool_counted {ids : Slot → Word} (distinct : Function.Injective ids) : Counted (emptyPool ids) where
  distinct := distinct
  free := rfl
  permits := by
    have all := used_add_unused (emptyPool ids)
    rw [used_emptyPool, Nat.zero_add] at all
    exact all.symm

/-- The calls that complete on a counted pool. -/
inductive Completes (pool : Pool) : Call → Pool → List Result → Prop where
  | refused (closed : pool.closed = true) (permit : 0 < pool.available) : Completes pool .acquire pool [.code (-2)]
  | acquired {i : Slot} (permit : 0 < pool.available) (idle : pool.inUse i = false) :
      Completes pool .acquire
        { pool with available := pool.available - 1, inUse := Function.update pool.inUse i true }
        [.acquired (pool.ids i)]
  | released {i : Slot} :
      Completes pool (.release (pool.ids i))
        { pool with available := pool.available + 1, inUse := Function.update pool.inUse i false } [.code 0]
  | unknown {id : Word} (missing : ∀ i, pool.ids i ≠ id) :
      Completes pool (.release id) { pool with mutexFree := false } [.code (-1)]
  | close : Completes pool .close { pool with closed := true } []

/-- A wait followed by a post leaves the permits. -/
theorem semPost_taken (permit : 0 < pool.available) :
    semPost { pool with available := pool.available - 1 } = pool := by
  rw [semPost, Nat.sub_add_cancel permit]

/-- On a counted pool these are the calls that complete. -/
theorem Counted.completes (counted : Counted pool) (stepped : calls.step pool call = some (after, results)) :
    Completes pool call after results := by
  cases call with
  | acquire =>
      obtain ⟨⟨final, result⟩, done, same⟩ := Option.map_eq_some_iff.mp stepped
      cases same
      simp only [rpAcquire, semWait, Option.bind_eq_some_iff, Option.ite_none_right_eq_some] at done
      obtain ⟨taken, ⟨permit, same⟩, -, done⟩ := done
      cases same
      cases closed : pool.closed with
      | true =>
          have shut : ({ pool with available := pool.available - 1 } : Pool).closed = true := closed
          rw [acquireSection_closed shut] at done
          cases done
          rw [semPost_taken permit]
          exact .refused closed permit
      | false =>
          have room : used pool < rpCap := by
            have permits := counted.permits
            have all := used_add_unused pool
            omega
          obtain ⟨i, found⟩ := exists_findFree (exists_unused room)
          have opened : ({ pool with available := pool.available - 1 } : Pool).closed = false := closed
          rw [acquireSection_found opened found] at done
          cases done
          exact .acquired permit (inUse_of_findFree found)
  | release id =>
      obtain ⟨⟨final, result⟩, done, same⟩ := Option.map_eq_some_iff.mp stepped
      cases same
      simp only [rpRelease, counted.free, if_true] at done
      cases found : findId pool id with
      | none =>
          rw [releaseSection_unknown found] at done
          cases done
          refine .unknown fun i known => ?_
          obtain ⟨j, other⟩ := exists_findId ⟨i, known⟩
          cases found.symm.trans other
      | some i =>
          rw [releaseSection_found found] at done
          cases done
          rw [← ids_of_findId found]
          exact .released
  | close =>
      obtain ⟨final, done, same⟩ := Option.map_eq_some_iff.mp stepped
      cases same
      simp only [rpClose, counted.free, if_true] at done
      cases done
      exact .close

/-- With distinct ids the id of a slot is in use exactly when its slot is. -/
theorem Counted.inUse_iff (counted : Counted pool) (i : Slot) : InUse pool (pool.ids i) ↔ pool.inUse i = true := by
  constructor
  · rintro ⟨j, same, mark⟩
    rwa [← counted.distinct same]
  · exact fun mark => ⟨i, rfl, mark⟩

/-- A call that releases no unused id keeps the pool counted. -/
theorem Counted.step (counted : Counted pool) (conforms : ReleasesInUse pool call)
    (stepped : calls.step pool call = some (after, results)) : Counted after := by
  have permits := counted.permits
  cases counted.completes stepped with
  | refused closed permit => exact counted
  | @acquired i permit idle =>
      refine ⟨counted.distinct, counted.free, ?_⟩
      have change := unused_update pool i true
      rw [idle] at change
      exact Nat.sub_eq_of_eq_add (permits.trans change.symm)
  | @released i =>
      refine ⟨counted.distinct, counted.free, ?_⟩
      have change := unused_update pool i false
      rw [(counted.inUse_iff i).mp conforms] at change
      exact (congrArg (· + 1) permits).trans change.symm
  | unknown missing =>
      obtain ⟨i, known, -⟩ := conforms
      exact absurd known (missing i)
  | close => exact ⟨counted.distinct, counted.free, permits⟩

/-- A call that releases no unused id conforms. -/
theorem Counted.callConforms (counted : Counted pool) (conforms : ReleasesInUse pool call) :
    CallConforms pool call := by
  intro after results stepped
  have kept := counted.step conforms stepped
  refine ⟨kept.free, kept.permits, fun id same unused => ?_, fun id member => ?_⟩
  · subst same
    exact absurd conforms unused
  · cases counted.completes stepped with
    | @acquired i permit idle =>
        cases List.mem_singleton.mp member
        rw [counted.inUse_iff, idle]
        exact Bool.false_ne_true
    | refused closed permit => cases List.mem_singleton.mp member
    | released => cases List.mem_singleton.mp member
    | unknown missing => cases List.mem_singleton.mp member
    | close => cases member

/-- A release completes. It keeps the mutex or posts a permit, whether or not the id is in use. -/
theorem Counted.release (counted : Counted pool) (id : Word) :
    ∃ after results, calls.step pool (.release id) = some (after, results) ∧
      (after.mutexFree = false ∨ after.available = pool.available + 1) := by
  cases found : findId pool id with
  | none =>
      refine ⟨{ pool with mutexFree := false }, [.code (-1)], ?_, Or.inl rfl⟩
      simp only [calls, rpRelease, counted.free, if_true, releaseSection_unknown found, Option.map_some]
  | some i =>
      refine ⟨semPost { pool with inUse := Function.update pool.inUse i false }, [.code 0], ?_, Or.inr rfl⟩
      simp only [calls, rpRelease, counted.free, if_true, releaseSection_found found, Option.map_some]

/-- A conforming call releases no unused id. -/
theorem Counted.releasesInUse (counted : Counted pool) (conforms : CallConforms pool call) :
    ReleasesInUse pool call := by
  cases call with
  | acquire => trivial
  | close => trivial
  | release id =>
      by_contra idle
      obtain ⟨after, results, stepped, locked | posted⟩ := counted.release id
      · cases (conforms after results stepped).1.symm.trans locked
      · have kept := ((conforms after results stepped).2.2.1 id rfl idle).1
        omega

section Alone

variable {Thread : Type} [DecidableEq Thread] {thread : Thread} {state : State Thread}

/-- The thread can run alone to this pool. It ends outside of all calls and acquires the ids of the results. -/
def Alone (state : State Thread) (thread : Thread) (after : Pool) (results : List Result) : Prop :=
  ∃ schedule client trace, machine.run state schedule =
      some (⟨after, Function.update state.threads thread client⟩, trace) ∧
    client.pc = .outside ∧ ∀ id, .acquired id ∈ results ↔ .acquired thread id ∈ trace

/-- A thread that runs alone starts a call. -/
theorem enter_alone (outside : (state.threads thread).pc = .outside) (first : Pc) (failed : List (Event Thread)) :
    enter state thread true first failed =
      some (⟨state.pool, Function.update state.threads thread ⟨first, (state.threads thread).held⟩⟩, []) :=
  if_pos outside

/-- A thread takes its next step on a pool that the other threads do not change. -/
theorem go_step {before after : Pool} {client next : Client} {events : List (Event Thread)}
    (accessed : access before thread client = some (after, next, events)) (threads : Thread → Client)
    (current : threads thread = client) :
    machine.step ⟨before, threads⟩ (.go thread) = some (⟨after, Function.update threads thread next⟩, events) := by
  simp only [machine, current, accessed, Option.map_some]

theorem acquire_alone {result : Result} (outside : (state.threads thread).pc = .outside)
    (done : rpAcquire state.pool = some (after, result)) : Alone state thread after [result] := by
  simp only [rpAcquire, Option.bind_eq_some_iff, Option.ite_none_right_eq_some] at done
  obtain ⟨taken, permit, free, done⟩ := done
  have waited (held : List Word) :
      access state.pool thread ⟨.waitPermit, held⟩ = some (taken, ⟨.lockAcquire, held⟩, []) := by
    simp only [access, permit, Option.map_some]
  split at done
  · next marked id acquired =>
      cases done
      have given (held : List Word) : access taken thread ⟨.lockAcquire, held⟩ =
          some (after, ⟨.outside, id :: held⟩, [.acquired thread id, .returned thread 0]) := by
        simp only [access, free, if_true, acquired]
      exact ⟨[.acquire thread true, .go thread, .go thread], _, _,
        machine.run_cons_eq_some.mpr ⟨_, _, _, enter_alone outside .waitPermit _,
          machine.run_update (go_step (waited _)) <| machine.run_update (go_step (given _)) <|
            machine.run_nil _, rfl⟩, rfl, by simp⟩
  · next marked acquired =>
      cases done
      have refused (held : List Word) : access taken thread ⟨.lockAcquire, held⟩ =
          some (marked, ⟨.giveBack, held⟩, [.refused thread]) := by
        simp only [access, free, if_true, acquired]
      exact ⟨[.acquire thread true, .go thread, .go thread, .go thread], _, _,
        machine.run_cons_eq_some.mpr ⟨_, _, _, enter_alone outside .waitPermit _,
          machine.run_update (go_step (waited _)) <| machine.run_update (go_step (refused _)) <|
            machine.run_update (go_step rfl) <| machine.run_nil _, rfl⟩, rfl, by simp⟩

theorem release_alone {result : Result} (outside : (state.threads thread).pc = .outside)
    (done : rpRelease state.pool id = some (after, result)) :
    Alone state thread after [result] := by
  simp only [rpRelease, Option.ite_none_right_eq_some] at done
  obtain ⟨free, done⟩ := done
  split at done
  · next cleared released =>
      cases done
      have found (held : List Word) : access state.pool thread ⟨.lockRelease id, held⟩ =
          some (cleared, ⟨.postPermit, held.filter (· ≠ id)⟩, [.released thread id]) := by
        simp only [access, free, if_true, released]
      exact ⟨[.release thread true id, .go thread, .go thread], _, _,
        machine.run_cons_eq_some.mpr ⟨_, _, _, enter_alone outside (.lockRelease id) _,
          machine.run_update (go_step (found _)) <| machine.run_update (go_step rfl) <|
            machine.run_nil _, rfl⟩, rfl, by simp⟩
  · next cleared released =>
      cases done
      have missed (held : List Word) : access state.pool thread ⟨.lockRelease id, held⟩ =
          some (after, ⟨.outside, held⟩, [.returned thread (-1)]) := by
        simp only [access, free, if_true, released]
      exact ⟨[.release thread true id, .go thread], _, _,
        machine.run_cons_eq_some.mpr ⟨_, _, _, enter_alone outside (.lockRelease id) _,
          machine.run_update (go_step (missed _)) <| machine.run_nil _, rfl⟩, rfl, by simp⟩

theorem close_alone (outside : (state.threads thread).pc = .outside) (done : rpClose state.pool = some after) :
    Alone state thread after [] := by
  obtain ⟨free, same⟩ := Option.ite_none_right_eq_some.mp done
  cases same
  have closed (held : List Word) : access state.pool thread ⟨.lockClose, held⟩ =
      some (closeSection state.pool, ⟨.outside, held⟩, [.closed thread]) := if_pos free
  exact ⟨[.close thread true, .go thread], _, _,
    machine.run_cons_eq_some.mpr ⟨_, _, _, enter_alone outside .lockClose _,
      machine.run_update (go_step (closed _)) <| machine.run_nil _, rfl⟩, rfl, by simp⟩

/-- A thread that runs alone completes a call as the sequential pool does. -/
theorem call_alone (outside : (state.threads thread).pc = .outside)
    (stepped : calls.step state.pool call = some (after, results)) : Alone state thread after results := by
  cases call with
  | acquire =>
      obtain ⟨⟨final, result⟩, done, same⟩ := Option.map_eq_some_iff.mp stepped
      cases same
      exact acquire_alone outside done
  | release id =>
      obtain ⟨⟨final, result⟩, done, same⟩ := Option.map_eq_some_iff.mp stepped
      cases same
      exact release_alone outside done
  | close =>
      obtain ⟨final, done, same⟩ := Option.map_eq_some_iff.mp stepped
      cases same
      exact close_alone outside done

/-- A thread that runs alone completes every sequence of calls as the sequential pool does. -/
theorem calls_alone {sequence : List Call} (outside : (state.threads thread).pc = .outside)
    (ran : calls.run state.pool sequence = some (after, results)) : Alone state thread after results := by
  induction sequence generalizing state results with
  | nil =>
      cases ran
      refine ⟨[], state.threads thread, [], ?_, outside, by simp⟩
      rw [Function.update_eq_self]
      rfl
  | cons call rest ih =>
      obtain ⟨next, first, later, stepped, continued, rfl⟩ := calls.run_cons_eq_some.mp ran
      obtain ⟨schedule, client, early, began, back, same⟩ := call_alone outside stepped
      let middle : State Thread := ⟨next, Function.update state.threads thread client⟩
      have again : (middle.threads thread).pc = .outside := by
        dsimp only [middle]
        rw [Function.update_self, back]
      obtain ⟨others, final, late, ends, last, follow⟩ := ih again continued
      dsimp only [middle] at ends
      rw [Function.update_idem] at ends
      refine ⟨schedule ++ others, final, early ++ late, machine.run_append began ends, last, fun id => ?_⟩
      rw [List.mem_append, List.mem_append, same id, follow id]

end Alone

/-- A sequence of calls keeps the mutex, the permits and the table in step
exactly when it releases only ids that are in use. -/
theorem resourcePool_releases_iff (ids : Slot → Word) (distinct : Function.Injective ids) (sequence : List Call) :
    calls.Along CallConforms (emptyPool ids) sequence ↔ calls.Along ReleasesInUse (emptyPool ids) sequence := by
  constructor
  · exact calls.along_of_along Counted
      (fun _ _ _ _ counted _ inUse stepped => counted.step inUse stepped)
      (fun _ _ counted conforms => counted.releasesInUse conforms) (emptyPool_counted distinct)
  · exact calls.along_of_along Counted
      (fun _ _ _ _ counted inUse _ stepped => counted.step inUse stepped)
      (fun _ _ counted inUse => counted.callConforms inUse) (emptyPool_counted distinct)

/-- A release of the acquired id conforms, and so does the acquire after it. -/
theorem resourcePool_good_release :
    calls.Along CallConforms (emptyPool exampleIds) [.acquire, .release 10, .acquire, .close] :=
  (resourcePool_releases_iff _ exampleIds_injective _).mpr (by decide +kernel)

/-- A release of an unknown id leaves the mutex locked, and no further call completes.
A release of an unused id adds a ninth permit, and one of nine acquires gives an id that is in use. -/
theorem resourcePool_bad_releases :
    (∃ pool results, calls.run (emptyPool exampleIds) [.release 99] = some (pool, results) ∧
      pool.mutexFree = false ∧ ∀ call, calls.step pool call = none) ∧
    (∃ pool results,
      calls.run (emptyPool exampleIds) (.release 10 :: List.replicate 9 .acquire) = some (pool, results) ∧
      results.count (.acquired 10) = 2) ∧
    ¬calls.Along CallConforms (emptyPool exampleIds) [.release 99] ∧
    ¬calls.Along CallConforms (emptyPool exampleIds) [.release 10] := by
  have counted := emptyPool_counted exampleIds_injective
  refine ⟨⟨_, _, rfl, rfl, fun call => ?_⟩, ?_, fun conforms => ?_, fun conforms => ?_⟩
  · cases call <;> rfl
  · have twice : (calls.run (emptyPool exampleIds) (.release 10 :: List.replicate 9 .acquire)).map
        (fun result => result.2.count (.acquired 10)) = some 2 := by
      decide +kernel
    obtain ⟨⟨pool, results⟩, ran, count⟩ := Option.map_eq_some_iff.mp twice
    exact ⟨pool, results, ran, count⟩
  · exact absurd (counted.releasesInUse conforms.1) (by decide)
  · exact absurd (counted.releasesInUse conforms.1) (by decide)

end Ostep.ResourcePool
