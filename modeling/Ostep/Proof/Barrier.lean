import Ostep.Library.Count
import Ostep.Library.History
import Ostep.Construction.Barrier

namespace Ostep.Barrier

open Library Library.Count Library.History

/-- The thread holds the inner lock. -/
def Pc.inner : Pc → Nat
  | .readCount | .writeCount _ | .testCount | .postBarrier | .postLock => 1
  | _ => 0

/-- The thread has executed its increment. -/
def Pc.counted : Pc → Nat
  | .waitLock | .readCount | .writeCount _ => 0
  | _ => 1

theorem Pc.counted_le_one (pc : Pc) : pc.counted ≤ 1 := by
  cases pc <;> simp [Pc.counted]

/-- The thread carries the token of the barrier from its wait to its post. -/
def Pc.carries : Pc → Nat
  | .passBarrier => 1
  | _ => 0

/-- What the position of a thread says about the count and about the tokens posted by the last thread. -/
def Pc.Sound (numThreads count posted : Nat) : Pc → Prop
  | .writeCount read => read = count
  | .testCount => posted = 0
  | .postBarrier => count = numThreads ∧ posted = 0
  | .postLock => count = numThreads → posted = 1
  | .returned => posted = 1
  | _ => True

/-- A thread without the inner lock only relies on the token. -/
theorem Pc.sound_of_inner {numThreads count posted count' posted' : Nat} {pc : Pc}
    (sound : pc.Sound numThreads count posted) (outside : pc.inner = 0) (kept : posted = 1 → posted' = 1) :
    pc.Sound numThreads count' posted' := by
  cases pc with
  | writeCount count => cases outside
  | testCount => cases outside
  | postBarrier => cases outside
  | postLock => cases outside
  | returned => exact kept sound
  | _ => trivial

variable {Thread : Type} {thread other : Thread}

/-- A blocked thread waits for a semaphore, or it has returned. -/
theorem blocked_cases {shared : Shared} {pc : Pc} (blocked : access shared thread pc = none) :
    pc = .waitLock ∧ shared.lock = 0 ∨ pc = .waitBarrier ∧ shared.barrier = 0 ∨ pc = .returned := by
  cases pc with
  | waitLock =>
      simp only [access, ite_eq_right_iff, reduceCtorEq, imp_false, Nat.not_lt, Nat.le_zero] at blocked
      exact Or.inl ⟨rfl, blocked⟩
  | waitBarrier =>
      simp only [access, ite_eq_right_iff, reduceCtorEq, imp_false, Nat.not_lt, Nat.le_zero] at blocked
      exact Or.inr (Or.inl ⟨rfl, blocked⟩)
  | returned => exact Or.inr (Or.inr rfl)
  | _ => cases blocked

/-- The increments are logged, and every return comes after all of them. -/
structure Logged (history : List (Event Thread)) (threads : Thread → Pc) : Prop where
  increments : ∀ thread, (threads thread).counted = 1 → .counted thread ∈ history
  order : Always (fun before event => ∀ thread, event = .returned thread → ∀ other, .counted other ∈ before) history

/-- An access without events keeps the log. -/
theorem Logged.silent [DecidableEq Thread] {history : List (Event Thread)} {threads : Thread → Pc}
    (logged : Logged history threads) {old next : Pc} (current : threads thread = old)
    (same : next.counted = old.counted) :
    Logged (history ++ []) (Function.update threads thread next) := by
  rw [List.append_nil]
  refine ⟨?_, logged.order⟩
  refine (Function.forall_update_iff threads fun other pc => pc.counted = 1 → .counted other ∈ history).mpr
    ⟨fun counted => logged.increments thread ?_, fun other _ => logged.increments other⟩
  rw [current, ← same]
  exact counted

variable [Fintype Thread]

/-- The permit of the inner lock and the token of the barrier are always accounted for.
The token is posted when the count is complete. -/
structure Holds (posted : Nat) (state : State Thread) : Prop where
  size : state.shared.numThreads = Fintype.card Thread
  inner : state.shared.lock + total Pc.inner state.threads = 1
  counted : state.shared.count = total Pc.counted state.threads
  token : state.shared.barrier + total Pc.carries state.threads = posted
  complete : 0 < posted → posted = 1 ∧ state.shared.count = state.shared.numThreads
  rest : state.shared.lock = 1 → state.shared.count = state.shared.numThreads → posted = 1
  sound : ∀ thread, (state.threads thread).Sound state.shared.numThreads state.shared.count posted

/-- The accounts balance after the initialisation. -/
theorem barrierInit_holds [Nonempty Thread] : Holds 0 (barrierInit (Fintype.card Thread) : State Thread) where
  size := rfl
  inner := congrArg (1 + ·) (total_eq_zero fun _ => rfl)
  counted := (total_eq_zero fun _ => rfl).symm
  token := congrArg (0 + ·) (total_eq_zero fun _ => rfl)
  complete := nofun
  rest _ := fun none => absurd none.symm Fintype.card_ne_zero
  sound _ := trivial

variable {posted : Nat} {state : State Thread}

/-- A posted token means that every thread is counted. -/
theorem Holds.all_counted (holds : Holds posted state) (some : 0 < posted) (thread : Thread) :
    (state.threads thread).counted = 1 := by
  apply eq_of_total_eq fun other => Pc.counted_le_one (state.threads other)
  rw [← holds.counted, (holds.complete some).2, holds.size, Nat.mul_one]

/-- A carried token has been posted. -/
theorem Holds.posted_of_carries (holds : Holds posted state) (carries : (state.threads thread).carries = 1) :
    0 < posted := by
  have one := le_total Pc.carries state.threads thread
  have token := holds.token
  omega

/-- If no thread can take a step, all threads have returned. -/
theorem Holds.returned_of_stuck (holds : Holds posted state)
    (stuck : ∀ thread, Barrier.access state.shared thread (state.threads thread) = none) (thread : Thread) :
    state.threads thread = .returned := by
  -- Nobody holds the inner lock, so nobody waits for it.
  have outside : total Pc.inner state.threads = 0 := by
    apply total_eq_zero
    intro other
    rcases blocked_cases (stuck other) with ⟨waits, -⟩ | ⟨waits, -⟩ | left
    all_goals simp only [*, Pc.inner]
  have free : state.shared.lock = 1 := by
    have permit := holds.inner
    omega
  have arrived (other : Thread) :
      state.threads other = .waitBarrier ∧ state.shared.barrier = 0 ∨ state.threads other = .returned := by
    rcases blocked_cases (stuck other) with ⟨-, taken⟩ | rest
    · omega
    · exact rest
  -- All threads are counted, and nobody carries the token, so it is in the semaphore.
  have full : state.shared.count = state.shared.numThreads := by
    rw [holds.counted, holds.size, ← Nat.mul_one (Fintype.card Thread)]
    apply total_const
    intro other
    rcases arrived other with ⟨waits, -⟩ | left
    all_goals simp only [*, Pc.counted]
  have uncarried : total Pc.carries state.threads = 0 := by
    apply total_eq_zero
    intro other
    rcases arrived other with ⟨waits, -⟩ | left
    all_goals simp only [*, Pc.carries]
  have token := holds.token
  have posted := holds.rest free full
  rcases arrived thread with ⟨-, empty⟩ | left
  · omega
  · exact left

variable [DecidableEq Thread]

/-- A thread changes the count and the posted tokens only while it holds the inner lock. -/
theorem Holds.update (holds : Holds posted state) {old : Pc} (current : state.threads thread = old) (next : Pc)
    {count lock barrier posted' : Nat} (inner : lock + next.inner = state.shared.lock + old.inner)
    (counted : count + old.counted = state.shared.count + next.counted)
    (token : barrier + next.carries + posted = state.shared.barrier + old.carries + posted')
    (complete : 0 < posted' → posted' = 1 ∧ count = state.shared.numThreads)
    (rest : lock = 1 → count = state.shared.numThreads → posted' = 1)
    (sound : next.Sound state.shared.numThreads count posted')
    (others : count = state.shared.count ∧ posted' = posted ∨ old.inner = 1 ∧ (posted = 1 → posted' = 1)) :
    Holds posted' ⟨⟨count, state.shared.numThreads, lock, barrier⟩, Function.update state.threads thread next⟩ := by
  subst current
  have innerTotal := total_update Pc.inner state.threads thread next
  have countedTotal := total_update Pc.counted state.threads thread next
  have tokenTotal := total_update Pc.carries state.threads thread next
  have permit := holds.inner
  have sum := holds.counted
  have tokens := holds.token
  refine ⟨holds.size, ?_, ?_, ?_, complete, rest, ?_⟩
  · dsimp only
    omega
  · dsimp only
    omega
  · dsimp only
    omega
  · refine (Function.forall_update_iff state.threads
      fun _ pc => pc.Sound state.shared.numThreads count posted').mpr
      ⟨sound, fun other different => ?_⟩
    rcases others with ⟨rfl, rfl⟩ | ⟨holder, kept⟩
    · exact holds.sound other
    · exact Pc.sound_of_inner (holds.sound other) (permit_alone holds.inner different holder) kept

/-- Each access keeps the accounts. -/
theorem Holds.access (holds : Holds posted state) {shared : Shared} {next : Pc} {events : List (Event Thread)}
    (accessed : Barrier.access state.shared thread (state.threads thread) = some (shared, next, events)) :
    ∃ posted', Holds posted' ⟨shared, Function.update state.threads thread next⟩ := by
  have sound := holds.sound thread
  have permit := holds.inner
  have locked (holder : (state.threads thread).inner = 1) : state.shared.lock = 0 := permit_taken holds.inner holder
  have absent (missing : (state.threads thread).counted = 0) : posted = 0 := by
    by_contra some
    have counted := holds.all_counted (Nat.pos_of_ne_zero some) thread
    omega
  generalize current : state.threads thread = pc at accessed sound locked absent
  cases pc with
  | waitLock =>
      simp only [Barrier.access, Option.ite_none_right_eq_some] at accessed
      obtain ⟨free, same⟩ := accessed
      cases same
      have whole : state.shared.lock = 1 := by omega
      refine ⟨posted, holds.update current .readCount ?_ rfl rfl holds.complete ?_ trivial (Or.inl ⟨rfl, rfl⟩)⟩
      · rw [whole]
        rfl
      · intro taken
        rw [whole] at taken
        cases taken
  | readCount =>
      cases accessed
      exact ⟨posted, holds.update current (.writeCount _) rfl rfl rfl holds.complete holds.rest rfl (Or.inl ⟨rfl, rfl⟩)⟩
  | writeCount count =>
      cases accessed
      cases sound
      have none := absent rfl
      subst none
      refine ⟨0, holds.update current .testCount rfl rfl rfl nofun (fun free => ?_) rfl (Or.inr ⟨rfl, id⟩)⟩
      cases (locked rfl).symm.trans free
  | testCount =>
      cases accessed
      have none : posted = 0 := sound
      by_cases last : state.shared.count = state.shared.numThreads
      · rw [if_pos last]
        exact ⟨posted, holds.update current .postBarrier rfl rfl rfl holds.complete holds.rest ⟨last, none⟩
          (Or.inl ⟨rfl, rfl⟩)⟩
      · rw [if_neg last]
        exact ⟨posted, holds.update current .postLock rfl rfl rfl holds.complete holds.rest
          (fun full => absurd full last) (Or.inl ⟨rfl, rfl⟩)⟩
  | postBarrier =>
      cases accessed
      obtain ⟨full, rfl⟩ := sound
      -- The last thread posts the only token.
      exact ⟨1, holds.update current .postLock rfl rfl rfl (fun _ => ⟨rfl, full⟩) (fun _ _ => rfl) (fun _ => rfl)
        (Or.inr ⟨rfl, fun _ => rfl⟩)⟩
  | postLock =>
      cases accessed
      exact ⟨posted, holds.update current .waitBarrier rfl rfl rfl holds.complete (fun _ => sound) trivial
        (Or.inl ⟨rfl, rfl⟩)⟩
  | waitBarrier =>
      simp only [Barrier.access, Option.ite_none_right_eq_some] at accessed
      obtain ⟨free, same⟩ := accessed
      cases same
      refine ⟨posted, holds.update current .passBarrier rfl rfl ?_ holds.complete holds.rest trivial
        (Or.inl ⟨rfl, rfl⟩)⟩
      rw [Pc.carries, Nat.sub_add_cancel free]
      rfl
  | passBarrier =>
      cases accessed
      have some := holds.posted_of_carries (congrArg Pc.carries current)
      exact ⟨posted, holds.update current .returned rfl rfl rfl holds.complete holds.rest (holds.complete some).1
        (Or.inl ⟨rfl, rfl⟩)⟩
  | returned => cases accessed

/-- Each access keeps the log. -/
theorem Logged.access {history events : List (Event Thread)} (logged : Logged history state.threads)
    (holds : Holds posted state) {shared : Shared} {next : Pc}
    (accessed : Barrier.access state.shared thread (state.threads thread) = some (shared, next, events)) :
    Logged (history ++ events) (Function.update state.threads thread next) := by
  generalize current : state.threads thread = pc at accessed
  cases pc with
  | waitLock =>
      simp only [Barrier.access, Option.ite_none_right_eq_some] at accessed
      obtain ⟨-, same⟩ := accessed
      cases same
      exact logged.silent current rfl
  | readCount =>
      cases accessed
      exact logged.silent current rfl
  | writeCount count =>
      cases accessed
      refine ⟨?_, logged.order.append nofun⟩
      refine (Function.forall_update_iff state.threads
        fun other pc => pc.counted = 1 → .counted other ∈ history ++ [Event.counted thread]).mpr
        ⟨fun _ => List.mem_append_right _ List.mem_cons_self, fun other _ counted => ?_⟩
      exact List.mem_append_left _ (logged.increments other counted)
  | testCount =>
      cases accessed
      refine logged.silent current ?_
      split <;> rfl
  | postBarrier =>
      cases accessed
      exact logged.silent current rfl
  | postLock =>
      cases accessed
      exact logged.silent current rfl
  | waitBarrier =>
      simp only [Barrier.access, Option.ite_none_right_eq_some] at accessed
      obtain ⟨-, same⟩ := accessed
      cases same
      exact logged.silent current rfl
  | passBarrier =>
      cases accessed
      -- The thread carries the token, so all threads are counted.
      have all := holds.all_counted (holds.posted_of_carries (congrArg Pc.carries current))
      refine ⟨?_, logged.order.append fun _ _ other => logged.increments other (all other)⟩
      intro other _
      exact List.mem_append_left _ (logged.increments other (all other))
  | returned => cases accessed

/-- Every run keeps the accounts and the log. -/
theorem run_holds [Nonempty Thread] {schedule : List Thread} {trace : List (Event Thread)}
    (ran : machine.run (barrierInit (Fintype.card Thread)) schedule = some (state, trace)) :
    ∃ posted, Holds posted state ∧ Logged trace state.threads := by
  refine machine.run_invariant (fun past state => ∃ posted, Holds posted state ∧ Logged past state.threads)
    ?_ ⟨0, barrierInit_holds, nofun, always_nil⟩ ran
  rintro past state thread next events ⟨posted, holds, logged⟩ stepped
  obtain ⟨⟨shared, pc, emitted⟩, accessed, same⟩ := Option.map_eq_some_iff.mp stepped
  cases same
  obtain ⟨posted', kept⟩ := holds.access accessed
  exact ⟨posted', kept, logged.access holds accessed⟩

/-- No thread returns before all threads have incremented the count.
In every state all threads have returned, or one of them can take a step. -/
theorem barrier_correct [Nonempty Thread] (schedule : List Thread) (trace : List (Event Thread))
    (ran : machine.run (barrierInit (Fintype.card Thread)) schedule = some (state, trace)) :
    Always (fun before event => ∀ thread, event = .returned thread → ∀ other, .counted other ∈ before) trace ∧
    (∀ thread, state.threads thread = .returned → ∀ other, .counted other ∈ trace) ∧
    ((∀ thread, state.threads thread = .returned) ∨ ∃ thread, machine.Enabled state thread) := by
  obtain ⟨posted, holds, logged⟩ := run_holds ran
  refine ⟨logged.order, fun thread left other => ?_, ?_⟩
  · have token := holds.sound thread
    rw [left] at token
    exact logged.increments other (holds.all_counted (Nat.lt_of_lt_of_eq Nat.zero_lt_one token.symm) other)
  · by_contra neither
    rw [not_or, not_exists] at neither
    apply neither.1
    apply holds.returned_of_stuck
    intro thread
    have disabled := Option.not_isSome_iff_eq_none.mp (neither.2 thread)
    exact Option.map_eq_none_iff.mp disabled

/-- The last of three threads posts the token, and the threads pass it on. -/
def threeThreads : List (Fin 3) :=
  (List.finRange 3).flatMap (fun thread => List.replicate 5 thread) ++
    2 :: (List.finRange 3).flatMap (fun thread => List.replicate 2 thread)

/-- All three threads return, and all are counted. -/
theorem barrier_three_threads :
    ∃ state trace, machine.run (barrierInit (Fintype.card (Fin 3))) threeThreads = some (state, trace) ∧
      state.threads 0 = .returned ∧ ∀ other, .counted other ∈ trace := by
  have finished : (machine.run (barrierInit (Fintype.card (Fin 3))) threeThreads).map
      (fun result => result.1.threads 0) = some .returned := by
    decide +kernel
  obtain ⟨⟨state, trace⟩, ran, left⟩ := Option.map_eq_some_iff.mp finished
  exact ⟨state, trace, ran, left, (barrier_correct _ _ ran).2.1 0 left⟩

end Ostep.Barrier
