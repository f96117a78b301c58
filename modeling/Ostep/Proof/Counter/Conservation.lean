import Ostep.Library.History
import Ostep.Proof.Counter.Access

namespace Ostep.Counter

open Library Library.Count Library.History Library.Mutex

variable {Id Thread : Type} [Fintype Id] [Fintype Thread]

/-- Nothing is lost between the local values and the global one, and every result counts the batches before it. -/
structure Holds (start : Approx Id) (history : List (Event Thread)) (state : State Id Thread) : Prop where
  owns : Owns state.owner fun thread => (state.threads thread).held
  sound : ∀ thread, (state.threads thread).Sound state.counter
  conserved : state.counter.value + ∑ id, state.counter.localValue id =
    start.value + ∑ id, start.localValue id + BitVec.ofNat 32 (completed history) +
      ∑ thread, (state.threads thread).surplus
  flushes : state.counter.value = start.value + (flushed history).sum
  gets : Always (fun before event => ∀ thread tmp, event = .got thread tmp →
    tmp = start.value + (flushed before).sum) history

theorem initial_holds (start : Approx Id) : Holds start [] (initial start : State Id Thread) where
  owns _ _ := iff_of_false nofun List.not_mem_nil
  sound _ := trivial
  conserved := by
    have idle : ∑ thread : Thread, (Pc.outside : Pc Id).surplus = 0 := Finset.sum_const_zero
    exact (add_zero _).symm.trans (congrArg₂ (· + ·) (add_zero _).symm idle.symm)
  flushes := (add_zero _).symm
  gets := always_nil

variable {start : Approx Id} {state : State Id Thread} {thread : Thread} {history : List (Event Thread)}

/-- A thread that starts a call holds nothing. -/
theorem Holds.enter [DecidableEq Id] [DecidableEq Thread] (holds : Holds start history state) {first : Pc Id}
    {next : State Id Thread} {events : List (Event Thread)}
    (entered : Counter.enter state thread first = some (next, events)) (held : first.held = [])
    (sound : first.Sound state.counter) (surplus : first.surplus = 0) : Holds start (history ++ events) next := by
  obtain ⟨outside, same⟩ := Option.ite_none_right_eq_some.mp entered
  cases same
  rw [List.append_nil]
  have change := sum_update Pc.surplus state.threads thread first
  rw [outside, surplus] at change
  refine { holds with owns := ?_, sound := ?_, conserved := ?_ }
  · rw [held_update]
    exact holds.owns.keep (by rw [held, outside]; rfl)
  · exact (Function.forall_update_iff state.threads fun _ pc => pc.Sound state.counter).mpr
      ⟨sound, fun other _ => holds.sound other⟩
  · have conserved := holds.conserved
    have idle : (Pc.outside : Pc Id).surplus = 0 := rfl
    linear_combination conserved - change + idle

variable [DecidableEq Id]

/-- A result is read while the global lock keeps the batches out. -/
theorem Holds.gets_append (holds : Holds start history state) {counter : Approx Id} {owner : Lock Id → Option Thread}
    {next : Pc Id} {events : List (Event Thread)}
    (moved : Access state.counter thread state.owner (state.threads thread) counter owner next events) :
    Always (fun before event => ∀ thread tmp, event = .got thread tmp →
      tmp = start.value + (flushed before).sum) (history ++ events) := by
  have sound := holds.sound thread
  generalize state.threads thread = pc at moved sound
  cases moved with
  | writeValue id value batch => exact holds.gets.append nofun
  | unlockLocal id => exact holds.gets.append nofun
  | unlockGet tmp =>
      apply holds.gets.append
      intro other read same
      cases same
      exact sound.trans holds.flushes
  | _ =>
      rw [List.append_nil]
      exact holds.gets

variable [DecidableEq Thread]

/-- Each access keeps the balance. -/
theorem Holds.access (holds : Holds start history state) {counter : Approx Id} {owner : Lock Id → Option Thread}
    {next : Pc Id} {events : List (Event Thread)}
    (moved : Access state.counter thread state.owner (state.threads thread) counter owner next events) :
    Holds start (history ++ events) ⟨counter, owner, Function.update state.threads thread next⟩ := by
  have change := sum_update Pc.surplus state.threads thread next
  have balance := moved.balance (holds.sound thread)
  have conserved := holds.conserved
  obtain ⟨value, locals⟩ := moved.frame
  refine ⟨?_, ?_, ?_, ?_, ?_⟩
  · rw [held_update]
    exact moved.owns holds.owns rfl
  · refine (Function.forall_update_iff state.threads fun _ pc => pc.Sound counter).mpr
      ⟨moved.sound (holds.sound thread), fun other different => ?_⟩
    -- A mutex of another thread is not one of the moving thread.
    apply (holds.sound other).frame
    · exact fun theirs => value fun mine => different (holds.owns.unique theirs mine)
    · exact fun id theirs => locals id fun mine => different (holds.owns.unique theirs mine)
  · rw [completed_append, BitVec.ofNat_add]
    linear_combination conserved + balance - change
  · rw [flushed_append, List.sum_append, ← add_assoc, ← holds.flushes]
    exact moved.flushes (holds.sound thread)
  · exact holds.gets_append moved

/-- Each step keeps the balance. -/
theorem Holds.step (holds : Holds start history state) {action : Action Id Thread} {next : State Id Thread}
    {events : List (Event Thread)} (stepped : machine.step state action = some (next, events)) :
    Holds start (history ++ events) next := by
  cases action with
  | increment thread id => exact holds.enter stepped rfl trivial rfl
  | get thread => exact holds.enter stepped rfl trivial rfl
  | go thread valueFirst =>
      obtain ⟨⟨counter, owner, pc, emitted⟩, accessed, same⟩ := Option.map_eq_some_iff.mp stepped
      cases same
      exact holds.access (access_cases accessed)

/-- While no thread is inside the section of a local lock, the values add up to their initial amount and the
completed increments. A result is the initial value and the batches flushed before it. -/
theorem approxCounter_conserves (start : Approx Id) (schedule : List (Action Id Thread)) (trace : List (Event Thread))
    (ran : machine.run (initial start) schedule = some (state, trace)) :
    ((∀ thread, ¬(state.threads thread).HoldsLocal) →
      state.counter.value + ∑ id, state.counter.localValue id =
        start.value + ∑ id, start.localValue id + BitVec.ofNat 32 (completed trace)) ∧
    Always (fun before event => ∀ thread tmp, event = .got thread tmp →
      tmp = start.value + (flushed before).sum) trace := by
  have holds : Holds start trace state :=
    machine.run_invariant (Holds start) (fun _ _ _ _ _ holds stepped => holds.step stepped) (initial_holds start) ran
  refine ⟨fun outside => ?_, holds.gets⟩
  have idle : ∑ thread, (state.threads thread).surplus = 0 :=
    Finset.sum_eq_zero fun thread _ => Pc.surplus_eq_zero (outside thread)
  rw [holds.conserved, idle, add_zero]

/-- One thread flushes a batch while another thread waits to read the value. -/
def flushAndGet {Id Thread : Type} (id : Id) (first second : Thread) : List (Action Id Thread) :=
  Action.increment first id :: List.replicate 7 (.go first true) ++
    Action.get second :: List.replicate 4 (.go first true) ++ List.replicate 3 (Action.go second true)

/-- The increment is completed, and the result includes the flushed batch. -/
theorem approxCounter_flush_and_get :
    ∃ state trace,
      machine.run (initial ⟨5, fun _ => 9999⟩) (flushAndGet (0 : Fin 2) (0 : Fin 2) 1) = some (state, trace) ∧
      trace = [.flushed 10000, .incremented 0, .got 1 10005] ∧
      state.counter.value + ∑ id, state.counter.localValue id = 5 + ∑ _ : Fin 2, 9999 + 1 := by
  have quiet : (machine.run (initial ⟨5, fun _ => 9999⟩) (flushAndGet (0 : Fin 2) (0 : Fin 2) 1)).map
      (fun result => (result.2, result.1.threads 0, result.1.threads 1)) =
        some ([.flushed 10000, .incremented 0, .got 1 10005], .outside, .outside) := by
    decide +kernel
  obtain ⟨⟨state, trace⟩, ran, ended⟩ := Option.map_eq_some_iff.mp quiet
  obtain ⟨events, idle⟩ := Prod.mk.inj ended
  obtain ⟨first, second⟩ := Prod.mk.inj idle
  have outside : ∀ thread, ¬(state.threads thread).HoldsLocal := by
    rw [Fin.forall_fin_two]
    exact ⟨first ▸ id, second ▸ id⟩
  have conserved := (approxCounter_conserves _ _ _ ran).1 outside
  have once : completed trace = 1 := by
    rw [show trace = _ from events]
    rfl
  rw [once] at conserved
  exact ⟨state, trace, ran, events, conserved⟩

end Ostep.Counter
