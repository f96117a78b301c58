import Ostep.Construction.ResetGuard

namespace Ostep.ResetGuard

open Library Library.History

theorem accepted_append (past later : List Event) : accepted (past ++ later) = accepted past + accepted later :=
  List.count_append

theorem completed_append (past later : List Event) : completed (past ++ later) = completed past + completed later :=
  List.count_append

/-- The counter and the state of the module follow from the history, and so does every result. -/
structure Holds (history : List Event) (state : State) : Prop where
  counts : state.outstanding + completed history = accepted history
  inflight : state.m.inflight.toNat = state.outstanding
  mode : state.m.state = if .reset false ∈ history then .resetting else .ready
  covered : ∀ before, before <+: history → completed before ≤ accepted before
  submissions : Always (fun before event => ∀ success, event = .submitted success →
    (success = true ↔ .reset false ∉ before)) history
  resets : Always (fun before event => ∀ success, event = .reset success →
    (success = true ↔ accepted before = completed before)) history

theorem initial_holds : Holds [] initial where
  counts := rfl
  inflight := rfl
  mode := rfl
  covered before inside := by
    rw [List.prefix_nil.mp inside]
    exact Nat.le_refl 0
  submissions := always_nil
  resets := always_nil

variable {history : List Event} {state : State}

/-- The commands stay covered while the next event leaves them covered. -/
theorem Holds.covered_concat (holds : Holds history state) {event : Event}
    (last : completed (history ++ [event]) ≤ accepted (history ++ [event])) (before : List Event)
    (inside : before <+: history ++ [event]) : completed before ≤ accepted before := by
  rcases List.prefix_concat_iff.mp inside with rfl | earlier
  · exact last
  · exact holds.covered before earlier

/-- A submission is accepted until a reset has found commands in flight. -/
theorem Holds.submit (holds : Holds history state)
    (fits : Fits (history ++ [.submitted (trySubmitCommand state.m).2])) :
    Holds (history ++ [.submitted (trySubmitCommand state.m).2])
      ⟨(trySubmitCommand state.m).1,
        if (trySubmitCommand state.m).2 then state.outstanding + 1 else state.outstanding⟩ := by
  have counts := holds.counts
  have mode := holds.mode
  have kept (success : Bool) : (.reset false ∈ history ++ [.submitted success]) ↔ .reset false ∈ history := by simp
  by_cases busy : .reset false ∈ history
  · have refused : trySubmitCommand state.m = (state.m, false) := by
      rw [if_pos busy] at mode
      simp [trySubmitCommand, mode]
    rw [refused]
    dsimp only
    have more : accepted (history ++ [.submitted false]) = accepted history := accepted_append _ _
    have same : completed (history ++ [.submitted false]) = completed history := completed_append _ _
    refine ⟨?_, holds.inflight, ?_, holds.covered_concat (by omega), ?_, holds.resets.append nofun⟩
    · rw [more, same]
      exact counts
    · rw [mode]
      exact if_congr (kept false).symm rfl rfl
    · apply holds.submissions.append
      intro success result
      cases result
      exact iff_of_false Bool.false_ne_true (not_not_intro busy)
  · have taken : trySubmitCommand state.m = ({ state.m with inflight := state.m.inflight + 1 }, true) := by
      rw [if_neg busy] at mode
      simp [trySubmitCommand, mode]
    rw [taken] at fits ⊢
    dsimp only at fits ⊢
    have small := fits _ List.prefix_rfl
    have more : accepted (history ++ [.submitted true]) = accepted history + 1 := accepted_append _ _
    have same : completed (history ++ [.submitted true]) = completed history := completed_append _ _
    have inflight := holds.inflight
    refine ⟨?_, ?_, ?_, holds.covered_concat (by omega), ?_, holds.resets.append nofun⟩
    · rw [more, same]
      change state.outstanding + 1 + completed history = accepted history + 1
      omega
    · change (state.m.inflight + 1).toNat = state.outstanding + 1
      rw [BitVec.toNat_add]
      simp only [BitVec.ofNat_eq_ofNat, BitVec.toNat_ofNat]
      omega
    · change state.m.state = _
      rw [mode]
      exact if_congr (kept true).symm rfl rfl
    · apply holds.submissions.append
      intro success result
      cases result
      exact iff_of_true rfl busy

/-- A completion takes one command out of flight. -/
theorem Holds.complete (holds : Holds history state) (some : 0 < state.outstanding) :
    Holds (history ++ [.completed]) ⟨commandCompleted state.m, state.outstanding - 1⟩ := by
  have counts := holds.counts
  have inflight := holds.inflight
  have same : accepted (history ++ [.completed]) = accepted history := accepted_append _ _
  have more : completed (history ++ [.completed]) = completed history + 1 := completed_append _ _
  refine ⟨?_, ?_, ?_, holds.covered_concat (by omega), holds.submissions.append nofun, holds.resets.append nofun⟩
  · rw [more, same]
    dsimp only
    omega
  · change (state.m.inflight - 1).toNat = state.outstanding - 1
    bv_omega
  · exact holds.mode.trans (if_congr (by simp) rfl rfl)

/-- A reset changes the module only while commands are in flight. -/
theorem Holds.reset (holds : Holds history state) :
    Holds (history ++ [.reset (beginReset state.m).2]) { state with m := (beginReset state.m).1 } := by
  have counts := holds.counts
  have inflight := holds.inflight
  have unsubmitted (success : Bool) : accepted (history ++ [.reset success]) = accepted history := accepted_append _ _
  have uncompleted (success : Bool) : completed (history ++ [.reset success]) = completed history :=
    completed_append _ _
  by_cases busy : state.m.inflight > 0
  · have pending : beginReset state.m = ({ state.m with state := .resetting }, false) := if_pos busy
    rw [pending]
    have positive : 0 < state.m.inflight.toNat := BitVec.lt_def.mp busy
    refine ⟨?_, inflight, ?_, holds.covered_concat ?_, holds.submissions.append nofun, ?_⟩
    · rw [unsubmitted, uncompleted]
      exact counts
    · exact (if_pos (List.mem_append_right _ List.mem_cons_self)).symm
    · rw [unsubmitted, uncompleted]
      omega
    · apply holds.resets.append
      intro success result
      cases result
      exact iff_of_false Bool.false_ne_true (by omega)
  · have done : beginReset state.m = (state.m, true) := if_neg busy
    rw [done]
    have idle : state.m.inflight.toNat = 0 := Nat.eq_zero_of_not_pos fun positive => busy (BitVec.lt_def.mpr positive)
    refine ⟨?_, inflight, ?_, holds.covered_concat ?_, holds.submissions.append nofun, ?_⟩
    · rw [unsubmitted, uncompleted]
      exact counts
    · exact holds.mode.trans (if_congr (by simp) rfl rfl)
    · rw [unsubmitted, uncompleted]
      omega
    · apply holds.resets.append
      intro success result
      cases result
      exact iff_of_true rfl (by omega)

/-- Every run follows its history. -/
theorem run_holds {schedule : List Action} {trace : List Event}
    (ran : machine.run initial schedule = some (state, trace)) (fits : Fits trace) : Holds trace state := by
  refine machine.run_invariant (fun past state => Fits past → Holds past state) ?_ (fun _ => initial_holds) ran fits
  intro past state action next events holds stepped fits
  have before := holds fun earlier inside => fits earlier (inside.trans (List.prefix_append _ _))
  cases action with
  | submit =>
      cases stepped
      exact before.submit fits
  | complete =>
      obtain ⟨some, same⟩ := Option.ite_none_right_eq_some.mp stepped
      cases same
      exact before.complete some
  | reset =>
      cases stepped
      exact before.reset

/-- A history with a reset has a first one. -/
theorem exists_first_reset {trace : List Event} (called : Reset trace) :
    ∃ before success after, trace = before ++ .reset success :: after ∧ ¬Reset before := by
  obtain ⟨success, member⟩ := called
  obtain ⟨before, event, after, rfl, ⟨first, rfl⟩, none⟩ :=
    exists_first (fun event => ∃ success, event = .reset success) ⟨_, member, success, rfl⟩
  exact ⟨before, first, after, rfl, fun ⟨other, earlier⟩ => none _ earlier ⟨other, rfl⟩⟩

theorem accepted_eq_zero {events : List Event} (quiet : ∀ result, .submitted result ∉ events) : accepted events = 0 :=
  List.count_eq_zero.mpr (quiet true)

/-- A history without later submissions keeps the number of commands in flight from growing. -/
theorem guarded_of_blocked {trace : List Event}
    (blocked : Always (fun before event => Reset before → event ≠ .submitted true) trace) : Guarded trace := by
  refine ⟨blocked, ?_⟩
  rintro before later ⟨rest, rfl⟩ ⟨success, member⟩
  have none : .submitted true ∉ later := by
    intro submitted
    obtain ⟨middle, after, rfl⟩ := List.append_of_mem submitted
    refine blocked (before ++ middle) (.submitted true) (after ++ rest) ?_
      ⟨success, List.mem_append_left _ member⟩ rfl
    simp only [List.append_assoc, List.cons_append]
  have still : accepted later = 0 := List.count_eq_zero.mpr none
  rw [accepted_append, completed_append]
  omega

variable {trace : List Event}

/-- A busy first reset stops all later submissions. -/
theorem Holds.guarded (holds : Holds trace state) (busy : FirstResetBusy trace) : Guarded trace := by
  apply guarded_of_blocked
  rintro before event after split called rfl
  obtain ⟨first, success, middle, rfl, fresh⟩ := exists_first_reset called
  have whole : trace = first ++ .reset success :: (middle ++ .submitted true :: after) := by
    rw [split, List.append_assoc, List.cons_append]
  have inflight := busy first success _ whole fresh ⟨true, List.mem_append_right _ List.mem_cons_self⟩
  have pending : success = false :=
    Bool.eq_false_iff.mpr fun done => inflight ((holds.resets first _ _ whole success rfl).mp done)
  apply (holds.submissions _ _ _ split true rfl).mp rfl
  rw [pending]
  exact List.mem_append_right _ List.mem_cons_self

/-- While nobody submits, every reset of an idle module succeeds. -/
theorem Holds.idle_resets {before middle after : List Event} (holds : Holds trace state)
    (split : trace = before ++ (middle ++ after)) (idle : accepted before = completed before)
    (quiet : ∀ result, .submitted result ∉ middle) : .reset false ∉ middle := by
  intro member
  obtain ⟨earlier, later, rfl⟩ := List.append_of_mem member
  have none : accepted earlier = 0 := accepted_eq_zero fun result inside => quiet result (List.mem_append_left _ inside)
  have whole : trace = (before ++ earlier) ++ .reset false :: (later ++ after) := by
    rw [split]
    simp only [List.append_assoc, List.cons_append]
  have covered := holds.covered (before ++ earlier) ⟨_, whole.symm⟩
  have busy := (holds.resets _ _ _ whole false rfl).not.mp Bool.false_ne_true
  rw [accepted_append, completed_append] at covered busy
  omega

/-- A submission after an idle first reset is accepted. -/
theorem Holds.firstResetBusy (holds : Holds trace state) (guarded : Guarded trace) : FirstResetBusy trace := by
  intro before success after split fresh submits idle
  obtain ⟨result, member⟩ := submits
  obtain ⟨middle, event, rest, rfl, ⟨first, rfl⟩, quiet⟩ :=
    exists_first (fun event => ∃ result, event = .submitted result) ⟨_, member, result, rfl⟩
  have done : success = true := (holds.resets before _ _ split success rfl).mpr idle
  have whole : trace = (before ++ .reset success :: middle) ++ .submitted first :: rest := by
    rw [split, List.append_assoc, List.cons_append]
  have succeed : .reset false ∉ .reset success :: middle := by
    refine holds.idle_resets (whole.trans (List.append_assoc _ _ _)) idle fun result inside => ?_
    rcases List.mem_cons.mp inside with same | inside
    · cases same
    · exact quiet _ inside ⟨result, rfl⟩
  have unbroken : .reset false ∉ before ++ .reset success :: middle := by
    rw [List.mem_append]
    exact not_or.mpr ⟨fun earlier => fresh ⟨false, earlier⟩, succeed⟩
  have taken : first = true := (holds.submissions _ _ _ whole first rfl).mpr unbroken
  refine guarded.1 _ _ _ whole ⟨success, List.mem_append_right _ List.mem_cons_self⟩ ?_
  rw [taken]

/-- The counter holds the commands in flight, and a reset succeeds exactly when there are none.
The reset stops submissions exactly when the first reset before a submission finds commands in flight. -/
theorem resetGuard_blocks_iff (schedule : List Action) (state : State) (trace : List Event)
    (ran : machine.run initial schedule = some (state, trace)) (fits : Fits trace) :
    state.m.inflight.toNat + completed trace = accepted trace ∧
    Always (fun before event => ∀ success, event = .reset success →
      (success = true ↔ accepted before = completed before)) trace ∧
    (Guarded trace ↔ FirstResetBusy trace) := by
  have holds := run_holds ran fits
  refine ⟨?_, holds.resets, holds.firstResetBusy, holds.guarded⟩
  rw [holds.inflight]
  exact holds.counts

/-- A short history never fills the counter. -/
theorem fits_of_length (short : trace.length < 2 ^ 32) : Fits trace := by
  intro before inside
  have shorter : accepted before ≤ before.length := List.count_le_length
  have bound := inside.length_le
  omega

/-- A reset with one command in flight refuses the next submission, and a later reset succeeds. -/
theorem resetGuard_busy_reset :
    machine.run initial [.submit, .reset, .submit, .complete, .reset] =
      some (⟨⟨.resetting, 0⟩, 0⟩,
        [.submitted true, .reset false, .submitted false, .completed, .reset true]) ∧
    Guarded [.submitted true, .reset false, .submitted false, .completed, .reset true] := by
  have ran : machine.run initial [.submit, .reset, .submit, .complete, .reset] = some (⟨⟨.resetting, 0⟩, 0⟩, _) := rfl
  refine ⟨ran, (resetGuard_blocks_iff _ _ _ ran (fits_of_length (by decide))).2.2.mpr ?_⟩
  intro before success after split fresh submits
  rcases before with _ | ⟨first, _ | ⟨second, before⟩⟩
  · cases split
  · obtain ⟨rfl, -⟩ := List.cons.inj split
    decide
  · obtain ⟨-, rest⟩ := List.cons.inj split
    obtain ⟨rfl, -⟩ := List.cons.inj rest
    exact absurd ⟨false, by simp⟩ fresh

/-- A reset of an idle module succeeds, and the next submission is accepted. -/
theorem resetGuard_idle_reset :
    machine.run initial [.reset, .submit] = some (⟨⟨.ready, 1⟩, 1⟩, [.reset true, .submitted true]) ∧
    ¬Guarded [.reset true, .submitted true] := by
  refine ⟨rfl, fun guarded => ?_⟩
  exact guarded.1 [.reset true] (.submitted true) [] rfl ⟨true, List.mem_cons_self⟩ rfl

end Ostep.ResetGuard
