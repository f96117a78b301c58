import Ostep.Construction.Rendezvous

namespace Ostep.Rendezvous

open Library Threads

/-- The messages that come before a message. -/
def needs : Message → List Message
  | .parentBegin => []
  | .child1Before | .child2Before => [.parentBegin]
  | .child1After | .child2After => [.child1Before, .child2Before]
  | .parentEnd => [.child1After, .child2After]

/-- The beginnings of the outputs. -/
def partials : List (List Message) := outputs.flatMap List.inits

theorem mem_partials {messages : List Message} : messages ∈ partials ↔ ∃ output ∈ outputs, messages <+: output := by
  simp [partials]

/-- A new message whose needs are met continues an output. -/
theorem partials_extend {printed : List Message} (begun : printed ∈ partials) (message : Message)
    (new : message ∉ printed) (met : needs message ⊆ printed) : printed ++ [message] ∈ partials := by
  have step : ∀ printed ∈ partials, message ∉ printed → needs message ⊆ printed →
      printed ++ [message] ∈ partials := by
    cases message <;> decide
  exact step printed begun new met

/-- An output with the last message is complete. -/
theorem mem_outputs_of_end : ∀ printed ∈ partials, .parentEnd ∈ printed → printed ∈ outputs := by
  decide

variable {trace : List (Thread × Instr Thread Sem Message)} {state : State Thread Sem Message}

/-- The messages of a child come after its creation. -/
theorem created (valid : Valid code (fun _ => 0) .main trace state) {child : Thread}
    (different : child ≠ .main) (started : state.rest child ≠ none) : (.main, .create child) ∈ trace := by
  obtain ⟨creator, member⟩ := valid.created child different started
  have only : ∀ creator child, .create child ∈ code creator → creator = .main := by decide
  exact only creator child (valid.mem_code member) ▸ member

theorem printed {thread : Thread} {message : Message} (ran : (thread, .emit message) ∈ trace) :
    message ∈ messages trace :=
  mem_messages.mpr ⟨thread, ran⟩

/-- The first child has printed its first message when the first semaphore was posted. -/
theorem child1Before_of_post (valid : Valid code (fun _ => 0) .main trace state) {thread : Thread}
    (posted : (thread, .post .s1) ∈ trace) : .child1Before ∈ messages trace := by
  have only : ∀ thread, .post .s1 ∈ code thread → thread = .child1 := by decide
  obtain rfl := only thread (valid.mem_code posted)
  exact printed (valid.mem_of_mem (by decide) posted)

/-- The second child has printed its first message when the second semaphore was posted. -/
theorem child2Before_of_post (valid : Valid code (fun _ => 0) .main trace state) {thread : Thread}
    (posted : (thread, .post .s2) ∈ trace) : .child2Before ∈ messages trace := by
  have only : ∀ thread, .post .s2 ∈ code thread → thread = .child2 := by decide
  obtain rfl := only thread (valid.mem_code posted)
  exact printed (valid.mem_of_mem (by decide) posted)

/-- A message is printed by one thread and stands in its code once. -/
theorem not_printed (valid : Valid code (fun _ => 0) .main trace state) {thread : Thread} {message : Message}
    {rest : List (Instr Thread Sem Message)} (found : state.rest thread = some (.emit message :: rest)) :
    message ∉ messages trace :=
  valid.not_printed (by cases message <;> decide) (by cases message <;> cases thread <;> decide) found

/-- A message comes after those that it needs. -/
theorem needs_printed (valid : Valid code (fun _ => 0) .main trace state) {thread : Thread} {message : Message}
    {rest : List (Instr Thread Sem Message)} (found : state.rest thread = some (.emit message :: rest)) :
    ∀ earlier ∈ needs message, earlier ∈ messages trace := by
  have own := valid.next_mem_code found
  have started : state.rest thread ≠ none := by simp [found]
  cases message with
  | parentBegin => exact fun _ member => absurd member List.not_mem_nil
  | child1Before | child2Before =>
      have child : thread ≠ .main := by
        rintro rfl
        revert own
        decide
      refine List.forall_mem_singleton.mpr (printed (valid.mem_of_mem ?_ (created valid child started)))
      clear own found started
      revert thread
      decide
  | child1After =>
      have only : ∀ thread, .emit .child1After ∈ code thread → thread = .child1 := by decide
      obtain rfl := only thread own
      have waited : (.child1, .wait .s2) ∈ trace := valid.mem_of_next (by decide) found
      obtain ⟨other, posted⟩ := valid.exists_post rfl waited
      refine List.forall_mem_cons.mpr ⟨printed (valid.mem_of_next (by decide) found), List.forall_mem_singleton.mpr ?_⟩
      exact child2Before_of_post valid posted
  | child2After =>
      have only : ∀ thread, .emit .child2After ∈ code thread → thread = .child2 := by decide
      obtain rfl := only thread own
      have waited : (.child2, .wait .s1) ∈ trace := valid.mem_of_next (by decide) found
      obtain ⟨other, posted⟩ := valid.exists_post rfl waited
      refine List.forall_mem_cons.mpr ⟨child1Before_of_post valid posted, List.forall_mem_singleton.mpr ?_⟩
      exact printed (valid.mem_of_next (by decide) found)
  | parentEnd =>
      have only : ∀ thread, .emit .parentEnd ∈ code thread → thread = .main := by decide
      obtain rfl := only thread own
      have first : (.main, .join .child1) ∈ trace := valid.mem_of_next (by decide) found
      have second : (.main, .join .child2) ∈ trace := valid.mem_of_next (by decide) found
      refine List.forall_mem_cons.mpr ⟨?_, List.forall_mem_singleton.mpr ?_⟩
      · exact printed (valid.mem_of_ended (valid.joined _ _ first) (by decide))
      · exact printed (valid.mem_of_ended (valid.joined _ _ second) (by decide))

/-- Every run prints a beginning of an output. -/
theorem run_partials {schedule : List Thread} (ran : (machine code).run start schedule = some (state, trace)) :
    messages trace ∈ partials :=
  run_messages (· ∈ partials) (by decide)
    (fun _ _ _ message _ valid found begun =>
      partials_extend begun message (not_printed valid found) (needs_printed valid found)) ran

/-- A child that cannot move waits for its semaphore. -/
theorem child_blocked (valid : Valid code (fun _ => 0) .main trace state) (running : state.halted = false)
    {child : Thread} (different : child ≠ .main) (started : state.rest child ≠ none)
    (stopped : ¬(machine code).Enabled state child) :
    state.rest child = some [] ∨ ∃ sem rest, state.rest child = some (.wait sem :: rest) ∧ state.values sem = 0 := by
  obtain ⟨left, found⟩ := Option.ne_none_iff_exists'.mp started
  cases left with
  | nil => exact Or.inl found
  | cons instr rest =>
      have own := valid.next_mem_code found
      have simple : ∀ child, child ≠ .main → ∀ other, .join other ∉ code child ∧ .create other ∉ code child := by
        decide
      rcases blocked_cases running found stopped with ⟨sem, rfl, empty⟩ | ⟨other, rfl, -⟩ | ⟨other, rfl, -⟩
      · exact Or.inr ⟨sem, rest, found, empty⟩
      · exact absurd own (simple child different other).1
      · exact absurd own (simple child different other).2

/-- The first child does not wait for ever once the second one was started. -/
theorem child1_ended (valid : Valid code (fun _ => 0) .main trace state) (running : state.halted = false)
    (stopped : ∀ thread, ¬(machine code).Enabled state thread) (first : state.rest .child1 ≠ none)
    (second : state.rest .child2 ≠ none) : state.rest .child1 = some [] := by
  refine (child_blocked valid running (by decide) first (stopped .child1)).resolve_right ?_
  rintro ⟨sem, rest, found, empty⟩
  have own : ∀ sem, .wait sem ∈ code .child1 → sem = .s2 := by
    intro sem
    cases sem <;> decide
  obtain rfl := own sem (valid.next_mem_code found)
  -- The second child has posted, whether it has ended or waits in turn.
  have posted : (.child2, .post .s2) ∈ trace := by
    rcases child_blocked valid running (by decide) second (stopped .child2) with ended | ⟨sem, rest, found, -⟩
    · exact valid.mem_of_ended ended (by decide)
    · have own : ∀ sem, .wait sem ∈ code .child2 → sem = .s1 := by
        intro sem
        cases sem <;> decide
      obtain rfl := own sem (valid.next_mem_code found)
      exact valid.mem_of_next (by decide) found
  obtain ⟨other, waited⟩ := valid.exists_wait empty posted
  have only : ∀ thread, .wait .s2 ∈ code thread → thread = .child1 := by decide
  obtain rfl := only other (valid.mem_code waited)
  exact valid.not_mem_of_next (by decide) found waited

/-- The second child does not wait for ever once the first one has ended. -/
theorem child2_ended (valid : Valid code (fun _ => 0) .main trace state) (running : state.halted = false)
    (stopped : ∀ thread, ¬(machine code).Enabled state thread) (first : state.rest .child1 = some [])
    (second : state.rest .child2 ≠ none) : state.rest .child2 = some [] := by
  refine (child_blocked valid running (by decide) second (stopped .child2)).resolve_right ?_
  rintro ⟨sem, rest, found, empty⟩
  have own : ∀ sem, .wait sem ∈ code .child2 → sem = .s1 := by
    intro sem
    cases sem <;> decide
  obtain rfl := own sem (valid.next_mem_code found)
  obtain ⟨other, waited⟩ := valid.exists_wait empty (valid.mem_of_ended first (by decide))
  have only : ∀ thread, .wait .s1 ∈ code thread → thread = .child2 := by decide
  obtain rfl := only other (valid.mem_code waited)
  exact valid.not_mem_of_next (by decide) found waited

/-- Threads that cannot move have left the program. -/
theorem halted_of_stopped (valid : Valid code (fun _ => 0) .main trace state)
    (stopped : ∀ thread, ¬(machine code).Enabled state thread) : state.halted = true := by
  by_contra going
  have running : state.halted = false := Bool.eq_false_iff.mpr going
  obtain ⟨left, found⟩ := Option.ne_none_iff_exists'.mp valid.running
  cases left with
  | nil => exact going (valid.halted.mpr ⟨.main, valid.mem_of_ended found (by decide)⟩)
  | cons instr rest =>
      rcases blocked_cases running found (stopped .main) with
        ⟨sem, rfl, -⟩ | ⟨other, rfl, waits⟩ | ⟨other, rfl, present⟩
      · have none : ∀ sem, .wait sem ∉ code .main := by
          intro sem
          cases sem <;> decide
        exact none sem (valid.next_mem_code found)
      · have child : other ≠ .main := by
          rintro rfl
          exact absurd (valid.next_mem_code found) (by decide)
        have created : (.main, .create .child1) ∈ trace ∧ (.main, .create .child2) ∈ trace := by
          constructor <;> refine valid.mem_of_next ?_ found <;> clear found waits child <;> revert other <;> decide
        have first := child1_ended valid running stopped (valid.started _ _ created.1) (valid.started _ _ created.2)
        have second := child2_ended valid running stopped first (valid.started _ _ created.2)
        rw [Function.update_of_ne child] at waits
        cases other with
        | main => exact child rfl
        | child1 => exact waits first
        | child2 => exact waits second
      · have child : other ≠ .main := by
          rintro rfl
          exact absurd (valid.next_mem_code found) (by decide)
        rw [Function.update_of_ne child] at present
        refine valid.not_mem_of_next ?_ found (created valid child present)
        clear found present child
        revert other
        decide

/-- Every interleaving prints a beginning of one of the four outputs, so both children have printed their first message
before either prints its second one. It ends after at most fifteen steps, and threads that cannot move have printed a
whole output. -/
theorem rendezvous_outputs (schedule : List Thread) (state : State Thread Sem Message)
    (trace : List (Thread × Instr Thread Sem Message))
    (ran : (machine code).run start schedule = some (state, trace)) :
    (∃ output ∈ outputs, messages trace <+: output) ∧ schedule.length ≤ 15 ∧
    ((∀ thread, ¬(machine code).Enabled state thread) → messages trace ∈ outputs) := by
  have valid := run_valid ran
  have begun := run_partials ran
  refine ⟨mem_partials.mp begun, run_length_le ran, fun stopped => mem_outputs_of_end _ begun ?_⟩
  obtain ⟨thread, left⟩ := valid.halted.mp (halted_of_stopped valid stopped)
  have only : ∀ thread, .exit ∈ code thread → thread = .main := by decide
  obtain rfl := only thread (valid.mem_code left)
  exact printed (valid.mem_of_mem (by decide) left)

/-- The second child prints first both times. -/
theorem rendezvous_outputs_second :
    ∃ state trace, (machine code).run start
        [.main, .main, .main, .child2, .child2, .child1, .child1, .child1, .child2, .child2, .child1, .main, .main,
          .main, .main] = some (state, trace) ∧
      messages trace = [.parentBegin, .child2Before, .child1Before, .child2After, .child1After, .parentEnd] ∧
      messages trace ∈ outputs := by
  have complete : ((machine code).run start
      [.main, .main, .main, .child2, .child2, .child1, .child1, .child1, .child2, .child2, .child1, .main, .main,
        .main, .main]).map (fun result => (messages result.2, result.1.halted)) =
      some ([.parentBegin, .child2Before, .child1Before, .child2After, .child1After, .parentEnd], true) := by
    decide
  obtain ⟨⟨state, trace⟩, ran, shown⟩ := Option.map_eq_some_iff.mp complete
  obtain ⟨output, halted⟩ := Prod.mk.inj shown
  obtain ⟨-, -, all⟩ := rendezvous_outputs _ state trace ran
  refine ⟨state, trace, ran, output, all fun thread => ?_⟩
  have left : state.halted = true := halted
  simp [Machine.Enabled, machine, step, left]

end Ostep.Rendezvous
