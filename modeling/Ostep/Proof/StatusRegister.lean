import Mathlib.Algebra.Group.Nat.Defs
import Mathlib.Data.List.Induction
import Ostep.Construction.StatusRegister
import Ostep.Library.BitField

namespace Ostep.StatusRegister

open Library W1c BitField

/-- Three flags make up the lowest three bits. -/
theorem getLsbD_flags (bit : Nat) :
    ((1 : Word) <<< 0 ||| (1 : Word) <<< 1 ||| (1 : Word) <<< 2).getLsbD bit = decide (bit < 3) := by
  rw [BitVec.getLsbD_or, BitVec.getLsbD_or, getLsbD_flag, getLsbD_flag, getLsbD_flag, Bool.eq_iff_iff]
  simp only [Bool.or_eq_true, decide_eq_true_eq]
  omega

namespace InterruptStorm

variable {start state : State 32 Word Counts} {trace : List (Event 32 Word)} {bit : Nat}

/-- The handler counts what it has read. -/
theorem irqHandler_eq (st : Word) (s : Counts) :
    irqHandler st s =
      { doneCount := s.doneCount + if st.getLsbD 0 then 1 else 0
        errorCount := s.errorCount + if st.getLsbD 1 then 1 else 0
        recoveryNeeded := s.recoveryNeeded || st.getLsbD 1 || st.getLsbD 2
        woken := s.woken + (if st.getLsbD 1 then 1 else 0) + if st.getLsbD 2 then 1 else 0 } := by
  simp only [irqHandler, irqDone, irqError, irqFatal, and_flag_ne_zero (show 0 < 32 by decide),
    and_flag_ne_zero (show 1 < 32 by decide), and_flag_ne_zero (show 2 < 32 by decide)]
  cases st.getLsbD 0 <;> cases st.getLsbD 1 <;> cases st.getLsbD 2 <;> simp

theorem getLsbD_clearable (bit : Nat) : driver.clearable.getLsbD bit = decide (bit < 3) := getLsbD_flags bit

theorem getLsbD_irqDone (bit : Nat) : irqDone.getLsbD bit = decide (bit = 0) := by
  rw [irqDone, getLsbD_flag, Bool.eq_iff_iff]
  simp only [decide_eq_true_eq]
  omega

/-- An unmasked bit of the status raises the interrupt. -/
theorem enters_of_getLsbD (set : state.status.getLsbD bit = true) (unmasked : state.mask.getLsbD bit = true) :
    driver.enters state.status state.mask = true := by
  refine decide_eq_true fun zero => ?_
  have both := congrArg (BitVec.getLsbD · bit) zero
  simp [set, unmasked] at both

/-- The handler wakes the recovery task in each run while a failure is pending. -/
theorem woken_replay (failure : bit = 1 ∨ bit = 2) (counts : Counts) {runs : List (Write 32 Word)}
    (pending : ∀ write ∈ runs, write.read.getLsbD bit = true) :
    counts.woken + runs.length ≤ (driver.replay runs counts).woken ∧
      (runs ≠ [] → (driver.replay runs counts).recoveryNeeded = true) := by
  induction runs using List.reverseRecOn with
  | nil => exact ⟨Nat.le_refl _, fun some => absurd rfl some⟩
  | append_singleton rest write ih =>
      obtain ⟨earlier, last⟩ := List.forall_mem_append.mp pending
      have set := List.forall_mem_singleton.mp last
      have before := (ih earlier).1
      have after : driver.replay (rest ++ [write]) counts = irqHandler write.read (driver.replay rest counts) :=
        driver.replay_concat rest write counts
      rw [after, irqHandler_eq, List.length_append, List.length_singleton]
      rcases failure with rfl | rfl
      · rw [set]
        exact ⟨by simp only [if_true]; omega, fun _ => by simp⟩
      · rw [set]
        exact ⟨by simp only [if_true]; omega, fun _ => by simp⟩

theorem doneCount_replay (runs : List (Write 32 Word)) (counts : Counts) :
    (driver.replay runs counts).doneCount =
      counts.doneCount + BitVec.ofNat 32 (runs.countP fun write => write.read.getLsbD 0) :=
  Driver.counter_replay Counts.doneCount (fun st _ => st.getLsbD 0)
    (fun st _ counts => congrArg Counts.doneCount (irqHandler_eq st counts)) runs counts

theorem errorCount_replay (runs : List (Write 32 Word)) (counts : Counts) :
    (driver.replay runs counts).errorCount =
      counts.errorCount + BitVec.ofNat 32 (runs.countP fun write => write.read.getLsbD 1) :=
  Driver.counter_replay Counts.errorCount (fun st _ => st.getLsbD 1)
    (fun st _ counts => congrArg Counts.errorCount (irqHandler_eq st counts)) runs counts

theorem clearable_of_failure (failure : bit = 1 ∨ bit = 2) : driver.clearable.getLsbD bit = true := by
  rw [getLsbD_clearable]
  exact decide_eq_true (by omega)

/-- No handler clears an error or a fatal event. -/
theorem spared_of_failure (failure : bit = 1 ∨ bit = 2) (read mask : Word) (counts : Counts) :
    (driver.handle read mask counts).2.getLsbD bit = false :=
  (getLsbD_irqDone bit).trans (decide_eq_false (by omega))

/-- The handler can be entered and completed while an unmasked failure is pending, and the failure stays pending. -/
theorem exists_run (failure : bit = 1 ∨ bit = 2) (set : state.status.getLsbD bit = true)
    (unmasked : state.mask.getLsbD bit = true) :
    ∃ schedule next events, (∀ action ∈ schedule, action = .readStatus ∨ action = .writeStatus) ∧
      (machine driver).run state schedule = some (next, events) ∧ (writes events).length = 1 ∧
      next.status.getLsbD bit = true ∧ next.mask = state.mask := by
  have kept (read mask : Word) : (driver.finish state read mask).1.status.getLsbD bit = true := by
    rw [Driver.finish, getLsbD_clear, set, spared_of_failure failure]
    rfl
  cases reading : state.read with
  | some seen =>
      refine ⟨[.writeStatus], (driver.finish state seen.1 seen.2).1, (driver.finish state seen.1 seen.2).2,
        fun action member => Or.inr (List.mem_singleton.mp member), ?_, rfl, kept _ _, rfl⟩
      simp [Machine.run, machine, step, reading]
  | none =>
      refine ⟨[.readStatus, .writeStatus], (driver.finish state state.status state.mask).1,
        (driver.finish state state.status state.mask).2, fun action member => by simpa using member, ?_, rfl,
        kept _ _, rfl⟩
      simp [Machine.run, machine, step, reading, enters_of_getLsbD set unmasked, Driver.finish]

/-- The handler can run again and again while an unmasked failure is pending. -/
theorem exists_runs (failure : bit = 1 ∨ bit = 2) (count : Nat) (set : state.status.getLsbD bit = true)
    (unmasked : state.mask.getLsbD bit = true) :
    ∃ later final more, (∀ action ∈ later, action = .readStatus ∨ action = .writeStatus) ∧
      (machine driver).run state later = some (final, more) ∧ (writes more).length = count := by
  induction count generalizing state with
  | zero => exact ⟨[], state, [], fun _ member => absurd member List.not_mem_nil, rfl, rfl⟩
  | succ count ih =>
      obtain ⟨early, next, events, handlers, began, one, still, same⟩ := exists_run failure set unmasked
      obtain ⟨later, final, more, others, ran, length⟩ := ih still (same ▸ unmasked)
      refine ⟨early ++ later, final, events ++ more, List.forall_mem_append.mpr ⟨handlers, others⟩,
        (machine driver).run_append began ran, ?_⟩
      rw [writes_append, List.length_append, one, length, Nat.add_comm]

/-- The handler clears neither an error nor a fatal event: once one of them is set it stays set, and every completed
run wakes the recovery task. The runs that have read an error count it, so a pending error is counted again by every
run. While the bit is unmasked the handler can run any number of times without a new event. -/
theorem interrupt_storm (start : State 32 Word Counts) (bit : Nat) (failure : bit = 1 ∨ bit = 2)
    (resting : start.read = none) (latched : start.status.getLsbD bit = true)
    (schedule : List (Action 32 Word)) (state : State 32 Word Counts) (trace : List (Event 32 Word))
    (ran : (machine driver).run start schedule = some (state, trace)) :
    state.status.getLsbD bit = true ∧
    start.data.woken + (writes trace).length ≤ state.data.woken ∧
    (writes trace ≠ [] → state.data.recoveryNeeded = true) ∧
    state.data.errorCount =
      start.data.errorCount + BitVec.ofNat 32 ((writes trace).countP fun write => write.read.getLsbD 1) ∧
    (bit = 1 → state.data.errorCount = start.data.errorCount + BitVec.ofNat 32 (writes trace).length) ∧
    (state.mask.getLsbD bit = true → ∀ count, ∃ later final more,
      (∀ action ∈ later, action = .readStatus ∨ action = .writeStatus) ∧
      (machine driver).run state later = some (final, more) ∧ (writes more).length = count) := by
  obtain ⟨set, -, seen⟩ := run_spared resting (clearable_of_failure failure) (spared_of_failure failure) latched ran
  obtain ⟨wakes, recovers⟩ := woken_replay failure start.data seen
  have counts := errorCount_replay (writes trace) start.data
  rw [(run_holds resting ran).data]
  refine ⟨set, wakes, recovers, counts, fun error => ?_, fun unmasked count => exists_runs failure count set unmasked⟩
  subst error
  rw [counts, List.countP_eq_length.mpr seen]

/-- A handler that read `IRQ_ERROR` only, twice: the second run counts it again. -/
theorem interrupt_storm_error :
    ∃ state trace, (machine driver).run ⟨2, 7, ⟨0, 0, false, 0⟩, none⟩
        [.readStatus, .writeStatus, .readStatus, .writeStatus] = some (state, trace) ∧
      state.status.getLsbD 1 = true ∧ state.data.errorCount = 2 := by
  refine ⟨_, _, rfl, ?_⟩
  obtain ⟨set, -, -, -, counts, -⟩ := interrupt_storm ⟨2, 7, ⟨0, 0, false, 0⟩, none⟩ 1 (Or.inl rfl) rfl (by decide)
    [.readStatus, .writeStatus, .readStatus, .writeStatus] _ _ rfl
  exact ⟨set, counts rfl⟩

/-- A done event that comes between a read without it and the write is cleared and not counted. -/
theorem exists_lost (resting : state.read = none) (enters : driver.enters state.status state.mask = true)
    (clear : state.status.getLsbD 0 = false) :
    ∃ final trace, (machine driver).run state [.readStatus, .latch irqDone, .writeStatus] = some (final, trace) ∧
      falls 0 trace = 1 ∧ final.data.doneCount = state.data.doneCount := by
  let status := state.status ||| (irqDone &&& driver.clearable)
  have latched : status.getLsbD 0 = true := by
    simp [status, getLsbD_clearable, irqDone]
  have fell : (driver.clear irqDone status).getLsbD 0 = false := by
    rw [getLsbD_clear, getLsbD_irqDone, getLsbD_clearable]
    simp
  refine ⟨{ state with status := driver.clear irqDone status, data := irqHandler state.status state.data },
    [.changed state.status status,
      .wrote ⟨state.status, state.mask, irqDone, status, driver.clear irqDone status⟩], ?_, ?_, ?_⟩
  · simp only [Machine.run, machine, step, resting, enters, and_self, if_true, Option.bind_some, Option.map_some]
    rfl
  · simp only [falls, List.countP_cons, List.countP_nil, Event.falls, Write.falls, clear, latched, fell]
    rfl
  · change (irqHandler state.status state.data).doneCount = _
    rw [irqHandler_eq, clear]
    exact BitVec.add_zero _

/-- The falls of the done bit are the runs that have counted it and the runs that have cleared it without having seen
it. The other two bits never fall. A done event that comes between a read without it and the write is lost. -/
theorem irq_handler_done_accounting (start : State 32 Word Counts) (resting : start.read = none)
    (schedule : List (Action 32 Word)) (state : State 32 Word Counts) (trace : List (Event 32 Word))
    (ran : (machine driver).run start schedule = some (state, trace)) :
    state.data.doneCount =
      start.data.doneCount + BitVec.ofNat 32 ((writes trace).countP fun write => write.read.getLsbD 0) ∧
    falls 0 trace = (writes trace).countP (fun write => write.read.getLsbD 0) +
      (writes trace).countP (fun write => !write.read.getLsbD 0 && write.before.getLsbD 0) ∧
    falls 1 trace = 0 ∧ falls 2 trace = 0 ∧
    (state.read = none → driver.enters state.status state.mask = true → state.status.getLsbD 0 = false →
      ∃ final more, (machine driver).run state [.readStatus, .latch irqDone, .writeStatus] = some (final, more) ∧
        falls 0 more = 1 ∧ final.data.doneCount = state.data.doneCount) := by
  have holds := run_holds resting ran
  have done : driver.clearable.getLsbD 0 = true := by
    rw [getLsbD_clearable]
    rfl
  have fell {write : Write 32 Word} (member : write ∈ writes trace) : write.falls 0 = write.before.getLsbD 0 := by
    obtain ⟨⟨_, written⟩, -⟩ := holds.written write member
    rw [holds.falls_eq member, written, done, show (driver.handle _ _ _).2.getLsbD 0 = true from getLsbD_irqDone 0]
    simp
  refine ⟨?_, ?_, ?_, ?_, fun quiet enters clear => exists_lost quiet enters clear⟩
  · rw [holds.data]
    exact doneCount_replay (writes trace) start.data
  · rw [holds.falls 0 fun _ => done,
      List.countP_eq_countP_filter_add (writes trace) (Write.falls 0) fun write => write.read.getLsbD 0,
      List.countP_filter, List.countP_filter]
    congr 1
    · refine List.countP_congr fun write member => ?_
      have pending := holds.pending write member 0 done
      rw [fell member]
      simpa using pending
    · refine List.countP_congr fun write member => ?_
      rw [fell member, Bool.and_comm]
  · exact holds.falls_eq_zero (fun _ => clearable_of_failure (Or.inl rfl)) (spared_of_failure (Or.inl rfl))
  · exact holds.falls_eq_zero (fun _ => clearable_of_failure (Or.inr rfl)) (spared_of_failure (Or.inr rfl))

/-- A done event between the read and the write of a handler for another event is cleared and not counted. -/
theorem irq_handler_done_accounting_lost :
    ∃ state trace, (machine driver).run ⟨2, 7, ⟨0, 0, false, 0⟩, none⟩
        [.readStatus, .latch irqDone, .writeStatus] = some (state, trace) ∧
      state.data.doneCount = 0 ∧ falls 0 trace = 1 := by
  refine ⟨_, _, rfl, ?_⟩
  obtain ⟨counts, fallen, -⟩ := irq_handler_done_accounting ⟨2, 7, ⟨0, 0, false, 0⟩, none⟩ rfl
    [.readStatus, .latch irqDone, .writeStatus] _ _ rfl
  exact ⟨counts, fallen⟩

end InterruptStorm

namespace ClearDone

theorem getLsbD_clearable (bit : Nat) : driver.clearable.getLsbD bit = decide (bit < 3) := getLsbD_flags bit

theorem getLsbD_clearDone (v : Word) (bit : Nat) : (clearDone v).getLsbD bit = (v.getLsbD bit && decide (bit ≠ 0)) := by
  by_cases inside : bit < 32
  · rw [clearDone, statDone, BitVec.getLsbD_and, BitVec.getLsbD_not, getLsbD_flag]
    simp [inside, eq_comm]
  · simp [BitVec.getLsbD_of_ge _ _ (Nat.not_lt.mp inside)]

/-- The read-modify-write never clears the bit that it is meant to clear: a done event stays pending for ever.
Each completed call clears exactly the errors and fatal events that it has read, and nothing that came later. -/
theorem clear_done_clears_others (start : State 32 Unit Unit) (resting : start.read = none)
    (schedule : List (Action 32 Unit)) (state : State 32 Unit Unit) (trace : List (Event 32 Unit))
    (ran : (machine driver).run start schedule = some (state, trace)) :
    (start.status.getLsbD 0 = true → state.status.getLsbD 0 = true) ∧ falls 0 trace = 0 ∧
    ∀ write ∈ writes trace, ∀ bit, write.falls bit = true ↔ (bit = 1 ∨ bit = 2) ∧ write.read.getLsbD bit = true := by
  have holds := run_holds resting ran
  have kept (read : Word) (mask data : Unit) : (driver.handle read mask data).2.getLsbD 0 = false := by
    change (clearDone read).getLsbD 0 = false
    rw [getLsbD_clearDone]
    exact Bool.and_false _
  have done : driver.clearable.getLsbD 0 = true := by
    rw [getLsbD_clearable]
    rfl
  refine ⟨fun set => (run_spared resting done kept set ran).1, holds.falls_eq_zero (fun _ => done) kept, ?_⟩
  intro write member bit
  obtain ⟨⟨_, written⟩, -⟩ := holds.written write member
  have pending := holds.pending write member bit
  rw [holds.falls_eq member, written, getLsbD_clearable]
  change (_ && (clearDone write.read).getLsbD bit && _) = true ↔ _
  rw [getLsbD_clearDone]
  rw [getLsbD_clearable] at pending
  simp only [Bool.and_eq_true, decide_eq_true_eq] at pending ⊢
  constructor
  · rintro ⟨⟨-, read, notDone⟩, low⟩
    exact ⟨by omega, read⟩
  · rintro ⟨other, read⟩
    have low : bit < 3 := by omega
    exact ⟨⟨pending low read, read, by omega⟩, low⟩

/-- A call that reads a done event and an error clears the error and leaves the done event. -/
theorem clear_done_clears_others_error :
    ∃ state trace, (machine driver).run ⟨3, (), (), none⟩ [.readStatus, .latch statFatal, .writeStatus] =
        some (state, trace) ∧
      state.status.getLsbD 0 = true ∧ ∀ write ∈ writes trace, write.falls 1 = true ∧ write.falls 2 = false := by
  refine ⟨_, _, rfl, ?_⟩
  obtain ⟨done, -, exact⟩ := clear_done_clears_others ⟨3, (), (), none⟩ rfl
    [.readStatus, .latch statFatal, .writeStatus] _ _ rfl
  refine ⟨done (by decide), fun write member => ⟨(exact write member 1).mpr ?_, Bool.eq_false_iff.mpr fun fell => ?_⟩⟩
  · rw [List.mem_singleton.mp member]
    decide
  · have read := ((exact write member 2).mp fell).2
    rw [List.mem_singleton.mp member] at read
    exact absurd read (by decide)

end ClearDone

end Ostep.StatusRegister
