import Mathlib.Algebra.Group.Nat.Defs
import Ostep.Construction.IrqHandler

namespace Ostep.IrqHandler

open Library W1c

theorem Irq.flag_eq (irq : Irq) : irq.flag = BitVec.twoPow 32 irq.bit := by
  cases irq <;> decide

theorem Irq.bit_lt (irq : Irq) : irq.bit < 4 := by
  cases irq <;> decide

/-- A branch is taken when its bit is active. -/
theorem branch_eq (active : Word) (result : IrqEvents × Word) (irq : Irq) :
    branch active result irq =
      if active.getLsbD irq.bit then (result.1.count irq, result.2 ||| irq.flag) else result := by
  have flag := irq.flag_eq
  rw [branch, flag, BitVec.and_twoPow]
  cases active.getLsbD irq.bit with
  | false => rfl
  | true => cases irq <;> rfl

/-- A branch counts its own event. -/
theorem counter_branch (active : Word) (result : IrqEvents × Word) (irq other : Irq) :
    (branch active result other).1.counter irq =
      result.1.counter irq + if irq = other ∧ active.getLsbD other.bit then 1 else 0 := by
  rw [branch_eq]
  cases active.getLsbD other.bit with
  | false => simp
  | true => cases irq <;> cases other <;> simp [IrqEvents.count, IrqEvents.counter]

/-- A branch clears its own bit if it is active. -/
theorem clear_branch (active : Word) (result : IrqEvents × Word) (irq : Irq) :
    (branch active result irq).2 = result.2 ||| (active &&& irq.flag) := by
  rw [branch_eq, irq.flag_eq, BitVec.and_twoPow]
  cases active.getLsbD irq.bit with
  | false => exact BitVec.or_zero.symm
  | true => rfl

/-- The handler counts each active event once. -/
theorem counter_handleIrq (active : Word) (events : IrqEvents) (irq : Irq) :
    (handleIrq active events).1.counter irq = events.counter irq + if active.getLsbD irq.bit then 1 else 0 := by
  simp only [handleIrq, List.foldl_cons, List.foldl_nil, counter_branch]
  cases irq <;> simp

/-- The handler clears the active bits of the four events. -/
theorem getLsbD_clear_handleIrq (active : Word) (events : IrqEvents) (bit : Nat) :
    (handleIrq active events).2.getLsbD bit = (active.getLsbD bit && decide (bit < 4)) := by
  have four : (Irq.fatal.flag ||| Irq.linkDown.flag ||| Irq.error.flag ||| Irq.cmdDone.flag).getLsbD bit =
      decide (bit < 4) := by
    have ones : Irq.fatal.flag ||| Irq.linkDown.flag ||| Irq.error.flag ||| Irq.cmdDone.flag =
        (BitVec.allOnes 4).setWidth 32 := by decide
    rw [ones, BitVec.getLsbD_setWidth, BitVec.getLsbD_allOnes]
    by_cases low : bit < 4
    · simp [low, show bit < 32 by omega]
    · simp [low]
  rw [← four]
  simp only [handleIrq, List.foldl_cons, List.foldl_nil, clear_branch, BitVec.ofNat_eq_ofNat, BitVec.zero_or,
    BitVec.getLsbD_or, BitVec.getLsbD_and, Bool.and_or_distrib_left]

/-- The handler asks for recovery when a fatal event or a lost link is active. -/
theorem needsRecovery_handleIrq (active : Word) (events : IrqEvents) :
    (handleIrq active events).1.needsRecovery =
      (events.needsRecovery || active.getLsbD Irq.fatal.bit || active.getLsbD Irq.linkDown.bit) := by
  simp only [handleIrq, List.foldl_cons, List.foldl_nil, branch_eq]
  cases active.getLsbD Irq.fatal.bit <;> cases active.getLsbD Irq.linkDown.bit <;>
    cases active.getLsbD Irq.error.bit <;> cases active.getLsbD Irq.cmdDone.bit <;>
    simp [IrqEvents.count]

variable {regs : IrqRegs} {start : IrqEvents} {trace : List (Event 32 Word)} {state : State 32 Word IrqEvents}

/-- The status has no bits that only the hardware drives. -/
theorem getLsbD_clearable {bit : Nat} (inside : bit < 32) : driver.clearable.getLsbD bit = true :=
  (BitVec.getLsbD_allOnes ..).trans (decide_eq_true inside)

/-- The bits that fall at the write of a handler are the events that it found active. -/
theorem falls_write (holds : Holds driver (initial regs start) trace state) {write : Write 32 Word}
    (member : write ∈ writes trace) (bit : Nat) :
    write.falls bit = ((write.read &&& write.mask).getLsbD bit && decide (bit < 4)) := by
  obtain ⟨⟨events, written⟩, -⟩ := holds.written write member
  have clears : write.written.getLsbD bit = ((write.read &&& write.mask).getLsbD bit && decide (bit < 4)) := by
    rw [written]
    exact getLsbD_clear_handleIrq _ events bit
  rw [holds.falls_eq member, clears]
  by_cases set : write.before.getLsbD bit = true
  · simp [set, getLsbD_clearable (BitVec.lt_of_getLsbD set)]
  · have unread : write.read.getLsbD bit = false := by
      refine Bool.eq_false_iff.mpr fun read => set ?_
      exact holds.pending write member bit (getLsbD_clearable (BitVec.lt_of_getLsbD read)) read
    simp [set, unread]

/-- Each bit falls as often as a handler finds its event active. -/
theorem falls_eq (holds : Holds driver (initial regs start) trace state) (irq : Irq) :
    falls irq.bit trace =
      (writes trace).countP fun write => (write.read &&& write.mask).getLsbD irq.bit := by
  rw [holds.falls irq.bit getLsbD_clearable]
  refine List.countP_congr fun write member => ?_
  rw [falls_write holds member, decide_eq_true irq.bit_lt, Bool.and_true]

/-- A bit of no event never falls. -/
theorem falls_high (holds : Holds driver (initial regs start) trace state) {bit : Nat} (high : 4 ≤ bit) :
    falls bit trace = 0 := by
  rw [holds.falls bit getLsbD_clearable, List.countP_eq_zero]
  intro write member
  simp [falls_write holds member, Nat.not_lt.mpr high]

theorem careful_of_holds (holds : Holds driver (initial regs start) trace state) {write : Write 32 Word}
    (member : write ∈ writes trace) : Careful write := by
  intro bit set spared
  by_contra clear
  have fell := falls_write holds member bit
  rw [Write.falls, set, Bool.eq_false_iff.mpr clear, BitVec.getLsbD_and, eq_comm] at fell
  simp only [Bool.not_false, Bool.and_self, Bool.and_eq_true, decide_eq_true_eq] at fell
  rcases spared with unset | masked | outside
  · exact absurd fell.1.1 (by simp [unset])
  · exact absurd fell.1.2 (by simp [masked])
  · omega

/-- In every run each event bit falls as often as its counter is incremented. A handler leaves the bits that were
latched after its read, masked off at its read or belong to no event. Recovery is asked for exactly when a fatal event
or a lost link was counted. -/
theorem irq_clears_counted (regs : IrqRegs) (start : IrqEvents) (schedule : List (Action 32 Word))
    (final : State 32 Word IrqEvents) (trace : List (Event 32 Word))
    (ran : (machine driver).run (initial regs start) schedule = some (final, trace))
    (few : (writes trace).length < 2 ^ 32) :
    (∀ irq : Irq, (final.data.counter irq - start.counter irq).toNat = falls irq.bit trace) ∧
      (∀ write ∈ writes trace, Careful write) ∧ (∀ bit, 4 ≤ bit → falls bit trace = 0) ∧
      (final.data.needsRecovery = true ↔ start.needsRecovery = true ∨
        final.data.fatalCount ≠ start.fatalCount ∨ final.data.linkDownCount ≠ start.linkDownCount) := by
  have holds := run_holds rfl ran
  have counts (irq : Irq) : final.data.counter irq = start.counter irq + BitVec.ofNat 32 (falls irq.bit trace) := by
    rw [holds.data, falls_eq holds irq]
    exact Driver.counter_replay (IrqEvents.counter · irq) (fun status mask => (status &&& mask).getLsbD irq.bit)
      (fun status mask events => counter_handleIrq (status &&& mask) events irq) _ start
  have below (irq : Irq) : falls irq.bit trace < 2 ^ 32 := by
    rw [falls_eq holds irq]
    exact Nat.lt_of_le_of_lt List.countP_le_length few
  have increments (irq : Irq) : (final.data.counter irq - start.counter irq).toNat = falls irq.bit trace := by
    rw [counts, BitVec.add_comm, BitVec.add_sub_cancel, BitVec.toNat_ofNat, Nat.mod_eq_of_lt (below irq)]
  have counted (irq : Irq) : final.data.counter irq ≠ start.counter irq ↔
      ∃ write ∈ writes trace, (write.read &&& write.mask).getLsbD irq.bit = true := by
    rw [← List.countP_pos_iff, ← falls_eq holds irq, counts, Ne, BitVec.add_right_eq_self, Nat.pos_iff_ne_zero]
    refine not_congr ⟨fun zero => ?_, fun zero => by rw [zero]⟩
    have none := congrArg BitVec.toNat zero
    rwa [BitVec.toNat_ofNat, Nat.mod_eq_of_lt (below irq)] at none
  refine ⟨increments, fun write => careful_of_holds holds, fun bit => falls_high holds, ?_⟩
  have recovers : final.data.needsRecovery = (start.needsRecovery ||
      (writes trace).any fun write => (write.read &&& write.mask).getLsbD Irq.fatal.bit ||
        (write.read &&& write.mask).getLsbD Irq.linkDown.bit) := by
    rw [holds.data]
    exact Driver.flag_replay IrqEvents.needsRecovery
      (fun status mask => (status &&& mask).getLsbD Irq.fatal.bit || (status &&& mask).getLsbD Irq.linkDown.bit)
      (fun status mask events => (needsRecovery_handleIrq (status &&& mask) events).trans (Bool.or_assoc ..)) _ start
  have fatal := counted .fatal
  have linkDown := counted .linkDown
  rw [recovers]
  simp only [Bool.or_eq_true, List.any_eq_true, and_or_left, exists_or]
  exact or_congr_right (or_congr fatal.symm linkDown.symm)

/-- A fatal event is masked off and a lost link arrives between the read and the write of a handler. -/
theorem irq_late_link_down :
    ∃ final trace, (machine driver).run (initial ⟨0, 0xB⟩ ⟨0, 0, 0, 0, false⟩)
        [.latch 0x15, .readStatus, .latch 0x8, .writeStatus] = some (final, trace) ∧
      final.status = 0x1C ∧ falls 0 trace = 1 ∧
      (∀ irq : Irq, (final.data.counter irq - 0).toNat = falls irq.bit trace) := by
  refine ⟨_, _, rfl, rfl, rfl, fun irq => ?_⟩
  have counted := (irq_clears_counted ⟨0, 0xB⟩ ⟨0, 0, 0, 0, false⟩ [.latch 0x15, .readStatus, .latch 0x8, .writeStatus]
    _ _ rfl (by decide)).1 irq
  cases irq <;> exact counted

end Ostep.IrqHandler
