import Mathlib.Algebra.BigOperators.Group.List.Defs
import Ostep.Proof.PacketProc.Checksum
import Ostep.Proof.PacketProc.Mirror

namespace Ostep.PacketProc

open Library

/-- The steps of an iteration until an index is taken and its work is done, after those that give the last index. -/
def Pc.rank {Work : Type} (left : Work → Nat) : Pc Work → Nat
  | .loadHead _ => 25
  | .storeSlot _ _ => 24
  | .publishLoad _ => 23
  | .publishStore _ _ => 22
  | .loop => 21
  | .sourceEmpty operands => 18 + operands.missing
  | .targetFull operands => 15 + operands.missing
  | .loadTail => 14
  | .loadSlot _ => 13
  | .advanceLoad _ => 12
  | .advanceStore _ _ => 11
  | .work _ part => left part
  | .finished => 0

/-- The steps until the process is at its loop test or has finished. -/
def Pc.distance {Work : Type} (left : Work → Nat) (pc : Pc Work) : Nat :=
  match pc.stage with
  | .between | .stopped => 0
  | .giving _ => pc.rank left - 21
  | .taking | .working _ _ => pc.rank left + 4

def Fill.left : Fill → Nat
  | .copy position => 4 + (payloadSize - position)
  | .length => 3
  | .timestamp => 2
  | .priority => 1

def Process.left : Process → Nat
  | .sum position => 1 + (payloadSize - position)

/-- The operands that a test has loaded are still the counters of its ring. -/
def Operands.Current (operands : Operands) (ring : Ringbuf) : Prop :=
  (∀ head ∈ operands.head, head = ring.head) ∧ ∀ tail ∈ operands.tail, tail = ring.tail

theorem Operands.start_current (ring : Ringbuf) : Operands.start.Current ring := by
  simp [Operands.Current, Operands.start]

/-- The loaded counters are those of the rings. -/
def Pc.Fresh {Work : Type} (source target : Ringbuf) : Pc Work → Prop
  | .sourceEmpty operands => operands.Current source
  | .targetFull operands => operands.Current target
  | _ => True

/-- The process is at its loop test or has finished. -/
def Pc.Rest {Work : Type} (pc : Pc Work) : Prop := pc = .loop ∨ pc = .finished

theorem Operands.load_current {operands : Operands} {ring : Ringbuf} (headFirst : Bool)
    (current : operands.Current ring) : (operands.load ring headFirst).Current ring := by
  rcases operands with ⟨_ | head, _ | tail⟩ <;> cases headFirst <;>
    simp_all [Operands.load, Operands.Current]

theorem Operands.load_missing {operands : Operands} {ring : Ringbuf} (headFirst : Bool)
    (incomplete : operands.missing ≠ 0) : (operands.load ring headFirst).missing < operands.missing := by
  rcases operands with ⟨_ | head, _ | tail⟩ <;> cases headFirst <;>
    simp_all [Operands.load, Operands.missing]

/-- A ring with a free slot is not full for the mirrored test. -/
theorem ringIsFull_eq_false {ring : Ringbuf} (masked : ring.mask = ringMask) (room : ring.indices.length < bufferSize) :
    ringIsFull ring.head ring.tail = false := by
  have entries : ring.entries = ring.indices.length := (Ring.contents_length ..).symm
  have bounded : ring.Bounded := ⟨masked, by omega⟩
  have unfilled : mirrorFull ring ≠ true := fun full => by
    have all := ((mirrorFull_iff bounded).mp full).1
    omega
  exact Bool.eq_false_of_not_eq_true unfilled

theorem Operands.missing_eq_zero {operands : Operands} (complete : operands.missing = 0) :
    ∃ head tail, operands = ⟨some head, some tail⟩ := by
  rcases operands with ⟨_ | head, _ | tail⟩
  case some.some => exact ⟨head, tail, rfl⟩
  all_goals simp [Operands.missing] at complete

section Forward

variable {Work : Type} {more headFirst : Bool} {begin : Work} {source target : Ringbuf}

theorem moveStep_sourceEmpty {operands : Operands} (incomplete : operands.missing ≠ 0) :
    moveStep more begin headFirst source target (.sourceEmpty operands) =
      some (source, target, .sourceEmpty (operands.load source headFirst)) := by
  rcases operands with ⟨_ | head, _ | tail⟩
  case some.some => exact absurd rfl incomplete
  all_goals rfl

theorem moveStep_targetFull {operands : Operands} (incomplete : operands.missing ≠ 0) :
    moveStep more begin headFirst source target (.targetFull operands) =
      some (source, target, .targetFull (operands.load target headFirst)) := by
  rcases operands with ⟨_ | head, _ | tail⟩
  case some.some => exact absurd rfl incomplete
  all_goals rfl

/-- A process whose tests see the counters of the rings takes an index when there is one, and gives it away. -/
theorem moveStep_forward (left : Work → Nat) {pc : Pc Work} (fresh : pc.Fresh source target)
    (idle : ∀ index part, pc ≠ .work index part) (running : pc ≠ .finished)
    (continues : pc.stage = .between → more = true) (nonempty : pc.stage = .taking → source.indices ≠ [])
    (masked : target.mask = ringMask) (room : pc.stage = .taking → target.indices.length < bufferSize)
    (short : left begin ≤ 10) :
    ∃ source' target' pc', moveStep more begin headFirst source target pc = some (source', target', pc') ∧
      pc'.Fresh source' target' ∧ pc'.rank left < pc.rank left ∧ (pc'.stage = .taking → source' = source) := by
  cases pc with
  | loop =>
      refine ⟨source, target, .sourceEmpty .start, ?_, Operands.start_current source, Nat.le_refl 21, fun _ => rfl⟩
      simp only [moveStep, continues rfl, if_true]
  | sourceEmpty operands =>
      by_cases complete : operands.missing = 0
      · obtain ⟨head, tail, rfl⟩ := Operands.missing_eq_zero complete
        obtain rfl : head = source.head := fresh.1 head rfl
        obtain rfl : tail = source.tail := fresh.2 tail rfl
        have filled : ringIsEmpty source.head source.tail = false :=
          beq_eq_false_iff_ne.mpr (Ringbuf.head_ne_tail (nonempty rfl))
        refine ⟨source, target, .targetFull .start, ?_, Operands.start_current target, Nat.le_refl 18, fun _ => rfl⟩
        simp only [moveStep, filled, Bool.false_eq_true, if_false]
      · exact ⟨source, target, _, moveStep_sourceEmpty complete, Operands.load_current headFirst fresh,
          Nat.add_lt_add_left (Operands.load_missing headFirst complete) 18, fun _ => rfl⟩
  | targetFull operands =>
      by_cases complete : operands.missing = 0
      · obtain ⟨head, tail, rfl⟩ := Operands.missing_eq_zero complete
        obtain rfl : head = target.head := fresh.1 head rfl
        obtain rfl : tail = target.tail := fresh.2 tail rfl
        refine ⟨source, target, .loadTail, ?_, trivial, Nat.le_refl 15, fun _ => rfl⟩
        simp only [moveStep, ringIsFull_eq_false masked (room rfl), Bool.false_eq_true, if_false]
      · exact ⟨source, target, _, moveStep_targetFull complete, Operands.load_current headFirst fresh,
          Nat.add_lt_add_left (Operands.load_missing headFirst complete) 15, fun _ => rfl⟩
  | advanceStore index tail => exact ⟨_, _, _, rfl, trivial, Nat.lt_succ_of_le short, fun taking => by cases taking⟩
  | work index part => exact absurd rfl (idle index part)
  | finished => exact absurd rfl running
  | _ => exact ⟨_, _, _, rfl, trivial, Nat.lt_succ_self _, fun _ => rfl⟩

/-- Without other steps in between, a process comes back to its loop test. -/
theorem moveStep_distance (left : Work → Nat) {pc : Pc Work} (idle : ∀ index part, pc ≠ .work index part)
    (busy : ¬pc.Rest) (short : left begin ≤ 10) :
    ∃ source' target' pc', moveStep more begin headFirst source target pc = some (source', target', pc') ∧
      pc'.distance left < pc.distance left := by
  have some : (moveStep more begin headFirst source target pc).isSome := by
    cases pc with
    | work index part => exact absurd rfl (idle index part)
    | finished => exact absurd (Or.inr rfl) busy
    | sourceEmpty operands | targetFull operands => rcases operands with ⟨_ | head, _ | tail⟩ <;> rfl
    | _ => rfl
  obtain ⟨⟨source', target', pc'⟩, stepped⟩ := Option.isSome_iff_exists.mp some
  refine ⟨source', target', pc', stepped, ?_⟩
  cases moveStep_moved stepped with
  | enter continues => exact absurd (Or.inl rfl) busy
  | stop ends => exact absurd (Or.inl rfl) busy
  | loadSource incomplete =>
      exact Nat.add_lt_add_right (Nat.add_lt_add_left (Operands.load_missing headFirst incomplete) 18) 4
  | loadTarget incomplete =>
      exact Nat.add_lt_add_right (Nat.add_lt_add_left (Operands.load_missing headFirst incomplete) 15) 4
  | empty tested | full tested => exact Nat.succ_pos _
  | advanceStore index tail => exact Nat.add_lt_add_right (Nat.lt_succ_of_le short) 4
  | _ => exact Nat.lt_succ_self _

end Forward

variable {file : List PacketPayload} {expected : Word} {state next : State} {events : List Event}

/-- What every reachable state satisfies. -/
structure Live (file : List PacketPayload) (expected : Word) (state : State) : Prop where
  owned : Owned state
  summed : ∃ trace, Summed file expected trace state

theorem Live.step (live : Live file expected state) {action : Action}
    (stepped : (machine file expected).step state action = some (next, events)) : Live file expected next := by
  obtain ⟨trace, summed⟩ := live.summed
  exact ⟨live.owned.step stepped, _, summed.step live.owned stepped⟩

theorem producerStep_of_moveStep {headFirst : Bool} {clock : BitVec 64} {free ready : Ringbuf} {pc : Pc Fill}
    (idle : ∀ index part, state.producer.pc ≠ .work index part)
    (moved : moveStep (state.producer.curr < file.length) (.copy 0) headFirst state.freeRing state.readyRing
      state.producer.pc = some (free, ready, pc)) :
    ∃ events, (machine file expected).step state (.producer headFirst clock) =
      some ({ state with freeRing := free, readyRing := ready, producer := { state.producer with pc := pc } },
        events) := by
  generalize current : state.producer.pc = before at moved idle
  cases before with
  | work index part => exact absurd rfl (idle index part)
  | _ =>
      simp only [machine, producerStep, current, moved, Option.map_some]
      exact ⟨_, rfl⟩

theorem consumerStep_of_moveStep {headFirst : Bool} {free ready : Ringbuf} {pc : Pc Process}
    (idle : ∀ index part, state.consumer.pc ≠ .work index part)
    (moved : moveStep (state.consumer.packetCount < expected) (.sum 0) headFirst state.readyRing state.freeRing
      state.consumer.pc = some (ready, free, pc)) :
    (machine file expected).step state (.consumer headFirst) =
      some ({ state with freeRing := free, readyRing := ready, consumer := { state.consumer with pc := pc } }, []) := by
  generalize current : state.consumer.pc = before at moved idle
  cases before with
  | work index part => exact absurd rfl (idle index part)
  | _ => simp only [machine, consumerStep, current, moved, Option.map_some]

/-- The steps that are left of the producer. -/
def State.producerWork (file : List PacketPayload) (state : State) : Nat :=
  25 * (file.length - state.producer.curr) + state.producer.pc.rank Fill.left

/-- The steps that are left of the consumer. -/
def State.consumerWork (expected : Word) (state : State) : Nat :=
  25 * (expected.toNat - state.consumer.packetCount.toNat) + state.consumer.pc.rank Process.left

/-- Each store is one of the steps that are left. -/
theorem fillStep_left (record : PacketPayload) (clock : BitVec 64) (index : Word) (packet : Packet) (part : Fill)
    {curr : Nat} (inside : curr < file.length) :
    25 * (file.length - part.advance curr) + (fillStep record clock index packet part).2.1.rank Fill.left <
        25 * (file.length - curr) + part.left ∧
      (fillStep record clock index packet part).2.1.distance Fill.left < part.left + 4 := by
  cases part with
  | copy position =>
      by_cases more : position < record.len.toNat
      · have within : position < payloadSize := record.lenExact ▸ more
        simp only [fillStep, dif_pos more, Pc.rank, Pc.distance, Pc.stage, Fill.left, Fill.advance]
        omega
      · simp only [fillStep, dif_neg more, Pc.rank, Pc.distance, Pc.stage, Fill.left, Fill.advance]
        omega
  | priority =>
      simp only [fillStep, Pc.rank, Pc.distance, Pc.stage, Fill.left, Fill.advance]
      omega
  | _ =>
      simp only [fillStep, Pc.rank, Pc.distance, Pc.stage, Fill.left, Fill.advance]
      omega

theorem fillStep_stage (record : PacketPayload) (clock : BitVec 64) (index : Word) (packet : Packet) (part : Fill)
    (source target : Ringbuf) :
    (fillStep record clock index packet part).2.1.Fresh source target ∧
      (fillStep record clock index packet part).2.1.stage ≠ .taking := by
  cases part with
  | copy position =>
      simp only [fillStep]
      split <;> exact ⟨trivial, fun taking => by cases taking⟩
  | _ => exact ⟨trivial, fun taking => by cases taking⟩

/-- The producer goes on with its work. -/
theorem Live.exists_fill (live : Live file expected state) {index : Word} {part : Fill}
    (working : state.producer.pc = .work index part) :
    ∃ next events, (machine file expected).step state (.producer true 0) = some (next, events) ∧
      next.producer.pc.Fresh next.freeRing next.readyRing ∧ next.producer.pc.stage ≠ .taking ∧
      next.producerWork file < state.producerWork file ∧
      next.producer.pc.distance Fill.left < state.producer.pc.distance Fill.left ∧ next.consumer = state.consumer := by
  obtain ⟨trace, summed⟩ := live.summed
  have produces := summed.produces
  rw [working] at produces
  obtain ⟨current, record, found, -⟩ := produces
  rw [← current] at found
  have inside : state.producer.curr < file.length := (List.getElem?_eq_some_iff.mp found).1
  obtain ⟨less, closer⟩ := fillStep_left record 0 index (state.packetBuf index) part inside
  obtain ⟨fresh, going⟩ := fillStep_stage record 0 index (state.packetBuf index) part state.freeRing state.readyRing
  have stepped : (machine file expected).step state (.producer true 0) = some ({ state with
      packetBuf := Function.update state.packetBuf index (fillStep record 0 index (state.packetBuf index) part).1
      producer := ⟨part.advance state.producer.curr, (fillStep record 0 index (state.packetBuf index) part).2.1⟩ },
        (fillStep record 0 index (state.packetBuf index) part).2.2) := by
    simp only [machine, producerStep, working, found, Option.map_some]
    cases part <;> rfl
  refine ⟨_, _, stepped, fresh, going, ?_, ?_, rfl⟩
  · simpa only [State.producerWork, working, Pc.rank] using less
  · simpa only [working, Pc.distance, Pc.stage, Pc.rank] using closer

/-- The consumer goes on with its work. -/
theorem Live.exists_process (live : Live file expected state) {index : Word} {position : Nat}
    (working : state.consumer.pc = .work index (.sum position)) :
    ∃ next events, (machine file expected).step state (.consumer true) = some (next, events) ∧
      next.consumer.pc.Fresh next.readyRing next.freeRing ∧ next.consumer.pc.stage ≠ .taking ∧
      next.consumerWork expected < state.consumerWork expected ∧
      next.consumer.pc.distance Process.left < state.consumer.pc.distance Process.left ∧
      next.producer = state.producer := by
  obtain ⟨trace, summed⟩ := live.summed
  by_cases inside : position < payloadSize
  · have stepped : (machine file expected).step state (.consumer true) = some ({ state with
        consumer := { state.consumer with
          checksum := state.consumer.checksum + ((state.packetBuf index).payload ⟨position, inside⟩).setWidth 64
          pc := .work index (.sum (position + 1)) } },
        [.loaded index ⟨position, inside⟩ ((state.packetBuf index).payload ⟨position, inside⟩)]) := by
      simp only [machine, consumerStep, working, dif_pos inside]
    refine ⟨_, _, stepped, trivial, nofun, ?_, ?_, rfl⟩
    · simp only [State.consumerWork, working, Pc.rank, Process.left]
      omega
    · simp only [working, Pc.distance, Pc.stage, Pc.rank, Process.left]
      omega
  · have stepped : (machine file expected).step state (.consumer true) = some ({ state with
        consumer := { state.consumer with
          packetCount := state.consumer.packetCount + 1
          pc := .loadHead index } }, []) := by
      simp only [machine, consumerStep, working, dif_neg inside]
    have below : state.consumer.packetCount.toNat < expected.toNat := by
      have consumes := summed.consumes
      rw [working] at consumes
      exact BitVec.lt_def.mp consumes
    have bound := expected.isLt
    have counted : (state.consumer.packetCount + 1).toNat = state.consumer.packetCount.toNat + 1 := by
      rw [BitVec.toNat_add, show (1 : Word).toNat = 1 from rfl]
      exact Nat.mod_eq_of_lt (by omega)
    refine ⟨_, _, stepped, trivial, nofun, ?_, ?_, rfl⟩
    · simp only [State.consumerWork, working, Pc.rank, Process.left, counted]
      omega
    · simp only [working, Pc.distance, Pc.stage, Pc.rank, Process.left]
      omega

/-- The producer can go back to its loop test. -/
theorem Live.exists_producer_back (live : Live file expected state) (busy : ¬state.producer.pc.Rest) :
    ∃ next events, (machine file expected).step state (.producer true 0) = some (next, events) ∧
      next.producer.pc.distance Fill.left < state.producer.pc.distance Fill.left ∧ next.consumer = state.consumer := by
  by_cases working : ∃ index part, state.producer.pc = .work index part
  · obtain ⟨index, part, working⟩ := working
    obtain ⟨next, events, stepped, -, -, -, closer, same⟩ := live.exists_fill working
    exact ⟨next, events, stepped, closer, same⟩
  · have idle (index : Word) (part : Fill) : state.producer.pc ≠ .work index part :=
      fun same => working ⟨index, part, same⟩
    have ⟨free, ready, pc, moved, closer⟩ : ∃ free ready pc,
        moveStep (state.producer.curr < file.length) (.copy 0) true state.freeRing state.readyRing state.producer.pc =
          some (free, ready, pc) ∧ pc.distance Fill.left < state.producer.pc.distance Fill.left :=
      moveStep_distance Fill.left idle busy (by decide)
    obtain ⟨events, stepped⟩ := producerStep_of_moveStep idle moved
    exact ⟨_, events, stepped, closer, rfl⟩

/-- The consumer can go back to its loop test. -/
theorem Live.exists_consumer_back (live : Live file expected state) (busy : ¬state.consumer.pc.Rest) :
    ∃ next events, (machine file expected).step state (.consumer true) = some (next, events) ∧
      next.consumer.pc.distance Process.left < state.consumer.pc.distance Process.left ∧
      next.producer = state.producer := by
  by_cases working : ∃ index part, state.consumer.pc = .work index part
  · obtain ⟨index, ⟨position⟩, working⟩ := working
    obtain ⟨next, events, stepped, -, -, -, closer, same⟩ := live.exists_process working
    exact ⟨next, events, stepped, closer, same⟩
  · have idle (index : Word) (part : Process) : state.consumer.pc ≠ .work index part :=
      fun same => working ⟨index, part, same⟩
    have ⟨ready, free, pc, moved, closer⟩ : ∃ ready free pc,
        moveStep (state.consumer.packetCount < expected) (.sum 0) true state.readyRing state.freeRing
          state.consumer.pc = some (ready, free, pc) ∧
        pc.distance Process.left < state.consumer.pc.distance Process.left :=
      moveStep_distance Process.left idle busy (by decide)
    exact ⟨_, [], consumerStep_of_moveStep idle moved, closer, rfl⟩

/-- Both processes can go back to their loop tests. -/
theorem Live.exists_rest (live : Live file expected state) :
    ∃ schedule final trace, (machine file expected).run state schedule = some (final, trace) ∧
      Live file expected final ∧ final.producer.pc.Rest ∧ final.consumer.pc.Rest := by
  refine (machine file expected).exists_run_until (Live file expected)
    (fun state => state.producer.pc.Rest ∧ state.consumer.pc.Rest)
    (fun state => state.producer.pc.distance Fill.left + state.consumer.pc.distance Process.left)
    (fun state live busy => ?_) live
  by_cases producing : state.producer.pc.Rest
  · have consuming : ¬state.consumer.pc.Rest := fun rest => busy ⟨producing, rest⟩
    obtain ⟨next, events, stepped, closer, same⟩ := live.exists_consumer_back consuming
    exact ⟨_, next, events, stepped, live.step stepped, by rw [same]; omega⟩
  · obtain ⟨next, events, stepped, closer, same⟩ := live.exists_producer_back producing
    exact ⟨_, next, events, stepped, live.step stepped, by rw [same]; omega⟩

theorem Stage.Moves.before_taking {Work : Type} {more : Bool} {begin : Work} {before : Stage Work} {given : List Word}
    (moves : Stage.Moves more begin before given .taking) : before = .between ∨ before = .taking := by
  cases moves with
  | enter => exact Or.inl rfl
  | stay => exact Or.inr rfl

/-- The producer alone comes closer to the end of the file while it finds free packets. -/
theorem Live.exists_producer_forward (live : Live file expected state)
    (fresh : state.producer.pc.Fresh state.freeRing state.readyRing) (running : state.producer.pc ≠ .finished)
    (continues : state.producer.pc.stage = .between → state.producer.curr < file.length)
    (available : state.producer.pc.stage = .between ∨ state.producer.pc.stage = .taking →
      state.freeRing.indices ≠ []) :
    ∃ next events, (machine file expected).step state (.producer true 0) = some (next, events) ∧
      next.producer.pc.Fresh next.freeRing next.readyRing ∧
      (next.producer.pc.stage = .taking → next.freeRing.indices ≠ []) ∧
      next.producerWork file < state.producerWork file ∧ next.consumer = state.consumer := by
  by_cases working : ∃ index part, state.producer.pc = .work index part
  · obtain ⟨index, part, working⟩ := working
    obtain ⟨next, events, stepped, still, going, less, -, same⟩ := live.exists_fill working
    exact ⟨next, events, stepped, still, fun taking => absurd taking going, less, same⟩
  · have idle (index : Word) (part : Fill) : state.producer.pc ≠ .work index part :=
      fun same => working ⟨index, part, same⟩
    have room (taking : state.producer.pc.stage = .taking) : state.readyRing.indices.length < bufferSize := by
      have total := live.owned.total
      have positive := List.length_pos_iff.mpr (available (Or.inr taking))
      omega
    have ⟨free, ready, pc, moved, still, less, same⟩ : ∃ free ready pc,
        moveStep (state.producer.curr < file.length) (.copy 0) true state.freeRing state.readyRing state.producer.pc =
          some (free, ready, pc) ∧ pc.Fresh free ready ∧
        pc.rank Fill.left < state.producer.pc.rank Fill.left ∧ (pc.stage = .taking → free = state.freeRing) :=
      moveStep_forward Fill.left fresh idle running (fun loop => decide_eq_true (continues loop))
        (fun taking => available (Or.inr taking)) live.owned.readyMask room (by decide)
    obtain ⟨events, stepped⟩ := producerStep_of_moveStep idle moved
    refine ⟨_, events, stepped, still, fun taking => ?_, Nat.add_lt_add_left less _, rfl⟩
    have moves := moveStep_moves moved
    rw [taking] at moves
    simp only [same taking]
    exact available moves.before_taking

/-- The consumer alone comes closer to the expected number while it finds published packets. -/
theorem Live.exists_consumer_forward (live : Live file expected state)
    (fresh : state.consumer.pc.Fresh state.readyRing state.freeRing) (running : state.consumer.pc ≠ .finished)
    (continues : state.consumer.pc.stage = .between → state.consumer.packetCount < expected)
    (available : state.consumer.pc.stage = .between ∨ state.consumer.pc.stage = .taking →
      state.readyRing.indices ≠ []) :
    ∃ next events, (machine file expected).step state (.consumer true) = some (next, events) ∧
      next.consumer.pc.Fresh next.readyRing next.freeRing ∧
      (next.consumer.pc.stage = .taking → next.readyRing.indices ≠ []) ∧
      next.consumerWork expected < state.consumerWork expected ∧ next.producer = state.producer := by
  by_cases working : ∃ index part, state.consumer.pc = .work index part
  · obtain ⟨index, ⟨position⟩, working⟩ := working
    obtain ⟨next, events, stepped, still, going, less, -, same⟩ := live.exists_process working
    exact ⟨next, events, stepped, still, fun taking => absurd taking going, less, same⟩
  · have idle (index : Word) (part : Process) : state.consumer.pc ≠ .work index part :=
      fun same => working ⟨index, part, same⟩
    have room (taking : state.consumer.pc.stage = .taking) : state.freeRing.indices.length < bufferSize := by
      have total := live.owned.total
      have positive := List.length_pos_iff.mpr (available (Or.inr taking))
      omega
    have ⟨ready, free, pc, moved, still, less, same⟩ : ∃ ready free pc,
        moveStep (state.consumer.packetCount < expected) (.sum 0) true state.readyRing state.freeRing
          state.consumer.pc = some (ready, free, pc) ∧ pc.Fresh ready free ∧
        pc.rank Process.left < state.consumer.pc.rank Process.left ∧ (pc.stage = .taking → ready = state.readyRing) :=
      moveStep_forward Process.left fresh idle running (fun loop => decide_eq_true (continues loop))
        (fun taking => available (Or.inr taking)) live.owned.freeMask room (by decide)
    refine ⟨_, [], consumerStep_of_moveStep idle moved, still, fun taking => ?_, Nat.add_lt_add_left less _, rfl⟩
    have moves := moveStep_moves moved
    rw [taking] at moves
    simp only [same taking]
    exact available moves.before_taking

/-- One process goes forward while the other one is at its loop test. -/
inductive Turn (state : State) : Prop where
  | producer (fresh : state.producer.pc.Fresh state.freeRing state.readyRing)
      (available : state.producer.pc.stage = .taking → state.freeRing.indices ≠ []) (rest : state.consumer.pc.Rest)
  | consumer (fresh : state.consumer.pc.Fresh state.readyRing state.freeRing)
      (available : state.consumer.pc.stage = .taking → state.readyRing.indices ≠ []) (rest : state.producer.pc.Rest)

theorem Pc.Rest.turn {Work : Type} {pc : Pc Work} (rest : pc.Rest) (source target : Ringbuf) :
    pc.Fresh source target ∧ pc.stage ≠ .taking := by
  rcases rest with rfl | rfl
  · exact ⟨trivial, nofun⟩
  · exact ⟨trivial, nofun⟩

theorem Pc.rest_of_between {Work : Type} {pc : Pc Work} (between : pc.stage = .between) : pc.Rest := by
  cases pc with
  | loop => exact Or.inl rfl
  | _ => cases between

/-- Without published packets the producer is not at the end of the file and finds free packets. -/
theorem Live.producer_continues (live : Live file expected state) (enough : expected.toNat ≤ file.length)
    (produced : state.producer.pc.Rest) (consumed : state.consumer.pc.Rest)
    (more : state.consumer.packetCount < expected) (empty : state.readyRing.indices = []) :
    state.producer.pc ≠ .finished ∧ state.producer.curr < file.length ∧ state.freeRing.indices ≠ [] := by
  obtain ⟨trace, summed⟩ := live.summed
  have below := BitVec.lt_def.mp more
  have total := live.owned.total
  have counted := summed.counted
  have produces := summed.produces
  rw [empty, List.length_nil] at total counted
  have idle : state.consumer.pc.stage.uncounted = 0 ∧ state.consumer.pc.held.length = 0 := by
    rcases consumed with loop | loop <;> rw [loop] <;> exact ⟨rfl, rfl⟩
  have free : state.producer.pc.held.length = 0 := by
    rcases produced with loop | loop <;> rw [loop] <;> rfl
  have positive : 0 < state.freeRing.indices.length := by
    rw [idle.2, free] at total
    have capacity : 0 < bufferSize := by decide
    omega
  rcases produced with loop | loop
  · rw [loop] at produces ⊢
    have current : state.producer.curr = (published trace).length := produces
    exact ⟨nofun, by omega, List.length_pos_iff.mp positive⟩
  · rw [loop] at produces
    have ended := produces.2
    omega

/-- From their loop tests, the consumer or the producer goes on. -/
theorem Live.exists_turn_of_rest (live : Live file expected state) (enough : expected.toNat ≤ file.length)
    (produced : state.producer.pc.Rest) (consumed : state.consumer.pc.Rest) (running : state.consumer.pc ≠ .finished) :
    ∃ action next events, (machine file expected).step state action = some (next, events) ∧ Turn next ∧
      next.producerWork file + next.consumerWork expected < state.producerWork file + state.consumerWork expected := by
  by_cases more : state.consumer.packetCount < expected
  · by_cases empty : state.readyRing.indices = []
    · obtain ⟨still, continues, available⟩ := live.producer_continues enough produced consumed more empty
      obtain ⟨next, events, stepped, fresh, nonempty, less, same⟩ := live.exists_producer_forward
        (produced.turn _ _).1 still (fun _ => continues) fun _ => available
      refine ⟨_, next, events, stepped, .producer fresh nonempty (same ▸ consumed), ?_⟩
      rw [State.consumerWork, same, ← State.consumerWork]
      exact Nat.add_lt_add_right less _
    · obtain ⟨next, events, stepped, fresh, nonempty, less, same⟩ := live.exists_consumer_forward
        (consumed.turn _ _).1 running (fun _ => more) fun _ => empty
      refine ⟨_, next, events, stepped, .consumer fresh nonempty (same ▸ produced), ?_⟩
      rw [State.producerWork, same, ← State.producerWork]
      exact Nat.add_lt_add_left less _
  · have loop : state.consumer.pc = .loop := consumed.resolve_right running
    have idle (index : Word) (part : Process) : state.consumer.pc ≠ .work index part := by simp [loop]
    have moved : moveStep (state.consumer.packetCount < expected) (.sum 0) true state.readyRing state.freeRing
        state.consumer.pc = some (state.readyRing, state.freeRing, .finished) := by
      simp [loop, moveStep, more]
    refine ⟨_, _, _, consumerStep_of_moveStep idle moved,
      .consumer trivial (fun taking => by cases taking) produced, ?_⟩
    simp only [State.producerWork, State.consumerWork, loop, Pc.rank]
    omega

/-- The consumer can finish when the file has the expected number of records. -/
theorem Live.exists_finished (live : Live file expected state) (enough : expected.toNat ≤ file.length) :
    ∃ schedule final trace, (machine file expected).run state schedule = some (final, trace) ∧
      final.consumer.pc = .finished := by
  obtain ⟨back, middle, early, returned, again, produced, consumed⟩ := live.exists_rest
  have ⟨forth, final, late, ran, _, finished⟩ := (machine file expected).exists_run_until
    (fun state => Live file expected state ∧ Turn state) (fun state => state.consumer.pc = .finished)
    (fun state => state.producerWork file + state.consumerWork expected) (fun state holds running => ?_)
    ⟨again, .consumer (consumed.turn _ _).1 (fun taking => absurd taking (consumed.turn middle.readyRing
      middle.freeRing).2) produced⟩
  · exact ⟨back ++ forth, final, early ++ late, (machine file expected).run_append returned ran, finished⟩
  obtain ⟨live, turn⟩ := holds
  cases turn with
  | producer fresh available rest =>
      by_cases produced : state.producer.pc.Rest
      · obtain ⟨action, next, events, stepped, turn, less⟩ := live.exists_turn_of_rest enough produced rest running
        exact ⟨action, next, events, stepped, ⟨live.step stepped, turn⟩, less⟩
      · have inside (between : state.producer.pc.stage = .between) : False := produced (Pc.rest_of_between between)
        obtain ⟨next, events, stepped, still, nonempty, less, same⟩ := live.exists_producer_forward fresh
          (fun ended => produced (Or.inr ended)) (fun between => (inside between).elim)
          (Or.rec (fun between => (inside between).elim) available)
        refine ⟨_, next, events, stepped, ⟨live.step stepped, .producer still nonempty (same ▸ rest)⟩, ?_⟩
        rw [State.consumerWork, same, ← State.consumerWork]
        exact Nat.add_lt_add_right less _
  | consumer fresh available rest =>
      by_cases consumed : state.consumer.pc.Rest
      · obtain ⟨action, next, events, stepped, turn, less⟩ := live.exists_turn_of_rest enough rest consumed running
        exact ⟨action, next, events, stepped, ⟨live.step stepped, turn⟩, less⟩
      · have inside (between : state.consumer.pc.stage = .between) : False := consumed (Pc.rest_of_between between)
        obtain ⟨next, events, stepped, still, nonempty, less, same⟩ := live.exists_consumer_forward fresh running
          (fun between => (inside between).elim) (Or.rec (fun between => (inside between).elim) available)
        refine ⟨_, next, events, stepped, ⟨live.step stepped, .consumer still nonempty (same ▸ rest)⟩, ?_⟩
        rw [State.producerWork, same, ← State.producerWork]
        exact Nat.add_lt_add_left less _

end Ostep.PacketProc
