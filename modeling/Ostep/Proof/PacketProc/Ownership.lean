import Ostep.Proof.PacketProc.Move
import Mathlib.Data.List.Perm.Basic
import Mathlib.Data.List.Nodup

namespace Ostep.PacketProc
open Library List

/-- The packet buffers have the indices below `BUFFER_SIZE`. -/
def allIndices : List Word := (List.range bufferSize).map (BitVec.ofNat 32)

theorem allIndices_length : allIndices.length = bufferSize := by simp [allIndices]

theorem allIndices_nodup : allIndices.Nodup := by
  apply (List.nodup_range).map_on
  intro left leftMember right rightMember same
  have values := congrArg BitVec.toNat same
  have leftBound := List.mem_range.mp leftMember
  have rightBound := List.mem_range.mp rightMember
  simp only [bufferSize] at leftBound rightBound
  rwa [BitVec.toNat_ofNat, BitVec.toNat_ofNat, Nat.mod_eq_of_lt (by omega), Nat.mod_eq_of_lt (by omega)]
    at values

/-- The two rings and the two processes own disjoint parts of the packet buffers. -/
structure Owned (state : State) : Prop where
  freeMask : state.freeRing.mask = ringMask
  readyMask : state.readyRing.mask = ringMask
  producerSound : state.producer.pc.Sound state.freeRing state.readyRing
  consumerSound : state.consumer.pc.Sound state.readyRing state.freeRing
  partition : (state.freeRing.indices ++ state.producer.pc.held ++
    (state.consumer.pc.held ++ state.readyRing.indices)).Perm allIndices

/-- The four parts together have one entry for each packet buffer. -/
theorem Owned.total {state : State} (owned : Owned state) :
    state.freeRing.indices.length + state.producer.pc.held.length +
      (state.consumer.pc.held.length + state.readyRing.indices.length) = bufferSize := by
  have lengths := owned.partition.length_eq
  simpa only [List.length_append, allIndices_length] using lengths

/-- A ring has room for every index that a process holds. -/
theorem Owned.producer_room {state : State} (owned : Owned state) (holds : state.producer.pc.held ≠ []) :
    state.readyRing.indices.length < bufferSize := by
  have total := owned.total
  have positive := List.length_pos_iff.mpr holds
  omega

theorem Owned.consumer_room {state : State} (owned : Owned state) (holds : state.consumer.pc.held ≠ []) :
    state.freeRing.indices.length < bufferSize := by
  have total := owned.total
  have positive := List.length_pos_iff.mpr holds
  omega

/-- The producer's index is neither in the ready ring nor in the consumer's hands. -/
theorem Owned.producer_apart {state : State} (owned : Owned state) {index : Word}
    (held : index ∈ state.producer.pc.held) :
    index ∉ state.consumer.pc.held ++ state.readyRing.indices := by
  have distinct := owned.partition.nodup_iff.mpr allIndices_nodup
  exact fun other => (List.disjoint_of_nodup_append distinct) (List.mem_append_right _ held) other

/-- A producer step fills a packet or moves its index. -/
theorem producerStep_cases {file : List PacketPayload} {headFirst : Bool} {clock : BitVec 64}
    {state next : State} {events : List Event}
    (stepped : producerStep file headFirst clock state = some (next, events)) :
    (∃ index part record packet pc curr, state.producer.pc = .work index part ∧
      fillStep record clock index (state.packetBuf index) part = (packet, pc, events) ∧
      next = { state with
        packetBuf := Function.update state.packetBuf index packet
        producer := { curr, pc } }) ∨
    ∃ free ready pc,
      moveStep (state.producer.curr < file.length) (.copy 0) headFirst state.freeRing state.readyRing
        state.producer.pc = some (free, ready, pc) ∧
      next = { state with
        freeRing := free, readyRing := ready, producer := { state.producer with pc := pc } } ∧
      events = state.producer.pc.given.map fun index => .published index (state.packetBuf index) := by
  unfold producerStep at stepped
  split at stepped
  · rename_i index part working
    simp only [Option.map_eq_some_iff, Prod.mk.injEq] at stepped
    obtain ⟨record, -, rfl, rfl⟩ := stepped
    exact .inl ⟨index, part, record, _, _, _, working, rfl, rfl⟩
  · rename_i moving
    simp only [Option.map_eq_some_iff, Prod.mk.injEq, Prod.exists] at stepped
    obtain ⟨free, ready, pc, moved, rfl, rfl⟩ := stepped
    refine .inr ⟨free, ready, pc, moved, rfl, ?_⟩
    cases state.producer.pc <;> rfl

/-- A consumer step reads a payload byte, ends a packet, or moves its index. -/
theorem consumerStep_cases {expected : Word} {headFirst : Bool} {state next : State} {events : List Event}
    (stepped : consumerStep expected headFirst state = some (next, events)) :
    (∃ index position, ∃ inside : position < payloadSize,
      state.consumer.pc = .work index (.sum position) ∧
      next = { state with consumer := { state.consumer with
        checksum := state.consumer.checksum +
          ((state.packetBuf index).payload ⟨position, inside⟩).setWidth 64
        pc := .work index (.sum (position + 1)) } } ∧
      events = [.loaded index ⟨position, inside⟩ ((state.packetBuf index).payload ⟨position, inside⟩)]) ∨
    (∃ index position, payloadSize ≤ position ∧ state.consumer.pc = .work index (.sum position) ∧
      next = { state with consumer := { state.consumer with
        packetCount := state.consumer.packetCount + 1
        pc := .loadHead index } } ∧ events = []) ∨
    ∃ free ready pc,
      moveStep (state.consumer.packetCount < expected) (.sum 0) headFirst state.readyRing state.freeRing
        state.consumer.pc = some (ready, free, pc) ∧
      next = { state with
        freeRing := free, readyRing := ready, consumer := { state.consumer with pc := pc } } ∧
      events = [] := by
  unfold consumerStep at stepped
  split at stepped
  · rename_i index position working
    split at stepped
    · rename_i inside
      simp only [Option.some.injEq, Prod.mk.injEq] at stepped
      obtain ⟨rfl, rfl⟩ := stepped
      exact .inl ⟨index, position, inside, working, rfl, rfl⟩
    · rename_i outside
      simp only [Option.some.injEq, Prod.mk.injEq] at stepped
      obtain ⟨rfl, rfl⟩ := stepped
      exact .inr (.inl ⟨index, position, Nat.le_of_not_lt outside, working, rfl, rfl⟩)
  · simp only [Option.map_eq_some_iff, Prod.mk.injEq, Prod.exists] at stepped
    obtain ⟨ready, free, pc, moved, rfl, rfl⟩ := stepped
    exact .inr (.inr ⟨free, ready, pc, moved, rfl, rfl⟩)

/-- A fill step keeps its index and only stores into the packet of that index. -/
theorem fillStep_held {record : PacketPayload} {clock : BitVec 64} {index : Word} {packet packet' : Packet}
    {part : Fill} {pc : Pc Fill} {events : List Event} (source target : Ringbuf)
    (filled : fillStep record clock index packet part = (packet', pc, events)) :
    pc.held = [index] ∧ pc.Sound source target ∧
      (events = [.stored index] ∨ events = [] ∧ packet' = packet) := by
  cases part with
  | copy position =>
      simp only [fillStep] at filled
      split at filled
      · simp only [Prod.mk.injEq] at filled
        obtain ⟨-, rfl, rfl⟩ := filled
        exact ⟨rfl, trivial, .inl rfl⟩
      · simp only [Prod.mk.injEq] at filled
        obtain ⟨rfl, rfl, rfl⟩ := filled
        exact ⟨rfl, trivial, .inr ⟨rfl, rfl⟩⟩
  | length =>
      simp only [fillStep, Prod.mk.injEq] at filled
      obtain ⟨-, rfl, rfl⟩ := filled
      exact ⟨rfl, trivial, .inl rfl⟩
  | timestamp =>
      simp only [fillStep, Prod.mk.injEq] at filled
      obtain ⟨-, rfl, rfl⟩ := filled
      exact ⟨rfl, trivial, .inl rfl⟩
  | priority =>
      simp only [fillStep, Prod.mk.injEq] at filled
      obtain ⟨-, rfl, rfl⟩ := filled
      exact ⟨rfl, trivial, .inl rfl⟩

/-- Moving an index along a line permutes the owners of the packet buffers. -/
theorem partition_move {source target held source' target' held' rest given : List Word}
    (received : target' = target ++ given) (passed : given ++ (held' ++ source') = held ++ source)
    (partition : source ++ held ++ (rest ++ target) ~ allIndices) :
    source' ++ held' ++ (rest ++ target') ~ allIndices := by
  refine Perm.trans ?_ partition
  subst received
  have line : source' ++ held' ++ given ~ source ++ held := by
    calc source' ++ held' ++ given ~ held' ++ source' ++ given := perm_append_comm.append_right given
      _ ~ given ++ (held' ++ source') := perm_append_comm
      _ = held ++ source := passed
      _ ~ source ++ held := perm_append_comm
  calc source' ++ held' ++ (rest ++ (target ++ given))
      ~ source' ++ held' ++ (given ++ (rest ++ target)) := by
        rw [← append_assoc rest]
        exact perm_append_comm.append_left _
    _ = source' ++ held' ++ given ++ (rest ++ target) := by rw [append_assoc (source' ++ held')]
    _ ~ source ++ held ++ (rest ++ target) := line.append_right _

/-- A fill step keeps the owners of the packet buffers. -/
theorem Owned.fill {state : State} (owned : Owned state) {record : PacketPayload} {clock : BitVec 64}
    {index : Word} {part : Fill} {packet : Packet} {pc : Pc Fill} {events : List Event} {curr : Nat}
    (working : state.producer.pc = .work index part)
    (filled : fillStep record clock index (state.packetBuf index) part = (packet, pc, events)) :
    Owned { state with
      packetBuf := Function.update state.packetBuf index packet
      producer := { curr, pc } } := by
  obtain ⟨held, sound, -⟩ := fillStep_held state.freeRing state.readyRing filled
  refine ⟨owned.freeMask, owned.readyMask, sound, owned.consumerSound, ?_⟩
  have partition := owned.partition
  rw [working] at partition
  simpa only [held, Pc.held_work] using partition

/-- A move of the producer keeps the owners of the packet buffers. -/
theorem Owned.producer_move {state : State} (owned : Owned state) {free ready : Ringbuf} {pc : Pc Fill}
    (effect : MoveEffect state.freeRing state.readyRing state.producer.pc free ready pc) :
    Owned { state with
      freeRing := free, readyRing := ready, producer := { state.producer with pc := pc } } where
  freeMask := effect.drains.mask.trans owned.freeMask
  readyMask := effect.grows.mask.trans owned.readyMask
  producerSound := effect.sound
  consumerSound := owned.consumerSound.stable effect.grows effect.drains
  partition := partition_move effect.received effect.passed owned.partition

/-- A move of the consumer keeps the owners of the packet buffers. -/
theorem Owned.consumer_move {state : State} (owned : Owned state) {free ready : Ringbuf} {pc : Pc Process}
    (effect : MoveEffect state.readyRing state.freeRing state.consumer.pc ready free pc) :
    Owned { state with
      freeRing := free, readyRing := ready, consumer := { state.consumer with pc := pc } } where
  freeMask := effect.grows.mask.trans owned.freeMask
  readyMask := effect.drains.mask.trans owned.readyMask
  producerSound := owned.producerSound.stable effect.grows effect.drains
  consumerSound := effect.sound
  partition := by
    have swapped : state.readyRing.indices ++ state.consumer.pc.held ++
        (state.producer.pc.held ++ state.freeRing.indices) ~ allIndices :=
      (perm_append_comm.trans (perm_append_comm.append perm_append_comm)).trans owned.partition
    have moved := partition_move effect.received effect.passed swapped
    exact (perm_append_comm.trans (perm_append_comm.append perm_append_comm)).trans moved

/-- The shared loop of the producer meets the conditions of one move. -/
theorem Owned.producer_effect {state : State} (owned : Owned state) {more headFirst : Bool} {begin : Fill}
    {free ready : Ringbuf} {pc : Pc Fill}
    (moved : moveStep more begin headFirst state.freeRing state.readyRing state.producer.pc =
      some (free, ready, pc)) :
    MoveEffect state.freeRing state.readyRing state.producer.pc free ready pc :=
  moveStep_effect moved owned.producerSound owned.readyMask owned.producer_room

/-- The shared loop of the consumer meets the conditions of one move. -/
theorem Owned.consumer_effect {state : State} (owned : Owned state) {more headFirst : Bool} {begin : Process}
    {free ready : Ringbuf} {pc : Pc Process}
    (moved : moveStep more begin headFirst state.readyRing state.freeRing state.consumer.pc =
      some (ready, free, pc)) :
    MoveEffect state.readyRing state.freeRing state.consumer.pc ready free pc :=
  moveStep_effect moved owned.consumerSound owned.freeMask owned.consumer_room

/-- Every step of either process keeps the owners of the packet buffers. -/
theorem Owned.step {file : List PacketPayload} {expected : Word} {state next : State} {action : Action}
    {events : List Event} (owned : Owned state)
    (stepped : (machine file expected).step state action = some (next, events)) : Owned next := by
  cases action with
  | producer headFirst clock =>
      obtain ⟨index, part, record, packet, pc, curr, working, filled, rfl⟩ | ⟨free, ready, pc, moved, rfl, -⟩ :=
        producerStep_cases stepped
      · exact owned.fill working filled
      · exact owned.producer_move (owned.producer_effect moved)
  | consumer headFirst =>
      obtain ⟨index, position, inside, working, rfl, -⟩ | ⟨index, position, -, working, rfl, -⟩ |
        ⟨free, ready, pc, moved, rfl, -⟩ := consumerStep_cases stepped
      · refine ⟨owned.freeMask, owned.readyMask, owned.producerSound, trivial, ?_⟩
        simpa only [working, Pc.held_work, Pc.held_loadHead] using owned.partition
      · refine ⟨owned.freeMask, owned.readyMask, owned.producerSound, trivial, ?_⟩
        simpa only [working, Pc.held_work, Pc.held_loadHead] using owned.partition
      · exact owned.consumer_move (owned.consumer_effect moved)

/-- The initial free ring owns every packet buffer. -/
theorem Owned.start : Owned initial where
  freeMask := rfl
  readyMask := rfl
  producerSound := trivial
  consumerSound := trivial
  partition := by
    have all : initial.freeRing.indices = allIndices := by decide
    have none_ : initial.readyRing.indices = [] := by decide
    simp [all, none_, show initial.producer.pc.held = [] from rfl,
      show initial.consumer.pc.held = [] from rfl]

end Ostep.PacketProc
