import Ostep.Proof.PacketProc.Delivery

namespace Ostep.PacketProc
open Library

/-- The parts of the shared loop. -/
inductive Stage (Work : Type) where
  | between
  | stopped
  | taking
  | working (index : Word) (part : Work)
  | giving (index : Word)

def Pc.stage {Work : Type} : Pc Work → Stage Work
  | .loop => .between
  | .sourceEmpty _ | .targetFull _ | .loadTail | .loadSlot _ | .advanceLoad _ | .advanceStore _ _ => .taking
  | .work index part => .working index part
  | .loadHead index | .storeSlot index _ | .publishLoad index | .publishStore index _ => .giving index
  | .finished => .stopped

/-- A move stays in its part of the loop, or it goes on to the next one. -/
inductive Stage.Moves {Work : Type} (more : Bool) (begin : Work) : Stage Work → List Word → Stage Work → Prop where
  | enter (continues : more = true) : Moves more begin .between [] .taking
  | stop (ends : more = false) : Moves more begin .between [] .stopped
  | stay : Moves more begin .taking [] .taking
  | retry : Moves more begin .taking [] .between
  | take (index : Word) : Moves more begin .taking [] (.working index begin)
  | keep (index : Word) : Moves more begin (.giving index) [] (.giving index)
  | give (index : Word) : Moves more begin (.giving index) [index] .between

theorem moveStep_moves {Work : Type} {more headFirst : Bool} {begin : Work} {source target source' target' : Ringbuf}
    {pc pc' : Pc Work} (stepped : moveStep more begin headFirst source target pc = some (source', target', pc')) :
    Stage.Moves more begin pc.stage pc.given pc'.stage := by
  cases moveStep_moved stepped with
  | enter continues => exact .enter continues
  | stop ends => exact .stop ends
  | empty tested | full tested => exact .retry
  | advanceStore index tail => exact .take index
  | loadHead index | storeSlot index head | publishLoad index => exact .keep index
  | publishStore index head => exact .give index
  | _ => exact .stay

/-- The number of indices in the hands of a process. -/
def Stage.hands {Work : Type} : Stage Work → Nat
  | .working _ _ | .giving _ => 1
  | _ => 0

theorem Pc.length_held {Work : Type} (pc : Pc Work) : pc.held.length = pc.stage.hands := by
  cases pc <;> rfl

/-- The part of the packet that is already copied. -/
def Fill.Copied (record : PacketPayload) (packet : Packet) : Fill → Prop
  | .copy position => ∀ slot : Fin payloadSize, slot.val < position → packet.payload slot = record.data slot
  | _ => packet.payload = record.data

/-- The producer works on the record after those it has published. -/
def Stage.Produces (file : List PacketPayload) (packetBuf : Word → Packet) (count curr : Nat) : Stage Fill → Prop
  | .between => curr = count
  | .stopped => curr = count ∧ file.length ≤ count
  | .taking => curr = count ∧ count < file.length
  | .working index part => curr = count ∧ ∃ record, file[count]? = some record ∧ part.Copied record (packetBuf index)
  | .giving index => curr = count + 1 ∧ ∃ record, file[count]? = some record ∧ (packetBuf index).payload = record.data

/-- The consumer stops at the number of packets that it expects. -/
def Stage.Consumes (expected count : Word) : Stage Process → Prop
  | .between | .giving _ => count ≤ expected
  | .stopped => count = expected
  | .taking | .working _ _ => count < expected

/-- The packets that the consumer has not counted yet. -/
def Stage.uncounted : Stage Process → Nat
  | .working _ _ => 1
  | _ => 0

/-- The published packets carry the first records of the file, and the consumer adds up what it reads from them. -/
structure Summed (file : List PacketPayload) (expected : Word) (trace : List Event) (state : State) : Prop where
  records : (published trace).map (fun entry => entry.2.payload) =
    (file.take (published trace).length).map PacketPayload.data
  produces : state.producer.pc.stage.Produces file state.packetBuf (published trace).length state.producer.curr
  consumes : state.consumer.pc.stage.Consumes expected state.consumer.packetCount
  counted : state.consumer.packetCount.toNat + state.consumer.pc.stage.uncounted +
    state.readyRing.indices.length = (published trace).length
  checksum : state.consumer.checksum = ((loaded trace).map fun load => load.2.2.setWidth 64).sum

variable {file : List PacketPayload} {expected : Word} {trace events : List Event} {state next : State}

/-- The producer goes to the next record after its last store. -/
def Fill.advance (curr : Nat) : Fill → Nat
  | .priority => curr + 1
  | _ => curr

theorem producerStep_fill {headFirst : Bool} {clock : BitVec 64} {index : Word} {part : Fill}
    (working : state.producer.pc = .work index part)
    (stepped : producerStep file headFirst clock state = some (next, events)) :
    ∃ record, file[state.producer.curr]? = some record ∧
      events = (fillStep record clock index (state.packetBuf index) part).2.2 ∧
      next = { state with
        packetBuf := Function.update state.packetBuf index (fillStep record clock index (state.packetBuf index) part).1
        producer := ⟨part.advance state.producer.curr,
          (fillStep record clock index (state.packetBuf index) part).2.1⟩ } := by
  simp only [producerStep, working, Option.map_eq_some_iff, Prod.mk.injEq] at stepped
  obtain ⟨record, found, rfl, rfl⟩ := stepped
  refine ⟨record, found, rfl, ?_⟩
  cases part <;> rfl

/-- Each store copies the next part of the record. -/
theorem fillStep_produces {record : PacketPayload} {clock : BitVec 64} {index : Word} {packetBuf : Word → Packet}
    {part : Fill} {count : Nat} (found : file[count]? = some record) (copied : part.Copied record (packetBuf index)) :
    (fillStep record clock index (packetBuf index) part).2.1.stage.Produces file
      (Function.update packetBuf index (fillStep record clock index (packetBuf index) part).1) count
      (part.advance count) := by
  cases part with
  | copy position =>
      by_cases inside : position < record.len.toNat
      · simp only [fillStep, dif_pos inside]
        refine ⟨rfl, record, found, fun slot before => ?_⟩
        rw [Function.update_self]
        by_cases here : slot = ⟨position, record.lenExact ▸ inside⟩
        · simp only [here, Function.update_self]
        · have earlier : slot.val < position := by
            have different : slot.val ≠ position := fun same => here (Fin.ext same)
            omega
          simp only [Function.update_of_ne here]
          exact copied slot earlier
      · simp only [fillStep, dif_neg inside]
        refine ⟨rfl, record, found, ?_⟩
        rw [Function.update_self]
        funext slot
        exact copied slot (by have := slot.isLt; have := record.lenExact; omega)
  | priority =>
      refine ⟨rfl, record, found, ?_⟩
      rw [Function.update_self]
      exact copied
  | _ =>
      refine ⟨rfl, record, found, ?_⟩
      rw [Function.update_self]
      exact copied

/-- A store publishes and reads nothing. -/
theorem fillStep_silent (record : PacketPayload) (clock : BitVec 64) (index : Word) (packet : Packet) (part : Fill) :
    published (fillStep record clock index packet part).2.2 = [] ∧
      loaded (fillStep record clock index packet part).2.2 = [] := by
  cases part with
  | copy position =>
      simp only [fillStep]
      split <;> exact ⟨rfl, rfl⟩
  | _ => exact ⟨rfl, rfl⟩

theorem Summed.fill (summed : Summed file expected trace state) {headFirst : Bool} {clock : BitVec 64} {index : Word}
    {part : Fill} (working : state.producer.pc = .work index part)
    (stepped : producerStep file headFirst clock state = some (next, events)) :
    Summed file expected (trace ++ events) next := by
  obtain ⟨record, found, rfl, rfl⟩ := producerStep_fill working stepped
  obtain ⟨quiet, unread⟩ := fillStep_silent record clock index (state.packetBuf index) part
  have produces := summed.produces
  rw [working] at produces
  obtain ⟨current, other, same, copied⟩ := produces
  rw [current] at found
  obtain rfl := Option.some.inj (found.symm.trans same)
  have unpublished : published (trace ++ (fillStep record clock index (state.packetBuf index) part).2.2) =
      published trace := by
    rw [published_append, quiet, List.append_nil]
  have unloaded : loaded (trace ++ (fillStep record clock index (state.packetBuf index) part).2.2) =
      loaded trace := by
    rw [loaded_append, unread, List.append_nil]
  constructor
  · rw [unpublished]
    exact summed.records
  · rw [unpublished, current]
    exact fillStep_produces found copied
  · exact summed.consumes
  · rw [unpublished]
    exact summed.counted
  · rw [unloaded]
    exact summed.checksum

/-- The published records go on with the record that the producer gives away. -/
theorem Summed.records_move (summed : Summed file expected trace state) {more : Bool} {begin : Fill}
    {given : List Word} {stage : Stage Fill} (moves : Stage.Moves more begin state.producer.pc.stage given stage) :
    (published trace ++ given.map fun index => (index, state.packetBuf index)).map (fun entry => entry.2.payload) =
      (file.take ((published trace).length + given.length)).map PacketPayload.data := by
  have records := summed.records
  have produces := summed.produces
  generalize state.producer.pc.stage = before at moves produces
  cases moves with
  | give index =>
      obtain ⟨-, record, found, payload⟩ := produces
      rw [List.map_append, records, List.length_singleton, List.take_add_one, found, List.map_append]
      simp [payload]
  | _ => simpa using records

/-- The producer is at the record after those that it has published. -/
theorem Stage.Produces.moves {packetBuf : Word → Packet} {count curr : Nat} {given : List Word}
    {before after : Stage Fill} (produces : before.Produces file packetBuf count curr)
    (moves : Stage.Moves (curr < file.length) (.copy 0) before given after) :
    after.Produces file packetBuf (count + given.length) curr := by
  cases moves with
  | enter continues => exact ⟨produces, produces ▸ of_decide_eq_true continues⟩
  | stop ends => exact ⟨produces, Nat.le_of_not_lt (produces ▸ of_decide_eq_false ends)⟩
  | stay => exact produces
  | retry => exact produces.1
  | take index => exact ⟨produces.1, _, List.getElem?_eq_getElem produces.2, nofun⟩
  | keep index => exact produces
  | give index => exact produces.1

/-- A move of the producer publishes the record that it has copied. -/
theorem Summed.producer_move (summed : Summed file expected trace state) {headFirst : Bool} {free ready : Ringbuf}
    {pc : Pc Fill}
    (moved : moveStep (state.producer.curr < file.length) (.copy 0) headFirst state.freeRing state.readyRing
      state.producer.pc = some (free, ready, pc))
    (effect : MoveEffect state.freeRing state.readyRing state.producer.pc free ready pc) :
    Summed file expected
      (trace ++ state.producer.pc.given.map fun index => .published index (state.packetBuf index))
      { state with freeRing := free, readyRing := ready, producer := { state.producer with pc := pc } } := by
  have moves := moveStep_moves moved
  obtain ⟨given, unread⟩ := published_given state.packetBuf state.producer.pc.given
  have length : (published (trace ++ state.producer.pc.given.map
      fun index => .published index (state.packetBuf index))).length =
        (published trace).length + state.producer.pc.given.length := by
    rw [published_append, given, List.length_append, List.length_map]
  constructor
  · rw [length, published_append, given]
    exact summed.records_move moves
  · rw [length]
    exact summed.produces.moves moves
  · exact summed.consumes
  · have counted := summed.counted
    rw [length, effect.received, List.length_append]
    simp only
    omega
  · rw [loaded_append, unread, List.append_nil]
    exact summed.checksum

theorem Stage.Consumes.moves {count : Word} {given : List Word} {before after : Stage Process}
    (consumes : before.Consumes expected count)
    (moves : Stage.Moves (count < expected) (.sum 0) before given after) : after.Consumes expected count := by
  cases moves with
  | enter continues =>
      have below : count < expected := of_decide_eq_true continues
      exact below
  | stop ends => exact BitVec.le_antisymm consumes (BitVec.not_lt.mp (of_decide_eq_false ends))
  | stay => exact consumes
  | retry => exact BitVec.le_of_lt consumes
  | take index => exact consumes
  | keep index => exact consumes
  | give index => exact consumes

/-- A packet that the consumer takes from the ring is not counted before it is read. -/
theorem Stage.uncounted_moves {more : Bool} {given : List Word} {before after : Stage Process}
    (moves : Stage.Moves more (.sum 0) before given after) :
    before.hands + after.uncounted = given.length + after.hands + before.uncounted := by
  cases moves <;> rfl

theorem Summed.consumer_move (summed : Summed file expected trace state) {headFirst : Bool} {free ready : Ringbuf}
    {pc : Pc Process}
    (moved : moveStep (state.consumer.packetCount < expected) (.sum 0) headFirst state.readyRing state.freeRing
      state.consumer.pc = some (ready, free, pc))
    (effect : MoveEffect state.readyRing state.freeRing state.consumer.pc ready free pc) :
    Summed file expected trace
      { state with freeRing := free, readyRing := ready, consumer := { state.consumer with pc := pc } } := by
  have moves := moveStep_moves moved
  refine ⟨summed.records, summed.produces, summed.consumes.moves moves, ?_, summed.checksum⟩
  have counted := summed.counted
  have uncounted := Stage.uncounted_moves moves
  have passed := congrArg List.length effect.passed
  simp only [List.length_append, Pc.length_held] at passed
  simp only
  omega

/-- The consumer adds the byte that it reads. -/
theorem Summed.load (summed : Summed file expected trace state) {index : Word} {position : Nat}
    (inside : position < payloadSize) (working : state.consumer.pc = .work index (.sum position)) :
    Summed file expected
      (trace ++ [.loaded index ⟨position, inside⟩ ((state.packetBuf index).payload ⟨position, inside⟩)])
      { state with consumer := { state.consumer with
        checksum := state.consumer.checksum + ((state.packetBuf index).payload ⟨position, inside⟩).setWidth 64
        pc := .work index (.sum (position + 1)) } } := by
  have consumes := summed.consumes
  have counted := summed.counted
  rw [working] at consumes counted
  have unpublished : published (trace ++
      [.loaded index ⟨position, inside⟩ ((state.packetBuf index).payload ⟨position, inside⟩)]) = published trace := by
    rw [published_append]
    exact List.append_nil _
  constructor
  · rw [unpublished]
    exact summed.records
  · rw [unpublished]
    exact summed.produces
  · exact consumes
  · rw [unpublished]
    exact counted
  · rw [loaded_append, List.map_append, List.sum_append, ← summed.checksum]
    simp [loaded, Event.load]

/-- The consumer counts the packet that it has read. -/
theorem Summed.count (summed : Summed file expected trace state) {index : Word} {position : Nat}
    (working : state.consumer.pc = .work index (.sum position)) :
    Summed file expected trace { state with consumer := { state.consumer with
      packetCount := state.consumer.packetCount + 1
      pc := .loadHead index } } := by
  have consumes := summed.consumes
  have counted := summed.counted
  rw [working] at consumes counted
  have below := BitVec.lt_def.mp consumes
  have bound := expected.isLt
  have next : (state.consumer.packetCount + 1).toNat = state.consumer.packetCount.toNat + 1 := by
    rw [BitVec.toNat_add, show (1 : Word).toNat = 1 from rfl]
    exact Nat.mod_eq_of_lt (by omega)
  refine ⟨summed.records, summed.produces, ?_, ?_, summed.checksum⟩
  · change state.consumer.packetCount + 1 ≤ expected
    rw [BitVec.le_def, next]
    exact below
  · simp only [next]
    exact counted

theorem Summed.step {action : Action} (owned : Owned state) (summed : Summed file expected trace state)
    (stepped : (machine file expected).step state action = some (next, events)) :
    Summed file expected (trace ++ events) next := by
  cases action with
  | producer headFirst clock =>
      obtain ⟨index, part, -, -, -, -, working, -⟩ | ⟨free, ready, pc, moved, rfl, rfl⟩ := producerStep_cases stepped
      · exact summed.fill working stepped
      · exact summed.producer_move moved (owned.producer_effect moved)
  | consumer headFirst =>
      obtain ⟨index, position, inside, working, rfl, rfl⟩ | ⟨index, position, -, working, rfl, rfl⟩ |
        ⟨free, ready, pc, moved, rfl, rfl⟩ := consumerStep_cases stepped
      · exact summed.load inside working
      · rw [List.append_nil]
        exact summed.count working
      · rw [List.append_nil]
        exact summed.consumer_move moved (owned.consumer_effect moved)

end Ostep.PacketProc
