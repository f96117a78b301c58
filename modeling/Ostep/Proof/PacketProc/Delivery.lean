import Ostep.Proof.PacketProc.Ownership

namespace Ostep.PacketProc
open Library List

@[simp] theorem published_append (first second : List Event) :
    published (first ++ second) = published first ++ published second := by
  simp [published]

@[simp] theorem loaded_append (first second : List Event) :
    loaded (first ++ second) = loaded first ++ loaded second := by
  simp [loaded]

/-- The loads that the consumer has made from the packet it holds. -/
def Pc.loads (packetBuf : Word → Packet) : Pc Process → List (Word × Fin payloadSize × Byte)
  | .work index (.sum position) => (payloadLoads (index, packetBuf index)).take position
  | pc => pc.held.flatMap fun index => payloadLoads (index, packetBuf index)

/-- The published packets wait unchanged until the consumer has read them. -/
structure Delivered (trace : List Event) (state : State) (done : List (Word × Packet)) : Prop where
  pending : published trace = done ++
    (state.consumer.pc.held ++ state.readyRing.indices).map fun index => (index, state.packetBuf index)
  reads : loaded trace = done.flatMap payloadLoads ++ state.consumer.pc.loads state.packetBuf

/-- The consumer's loads depend only on the packet it holds. -/
theorem Pc.loads_congr {before after : Word → Packet} (pc : Pc Process)
    (same : ∀ index ∈ pc.held, after index = before index) : pc.loads after = pc.loads before := by
  have general : (pc.held.flatMap fun index => payloadLoads (index, after index)) =
      pc.held.flatMap fun index => payloadLoads (index, before index) := by
    apply List.flatMap_congr
    intro index member
    rw [same index member]
  cases pc with
  | work index part =>
      cases part with
      | sum position => simp only [Pc.loads, same index (by simp)]
  | _ => exact general

/-- A step that moves no published packet keeps the delivery. -/
theorem Delivered.keep {trace : List Event} {state next : State} {done : List (Word × Packet)}
    {events : List Event} (delivered : Delivered trace state done)
    (silent : published events = [] ∧ loaded events = [])
    (line : next.consumer.pc.held ++ next.readyRing.indices =
      state.consumer.pc.held ++ state.readyRing.indices)
    (packets : ∀ index ∈ state.consumer.pc.held ++ state.readyRing.indices,
      next.packetBuf index = state.packetBuf index)
    (loads : next.consumer.pc.loads next.packetBuf = state.consumer.pc.loads state.packetBuf) :
    Delivered (trace ++ events) next done where
  pending := by
    have same := List.map_congr_left fun index member =>
      congrArg (fun packet => (index, packet)) (packets index member)
    rw [published_append, silent.1, List.append_nil, line, delivered.pending, same]
  reads := by rw [loaded_append, silent.2, List.append_nil, loads, delivered.reads]

/-- A fill step touches no published packet. -/
theorem Delivered.fill {trace : List Event} {state : State} {done : List (Word × Packet)}
    (delivered : Delivered trace state done) (owned : Owned state) {record : PacketPayload}
    {clock : BitVec 64} {index : Word} {part : Fill} {packet : Packet} {pc : Pc Fill}
    {events : List Event} {curr : Nat} (working : state.producer.pc = .work index part)
    (filled : fillStep record clock index (state.packetBuf index) part = (packet, pc, events)) :
    Delivered (trace ++ events) { state with
      packetBuf := Function.update state.packetBuf index packet
      producer := { curr, pc } } done := by
  have apart := owned.producer_apart (show index ∈ state.producer.pc.held by simp [working])
  have kept : ∀ other ∈ state.consumer.pc.held ++ state.readyRing.indices,
      Function.update state.packetBuf index packet other = state.packetBuf other := by
    intro other member
    have different : other ≠ index := by
      rintro rfl
      exact apart member
    exact Function.update_of_ne different _ _
  refine delivered.keep ?_ rfl kept
    (Pc.loads_congr _ fun other member => kept other (List.mem_append_left _ member))
  obtain ⟨-, -, rfl | ⟨rfl, -⟩⟩ :=
    fillStep_held state.freeRing state.readyRing filled
  · exact ⟨rfl, rfl⟩
  · exact ⟨rfl, rfl⟩

/-- A process that gives its index away publishes its packet and reads nothing. -/
theorem published_given (packetBuf : Word → Packet) (given : List Word) :
    published (given.map fun index => .published index (packetBuf index)) =
      (given.map fun index => (index, packetBuf index)) ∧
    loaded (given.map fun index => .published index (packetBuf index)) = [] := by
  induction given with
  | nil => exact ⟨rfl, rfl⟩
  | cons index rest ih => simpa [published, loaded, Event.publication, Event.load] using ih

/-- A move of the producer publishes the packet it gives away. -/
theorem Delivered.producer_move {trace : List Event} {state : State} {done : List (Word × Packet)}
    (delivered : Delivered trace state done) {free ready : Ringbuf} {pc : Pc Fill}
    (effect : MoveEffect state.freeRing state.readyRing state.producer.pc free ready pc) :
    Delivered
      (trace ++ state.producer.pc.given.map fun index => .published index (state.packetBuf index))
      { state with freeRing := free, readyRing := ready, producer := { state.producer with pc := pc } }
      done := by
  obtain ⟨publishes, silent⟩ := published_given state.packetBuf state.producer.pc.given
  exact {
    pending := by
      rw [published_append, publishes, delivered.pending]
      simp only [effect.received, List.map_append, List.append_assoc]
    reads := by rw [loaded_append, silent, List.append_nil, delivered.reads] }

/-- The loads of the held packet are complete when the consumer gives it away. -/
theorem moveStep_loads {more headFirst : Bool} {source target source' target' : Ringbuf}
    {pc pc' : Pc Process} (packetBuf : Word → Packet)
    (stepped : moveStep more (.sum 0) headFirst source target pc = some (source', target', pc')) :
    pc.loads packetBuf =
      (pc.given.map fun index => (index, packetBuf index)).flatMap payloadLoads ++ pc'.loads packetBuf := by
  cases moveStep_moved stepped <;> rfl

/-- A move of the consumer retires the packet it gives away. -/
theorem Delivered.consumer_move {trace : List Event} {state : State} {done : List (Word × Packet)}
    (delivered : Delivered trace state done) {more headFirst : Bool} {free ready : Ringbuf}
    {pc : Pc Process}
    (moved : moveStep more (.sum 0) headFirst state.readyRing state.freeRing state.consumer.pc =
      some (ready, free, pc))
    (effect : MoveEffect state.readyRing state.freeRing state.consumer.pc ready free pc) :
    Delivered trace
      { state with freeRing := free, readyRing := ready, consumer := { state.consumer with pc := pc } }
      (done ++ state.consumer.pc.given.map fun index => (index, state.packetBuf index)) where
  pending := by
    rw [delivered.pending, ← effect.passed]
    simp only [List.map_append, List.append_assoc]
  reads := by
    rw [delivered.reads, moveStep_loads state.packetBuf moved]
    simp only [List.flatMap_append, List.append_assoc]

/-- One more load extends the loads of the held packet. -/
theorem payloadLoads_take_succ (entry : Word × Packet) (position : Nat) (inside : position < payloadSize) :
    (payloadLoads entry).take (position + 1) =
      (payloadLoads entry).take position ++ [(entry.1, ⟨position, inside⟩, entry.2.payload ⟨position, inside⟩)] := by
  rw [List.take_add_one]
  congr 1
  simp [payloadLoads, inside]

/-- Past the last payload byte every load of the packet is made. -/
theorem payloadLoads_take_all (entry : Word × Packet) (position : Nat) (outside : payloadSize ≤ position) :
    (payloadLoads entry).take position = payloadLoads entry := by
  apply List.take_of_length_le
  simpa [payloadLoads] using outside

/-- Every step keeps the delivery and retires at most one packet. -/
theorem Delivered.step {file : List PacketPayload} {expected : Word} {trace : List Event}
    {state next : State} {action : Action} {events : List Event} {done : List (Word × Packet)}
    (owned : Owned state) (delivered : Delivered trace state done)
    (stepped : (machine file expected).step state action = some (next, events)) :
    ∃ done', Delivered (trace ++ events) next done' := by
  cases action with
  | producer headFirst clock =>
      obtain ⟨index, part, record, packet, pc, curr, working, filled, rfl⟩ |
        ⟨free, ready, pc, moved, rfl, rfl⟩ := producerStep_cases stepped
      · exact ⟨done, delivered.fill owned working filled⟩
      · exact ⟨done, delivered.producer_move (owned.producer_effect moved)⟩
  | consumer headFirst =>
      obtain ⟨index, position, inside, working, rfl, rfl⟩ | ⟨index, position, outside, working, rfl, rfl⟩ |
        ⟨free, ready, pc, moved, rfl, rfl⟩ := consumerStep_cases stepped
      · refine ⟨done, ⟨?_, ?_⟩⟩
        · have silent : published [.loaded index ⟨position, inside⟩
              ((state.packetBuf index).payload ⟨position, inside⟩)] = [] := rfl
          rw [published_append, silent, List.append_nil, delivered.pending, working]
          rfl
        · rw [loaded_append, delivered.reads, working]
          simp only [Pc.loads, payloadLoads_take_succ _ position inside, List.append_assoc]
          rfl
      · refine ⟨done, delivered.keep ⟨rfl, rfl⟩ ?_ (fun _ _ => rfl) ?_⟩
        · simp [working]
        · simp [Pc.loads, working, payloadLoads_take_all _ position outside]
      · rw [List.append_nil]
        exact ⟨_, delivered.consumer_move moved (owned.consumer_effect moved)⟩

/-- Every run keeps the owners and the delivery of the packets. -/
theorem run_delivered {file : List PacketPayload} {expected : Word} {schedule : List Action}
    {state : State} {trace : List Event}
    (ran : (machine file expected).run initial schedule = some (state, trace)) :
    Owned state ∧ ∃ done, Delivered trace state done := by
  refine (machine file expected).run_invariant
    (fun past reached => Owned reached ∧ ∃ done, Delivered past reached done) ?_ ?_ ran
  · rintro past reached action next events ⟨owned, done, delivered⟩ stepped
    exact ⟨owned.step stepped, delivered.step owned stepped⟩
  · have empty : initial.readyRing.indices = [] := by decide
    refine ⟨.start, [], ?_, rfl⟩
    rw [empty]
    rfl

/-- Every access to packet storage is recorded, and the producer stores only into the packet it holds. -/
theorem step_stores {file : List PacketPayload} {expected : Word} {state next : State} {action : Action}
    {events : List Event} (stepped : (machine file expected).step state action = some (next, events))
    (index : Word) :
    (.stored index ∈ events → index ∈ state.producer.pc.held) ∧
      (.stored index ∉ events → next.packetBuf index = state.packetBuf index) := by
  cases action with
  | producer headFirst clock =>
      obtain ⟨target, part, record, packet, pc, curr, working, filled, rfl⟩ |
        ⟨free, ready, pc, moved, rfl, rfl⟩ := producerStep_cases stepped
      · obtain ⟨-, -, rfl | ⟨rfl, rfl⟩⟩ :=
          fillStep_held state.freeRing state.readyRing filled
        · refine ⟨fun member => by simpa [working] using member, fun absent => ?_⟩
          have different : index ≠ target := by simpa using absent
          exact Function.update_of_ne different _ _
        · exact ⟨fun member => by simp at member, fun _ => by rw [Function.update_eq_self]⟩
      · exact ⟨fun member => by simp at member, fun _ => rfl⟩
  | consumer headFirst =>
      obtain ⟨target, position, inside, working, rfl, rfl⟩ | ⟨target, position, -, working, rfl, rfl⟩ |
        ⟨free, ready, pc, moved, rfl, rfl⟩ := consumerStep_cases stepped
      · exact ⟨fun member => by simp at member, fun _ => rfl⟩
      · exact ⟨fun member => by simp at member, fun _ => rfl⟩
      · exact ⟨fun member => by simp at member, fun _ => rfl⟩

/-- The consumer's loads so far begin the loads of all published packets. -/
theorem Delivered.loaded_begins {trace : List Event} {state : State} {done : List (Word × Packet)}
    (delivered : Delivered trace state done) :
    loaded trace <+: (published trace).flatMap payloadLoads := by
  rw [delivered.reads, delivered.pending, List.flatMap_append]
  refine (List.prefix_append_right_inj _).mpr ?_
  rw [List.map_append, List.flatMap_append]
  refine List.IsPrefix.trans ?_ (List.prefix_append _ _)
  rw [List.flatMap_map]
  cases state.consumer.pc with
  | work index part =>
      cases part with
      | sum position =>
          simp only [Pc.loads, Pc.held_work, List.flatMap_cons, List.flatMap_nil, List.append_nil]
          exact List.take_prefix _ _
  | _ => exact List.prefix_rfl

/-- The rings and the processes always partition the packet buffers.
The producer stores into no published packet.
The consumer reads the published packets in order, once each, as they were published. -/
theorem packetProc_ownership_delivery (file : List PacketPayload) (expected : Word)
    (schedule : List Action) (state : State) (trace : List Event)
    (ran : (machine file expected).run initial schedule = some (state, trace)) :
    state.freeRing.indices ++ state.readyRing.indices ++
      (state.producer.pc.held ++ state.consumer.pc.held) ~ (List.range 128).map (BitVec.ofNat 32) ∧
    (∀ action next events, (machine file expected).step state action = some (next, events) →
      ∀ index,
        (.stored index ∈ events → index ∉ state.readyRing.indices ∧ index ∉ state.consumer.pc.held) ∧
        (.stored index ∉ events → next.packetBuf index = state.packetBuf index)) ∧
    (∃ done, published trace = done ++
        (state.consumer.pc.held ++ state.readyRing.indices).map (fun index => (index, state.packetBuf index)) ∧
      loaded trace = done.flatMap payloadLoads ++ state.consumer.pc.loads state.packetBuf) ∧
    loaded trace <+: (published trace).flatMap payloadLoads := by
  obtain ⟨owned, done, delivered⟩ := run_delivered ran
  refine ⟨?_, ?_, ⟨done, delivered.pending, delivered.reads⟩, delivered.loaded_begins⟩
  · refine Perm.trans ?_ owned.partition
    rw [List.append_assoc, List.append_assoc]
    refine Perm.append_left _ ?_
    calc state.readyRing.indices ++ (state.producer.pc.held ++ state.consumer.pc.held)
        ~ state.producer.pc.held ++ state.consumer.pc.held ++ state.readyRing.indices := perm_append_comm
      _ = state.producer.pc.held ++ (state.consumer.pc.held ++ state.readyRing.indices) :=
          List.append_assoc ..
  · intro action next events stepped index
    obtain ⟨stores, keeps⟩ := step_stores stepped index
    refine ⟨fun member => ?_, keeps⟩
    have apart := owned.producer_apart (stores member)
    rw [List.mem_append, not_or] at apart
    exact ⟨apart.2, apart.1⟩

/-- One record goes through both loops; the consumer makes all six loads of the published packet. -/
theorem packetProc_one_record :
    ∃ state trace,
      (machine [⟨6, fun position => BitVec.ofNat 8 position, rfl⟩] 1).run initial
        (List.replicate 25 (.producer true 7) ++ List.replicate 22 (.consumer false)) =
          some (state, trace) ∧
      loaded trace = (published trace).flatMap payloadLoads ∧ (published trace).length = 1 := by
  have complete : ((machine [⟨6, fun position => BitVec.ofNat 8 position, rfl⟩] 1).run initial
      (List.replicate 25 (.producer true 7) ++ List.replicate 22 (.consumer false))).map
        (fun result => ((loaded result.2).length, (published result.2).length)) = some (6, 1) := by
    decide
  obtain ⟨⟨state, trace⟩, ran, lengths⟩ := Option.map_eq_some_iff.mp complete
  obtain ⟨loads, publications⟩ := Prod.mk.inj lengths
  obtain ⟨-, -, -, starts⟩ := packetProc_ownership_delivery _ _ _ state trace ran
  refine ⟨state, trace, ran, starts.eq_of_length ?_, publications⟩
  obtain ⟨entry, one⟩ := List.length_eq_one_iff.mp publications
  rw [one, List.flatMap_cons, List.flatMap_nil, List.append_nil]
  simpa [payloadLoads, payloadSize] using loads

end Ostep.PacketProc
