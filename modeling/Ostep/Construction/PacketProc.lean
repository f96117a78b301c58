/-
This file models the producer and the consumer of the zero-copy packet processor.
-/

import Mathlib.Data.BitVec
import Ostep.Library.Machine
import Ostep.Library.Ring

namespace Ostep.PacketProc

open Library

abbrev Word := BitVec 32
abbrev Byte := BitVec 8

/-- The constant `BUFFER_SIZE` counts the slots of each ring and the packet buffers. -/
def bufferSize : Nat := 128

/-- The payload of a packet has `MAX_PAYLOAD_DATA_SIZE / 8` bytes. -/
def payloadSize : Nat := 48 / 8

/-- The constant `HIGH_PRIORITY`. -/
def highPriority : Word := 0

/-- A record of the packet file carries the length that `create_packet_file` writes. -/
structure PacketPayload where
  len : Word
  data : Fin payloadSize → Byte
  lenExact : len.toNat = payloadSize

structure Packet where
  timestamp : BitVec 64
  length : Word
  priority : Word
  payload : Fin payloadSize → Byte

/-- A ring holds free-running counters and one index in each slot. -/
structure Ringbuf where
  head : Word
  tail : Word
  mask : Word
  buffer : Word → Word

/-- The test compares the loaded head with the mirrored tail. -/
def ringIsFull (head tail : Word) : Bool := head == tail ^^^ BitVec.ofNat 32 bufferSize

/-- The test compares the two loaded counters. -/
def ringIsEmpty (head tail : Word) : Bool := head == tail

/-- The operands of one ring test are loaded one at a time. -/
structure Operands where
  head : Option Word
  tail : Option Word

def Operands.start : Operands := ⟨none, none⟩

/-- Each load completes one operand; C leaves their order open. -/
def Operands.load (ring : Ringbuf) (headFirst : Bool) : Operands → Operands
  | ⟨none, none⟩ => if headFirst then ⟨some ring.head, none⟩ else ⟨none, some ring.tail⟩
  | ⟨some head, _⟩ => ⟨some head, some ring.tail⟩
  | ⟨none, some tail⟩ => ⟨some ring.head, some tail⟩

/-- Both loops take an index from one ring, work on its packet, and give it to the other ring. -/
inductive Pc (Work : Type) where
  | loop
  | sourceEmpty (operands : Operands)
  | targetFull (operands : Operands)
  | loadTail
  | loadSlot (tail : Word)
  | advanceLoad (index : Word)
  | advanceStore (index tail : Word)
  | work (index : Word) (part : Work)
  | loadHead (index : Word)
  | storeSlot (index head : Word)
  | publishLoad (index : Word)
  | publishStore (index head : Word)
  | finished

/-- The loop test of the caller decides whether another index is moved. -/
def moveStep {Work : Type} (more : Bool) (begin : Work) (headFirst : Bool) (source target : Ringbuf) :
    Pc Work → Option (Ringbuf × Ringbuf × Pc Work)
  | .loop => some (source, target, if more then .sourceEmpty .start else .finished)
  | .sourceEmpty ⟨some head, some tail⟩ =>
      some (source, target, if ringIsEmpty head tail then .loop else .targetFull .start)
  | .sourceEmpty operands => some (source, target, .sourceEmpty (operands.load source headFirst))
  | .targetFull ⟨some head, some tail⟩ =>
      some (source, target, if ringIsFull head tail then .loop else .loadTail)
  | .targetFull operands => some (source, target, .targetFull (operands.load target headFirst))
  | .loadTail => some (source, target, .loadSlot source.tail)
  | .loadSlot tail => some (source, target, .advanceLoad (source.buffer (tail &&& source.mask)))
  -- The atomic `tail += 1` is split, so every schedule of the atomic form is included.
  | .advanceLoad index => some (source, target, .advanceStore index source.tail)
  | .advanceStore index tail => some ({ source with tail := tail + 1 }, target, .work index begin)
  | .work _ _ => none
  | .loadHead index => some (source, target, .storeSlot index target.head)
  | .storeSlot index head =>
      some (source, { target with buffer := Function.update target.buffer (head &&& target.mask) index },
        .publishLoad index)
  | .publishLoad index => some (source, target, .publishStore index target.head)
  | .publishStore _ head => some (source, { target with head := head + 1 }, .loop)
  | .finished => none

/-- The producer fills one packet by these stores. -/
inductive Fill where
  | copy (position : Nat)
  | length
  | timestamp
  | priority

/-- The consumer reads the payload bytes of one packet in order. -/
inductive Process where
  | sum (position : Nat)

/-- The pointer `curr` is kept as the number of the record it points to. -/
structure Producer where
  curr : Nat
  pc : Pc Fill

structure Consumer where
  packetCount : Word
  checksum : BitVec 64
  pc : Pc Process

structure State where
  freeRing : Ringbuf
  readyRing : Ringbuf
  packetBuf : Word → Packet
  producer : Producer
  consumer : Consumer

/-- The trace records the accesses to packet buffers and the hand-over of indices. -/
inductive Event where
  | stored (index : Word)
  | published (index : Word) (packet : Packet)
  | loaded (index : Word) (position : Fin payloadSize) (byte : Byte)

/-- Each fill step stores into one packet or ends the copy of `read_next_packet_from_file`. -/
def fillStep (record : PacketPayload) (clock : BitVec 64) (index : Word) (packet : Packet) :
    Fill → Packet × Pc Fill × List Event
  | .copy position =>
      if inside : position < record.len.toNat then
        let slot : Fin payloadSize := ⟨position, record.lenExact ▸ inside⟩
        ({ packet with payload := Function.update packet.payload slot (record.data slot) },
          .work index (.copy (position + 1)), [.stored index])
      else (packet, .work index .length, [])
  | .length => ({ packet with length := record.len }, .work index .timestamp, [.stored index])
  | .timestamp => ({ packet with timestamp := clock }, .work index .priority, [.stored index])
  | .priority => ({ packet with priority := highPriority }, .loadHead index, [.stored index])

def producerStep (file : List PacketPayload) (headFirst : Bool) (clock : BitVec 64) (state : State) :
    Option (State × List Event) :=
  match state.producer.pc with
  | .work index part =>
      file[state.producer.curr]?.map fun record =>
        let (packet, pc, events) := fillStep record clock index (state.packetBuf index) part
        let curr := match part with
          | .priority => state.producer.curr + 1
          | _ => state.producer.curr
        ({ state with
            packetBuf := Function.update state.packetBuf index packet
            producer := { curr, pc } }, events)
  | pc =>
      (moveStep (state.producer.curr < file.length) (.copy 0) headFirst state.freeRing state.readyRing pc).map
        fun (free, ready, next) =>
          ({ state with freeRing := free, readyRing := ready, producer := { state.producer with pc := next } },
            match pc with
            | .publishStore index _ => [.published index (state.packetBuf index)]
            | _ => [])

def consumerStep (expected : Word) (headFirst : Bool) (state : State) : Option (State × List Event) :=
  match state.consumer.pc with
  | .work index (.sum position) =>
      if inside : position < payloadSize then
        let byte := (state.packetBuf index).payload ⟨position, inside⟩
        some ({ state with consumer := { state.consumer with
            checksum := state.consumer.checksum + byte.setWidth 64
            pc := .work index (.sum (position + 1)) } }, [.loaded index ⟨position, inside⟩ byte])
      else
        some ({ state with consumer := { state.consumer with
            packetCount := state.consumer.packetCount + 1
            pc := .loadHead index } }, [])
  | pc =>
      (moveStep (state.consumer.packetCount < expected) (.sum 0) headFirst state.readyRing state.freeRing pc).map
        fun (ready, free, next) =>
          ({ state with freeRing := free, readyRing := ready, consumer := { state.consumer with pc := next } }, [])

/-- The scheduler picks a process, the load order of a test, and the clock reading. -/
inductive Action where
  | producer (headFirst : Bool) (clock : BitVec 64)
  | consumer (headFirst : Bool)

/-- The machine runs the two processes on one shared memory. -/
def machine (file : List PacketPayload) (expected : Word) : Machine State Action Event where
  step state
    | .producer headFirst clock => producerStep file headFirst clock state
    | .consumer headFirst => consumerStep expected headFirst state

def ringMask : Word := BitVec.ofNat 32 (bufferSize - 1)

/-- The function `main` starts with every index in the free ring. -/
def initial : State where
  freeRing := {
    head := BitVec.ofNat 32 bufferSize
    tail := 0
    mask := ringMask
    buffer := fun slot => if slot.toNat < bufferSize then slot else 0 }
  readyRing := { head := 0, tail := 0, mask := ringMask, buffer := fun _ => 0 }
  packetBuf := fun _ => ⟨0, 0, 0, fun _ => 0⟩
  producer := { curr := 0, pc := .loop }
  consumer := { packetCount := 0, checksum := 0, pc := .loop }

/-- The indices of a ring lie in the slots from its tail to its head. -/
def Ringbuf.indices (ring : Ringbuf) : List Word :=
  Ring.contents ring.mask ring.buffer ring.tail ring.head

/-- A process holds an index from the advance of one ring to the advance of the other. -/
def Pc.held {Work : Type} : Pc Work → List Word
  | .work index _ | .loadHead index | .storeSlot index _ | .publishLoad index | .publishStore index _ => [index]
  | _ => []

def Event.publication : Event → Option (Word × Packet)
  | .published index packet => some (index, packet)
  | _ => none

def Event.load : Event → Option (Word × Fin payloadSize × Byte)
  | .loaded index position byte => some (index, position, byte)
  | _ => none

/-- The publications in the order of the advances of `ready_ring->head`. -/
def published (trace : List Event) : List (Word × Packet) := trace.filterMap Event.publication

/-- The consumer's loads from packet buffers in their order. -/
def loaded (trace : List Event) : List (Word × Fin payloadSize × Byte) := trace.filterMap Event.load

/-- One processing of a packet loads each payload byte once. -/
def payloadLoads (entry : Word × Packet) : List (Word × Fin payloadSize × Byte) :=
  (List.finRange payloadSize).map fun position => (entry.1, position, entry.2.payload position)

/-- The number of entries that a ring holds. -/
def Ringbuf.entries (ring : Ringbuf) : Nat := (ring.head - ring.tail).toNat

inductive RingCall where
  | push (index : Word)
  | pop

/-- A push writes its slot and advances the head. A pop advances the tail. -/
def Ringbuf.perform (ring : Ringbuf) : RingCall → Ringbuf
  | .push index =>
      { ring with buffer := Function.update ring.buffer (ring.head &&& ring.mask) index, head := ring.head + 1 }
  | .pop => { ring with tail := ring.tail + 1 }

/-- The producer of a ring pushes unless its own test calls the ring full.
The consumer pops only entries that are there. -/
def ringMachine (full : Ringbuf → Bool) : Machine Ringbuf RingCall Unit where
  step ring call :=
    let blocked := match call with
      | .push _ => full ring
      | .pop => ring.entries = 0
    if blocked then none else some (ring.perform call, [])

/-- A producer that counts the entries. -/
def countedFull (ring : Ringbuf) : Bool := bufferSize ≤ ring.entries

/-- A producer that relies on `ring_is_full` alone. -/
def mirrorFull (ring : Ringbuf) : Bool := ringIsFull ring.head ring.tail

/-- The slots from the tail to the head have not been read. -/
def Ringbuf.Unread (ring : Ringbuf) (slot : Word) : Prop :=
  ∃ offset < ring.entries, slot = (ring.tail + BitVec.ofNat 32 offset) &&& ring.mask

/-- A push that `ring_is_full` lets through does not write an unread slot. -/
def SparesUnread (ring : Ringbuf) : RingCall → Prop
  | .push _ => mirrorFull ring = false → ¬ring.Unread (ring.head &&& ring.mask)
  | .pop => True

/-- All slots are unread while the mirror bit of the tail is set. -/
def Ringbuf.Mirrored (ring : Ringbuf) : Prop := ring.entries = bufferSize ∧ ring.tail.getLsbD 7 = true

/-- Both tests tell how many entries the ring holds. -/
def Ringbuf.TestsExact (ring : Ringbuf) : Prop :=
  (ringIsFull ring.head ring.tail = true ↔ ring.entries = bufferSize) ∧
    (ringIsEmpty ring.head ring.tail = true ↔ ring.entries = 0)

/-- No push comes while all slots are unread and the mirror bit of the tail is set. -/
def AvoidsMirror (ring : Ringbuf) : RingCall → Prop
  | .push _ => ¬ring.Mirrored
  | .pop => True

/-- The sum of the payload bytes of a record, as `process_packet` adds them. -/
def PacketPayload.checksum (record : PacketPayload) : BitVec 64 :=
  ((List.finRange payloadSize).map fun position => (record.data position).setWidth 64).sum

end Ostep.PacketProc
