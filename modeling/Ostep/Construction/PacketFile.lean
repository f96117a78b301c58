/-
This file models the loop that writes the packet file and the loop that reads it back from its mapping.
The reader takes any file, since an older file is neither truncated nor checked.
-/

import Ostep.Construction.PacketProc
import Ostep.Library.Memory

namespace Ostep.PacketFile

open Library PacketProc

abbrev Size := BitVec 64

/-- The packed record `packet_payload_t` has a length of four bytes and six bytes of data. -/
def recordSize : Nat := 4 + payloadSize

/-- The records in memory. The bytes are given from the address of the array on, also past its end. -/
structure Records where
  count : Nat
  memory : Nat → Byte
  fits : recordSize * count < 2 ^ 64

/-- The local `buffer_size`. -/
def Records.size (records : Records) : Size := BitVec.ofNat 64 (recordSize * records.count)

/-- The bytes of the array in order. -/
def Records.bytes (records : Records) : List Byte := (List.range (recordSize * records.count)).map records.memory

/-- The writer has appended bytes to the file and has returned or not. -/
structure Writer where
  totalWritten : Size
  appended : List Byte
  returned : Option Int

/-- A write fails or accepts some of the bytes. -/
inductive Outcome where
  | failed
  | accepted (count : Nat)
  deriving DecidableEq

/-- The loop ends with the file descriptor when nothing is left. -/
def Writer.test (records : Records) (fd : Nat) (writer : Writer) : Writer :=
  if writer.totalWritten < records.size then writer else { writer with returned := some fd }

def Writer.start (records : Records) (fd : Nat) : Writer := Writer.test records fd ⟨0, [], none⟩

/-- The offset and the length of the next write. The pointer `pp + total_written` counts records, not bytes. -/
def Writer.request (records : Records) (writer : Writer) : Option (Nat × Nat) :=
  if writer.returned.isSome then none
  else some (recordSize * writer.totalWritten.toNat, (records.size - writer.totalWritten).toNat)

/-- The result of a write is stored without a sign. -/
def Writer.receive (records : Records) (fd : Nat) (writer : Writer) (wlen : Size) : Writer :=
  if wlen < 0 then { writer with returned := some (-1) }
  else Writer.test records fd { writer with totalWritten := writer.totalWritten + wlen }

def Writer.step (records : Records) (fd : Nat) (writer : Writer) (outcome : Outcome) : Option (Writer × List Unit) :=
  match writer.request records, outcome with
  | none, _ => none
  | some _, .failed => some (writer.receive records fd (BitVec.ofInt 64 (-1)), [])
  | some (offset, length), .accepted count =>
      if 1 ≤ count ∧ count ≤ length then
        let bytes := (List.range count).map fun index => records.memory (offset + index)
        some ({ writer with appended := writer.appended ++ bytes }.receive records fd (BitVec.ofNat 64 count), [])
      else none

/-- The machine runs the loop against the outcomes of its writes. -/
def writerMachine (records : Records) (fd : Nat) : Machine Writer Outcome Unit := ⟨Writer.step records fd⟩

/-- The next write stays inside the array, and a returned file descriptor means that the file has its bytes. -/
def Writer.Complete (records : Records) (fd : Nat) (writer : Writer) : Prop :=
  (∀ request ∈ writer.request records, request.1 + request.2 ≤ recordSize * records.count) ∧
    (writer.returned = some (fd : Int) → writer.appended = records.bytes)

/-- The function returns -1 at the first failed write of the schedule. -/
def ReportsFailure (records : Records) (fd : Nat) (outcomes : List Outcome) : Prop :=
  ∀ before writer trace, before ++ [.failed] <+: outcomes →
    (writerMachine records fd).run (Writer.start records fd) (before ++ [.failed]) = some (writer, trace) →
      writer.returned = some (-1)

/-- The mapped file and the bytes that follow it in memory. -/
structure Mapped where
  file : List Byte
  beyond : Nat → Byte

def Mapped.byteAt (mapped : Mapped) (offset : Nat) : Byte :=
  if inside : offset < mapped.file.length then mapped.file[offset] else mapped.beyond offset

/-- The length field of the record at an offset is little-endian. -/
def Mapped.len (mapped : Mapped) (curr : Nat) : Word :=
  mapped.byteAt (curr + 3) ++ mapped.byteAt (curr + 2) ++ mapped.byteAt (curr + 1) ++ mapped.byteAt curr

/-- The size of `packet_t` with its padding. -/
def packetSize : Nat := 24

/-- The offset of the payload in a packet. -/
def payloadOffset : Nat := 16

/-- The bytes of a range have new contents. -/
def copy (memory : Nat → Byte) (start length : Nat) (content : Nat → Byte) : Nat → Byte := fun location =>
  if start ≤ location ∧ location < start + length then content (location - start) else memory location

/-- The function copies as many bytes as the length field says. -/
def readNextPacketFromFile (mapped : Mapped) (curr packet : Nat) (packetBuf : Nat → Byte) : Word × (Nat → Byte) :=
  let payloadLen := mapped.len curr
  (payloadLen, copy packetBuf (packet + payloadOffset) payloadLen.toNat fun index => mapped.byteAt (curr + 4 + index))

/-- The offset `curr` in the mapped file and the packet buffers. -/
structure Reader where
  curr : Nat
  packetBuf : Nat → Byte

/-- One call of `read_next_packet_from_file` with the packet buffers before and after it. -/
structure Fetch where
  index : Fin bufferSize
  curr : Nat
  payloadLen : Nat
  before : Nat → Byte
  after : Nat → Byte

/-- The producer fills the packet whose index the free ring gives and sets its header. -/
def Reader.step (mapped : Mapped) (reader : Reader) (choice : Fin bufferSize × BitVec 64) :
    Option (Reader × List Fetch) :=
  if reader.curr < mapped.file.length then
    let packet := packetSize * choice.1
    let (payloadSz, fetched) := readNextPacketFromFile mapped reader.curr packet reader.packetBuf
    let sized := copy fetched (packet + 8) 4 (Memory.byte payloadSz.toNat)
    let stamped := copy sized packet 8 (Memory.byte choice.2.toNat)
    let filled := copy stamped (packet + 12) 4 (Memory.byte highPriority.toNat)
    some (⟨reader.curr + recordSize, filled⟩, [⟨choice.1, reader.curr, payloadSz.toNat, reader.packetBuf, fetched⟩])
  else none

/-- The machine runs the producer loop over the indices and the clock readings that it gets. -/
def readerMachine (mapped : Mapped) : Machine Reader (Fin bufferSize × BitVec 64) Fetch := ⟨Reader.step mapped⟩

/-- The call reads the length field and the bytes that it copies. -/
def Fetch.Reads (fetch : Fetch) (offset : Nat) : Prop :=
  fetch.curr ≤ offset ∧ offset < fetch.curr + 4 ∨
    fetch.curr + 4 ≤ offset ∧ offset < fetch.curr + 4 + fetch.payloadLen

/-- The call writes the bytes that it copies. -/
def Fetch.Writes (fetch : Fetch) (location : Nat) : Prop :=
  packetSize * fetch.index + payloadOffset ≤ location ∧
    location < packetSize * fetch.index + payloadOffset + fetch.payloadLen

/-- The payload of the packet that the call was given. -/
def Fetch.Payload (fetch : Fetch) (location : Nat) : Prop :=
  packetSize * fetch.index + payloadOffset ≤ location ∧
    location < packetSize * fetch.index + payloadOffset + payloadSize

/-- A call reads inside the file, writes inside the payload and leaves everything else as it was. -/
structure Fetch.InBounds (mapped : Mapped) (fetch : Fetch) : Prop where
  reads : ∀ offset, fetch.Reads offset → offset < mapped.file.length
  writes : ∀ location, fetch.Writes location → fetch.Payload location
  kept : ∀ location, ¬fetch.Payload location → fetch.after location = fetch.before location

/-- A record lies in the file with the data that its length field promises, and this data fits a payload. -/
def Mapped.Sound (mapped : Mapped) (record : Nat) : Prop :=
  recordSize * record + 4 + (mapped.len (recordSize * record)).toNat ≤ mapped.file.length ∧
    (mapped.len (recordSize * record)).toNat ≤ payloadSize

end Ostep.PacketFile
