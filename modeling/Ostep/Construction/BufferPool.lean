/-
This file models the fixed-size block allocator of the packet buffer pool.
The free list is threaded through the first eight bytes of each free block.
-/

import Ostep.Library.Machine
import Ostep.Library.Memory

namespace Ostep.BufferPool
open Ostep.Library

abbrev Addr := BitVec 64

abbrev Memory := Memory.Bytes 64

/-- The free list ends with this address. -/
def invalidAddr : Addr := BitVec.allOnes 64

/-- An allocation from an empty pool returns this address. -/
def null : Addr := 0

/-- A `uintptr_t` load reads eight bytes. -/
def loadAddr (memory : Memory) (address : Addr) : Addr := BitVec.ofNat 64 (Memory.load memory address 8)

/-- A `uintptr_t` store writes eight bytes. -/
def storeAddr (memory : Memory) (address value : Addr) : Memory := Memory.store memory address 8 value.toNat

/-- The pool keeps only the head of its free list outside the blocks. -/
structure Pool where
  head : Addr
  memory : Memory

/-- Adding and masking rounds up to a multiple of sixty-four. -/
def alignUp (value : Addr) : Addr := (value + 63) &&& ~~~63

/-- A block has room for one address and a multiple of sixty-four bytes. -/
def roundBlock (blockSize : Addr) : Addr := alignUp (if blockSize < 8 then 8 else blockSize)

/-- The value that initialization stores at an address of the pool. -/
def link (poolEnd blockSize curr : Addr) : Addr :=
  if curr + blockSize ≤ poolEnd then curr + blockSize else invalidAddr

/-- The initialization loop links each address to the next one. It fails when the fuel runs out. -/
def linkBlocks (poolEnd blockSize : Addr) : Nat → Addr → Memory → Option Memory
  | 0, _, _ => none
  | fuel + 1, curr, memory =>
      if curr < poolEnd then
        linkBlocks poolEnd blockSize fuel (curr + blockSize)
          (storeAddr memory curr (link poolEnd blockSize curr))
      else some memory

/-- Initialization aligns the head and links the blocks of the raw memory. -/
def bufferPoolInit (fuel : Nat) (memory : Memory) (rawMemory poolSize blockSize : Addr) : Option Pool :=
  (linkBlocks (rawMemory + poolSize) (roundBlock blockSize) fuel (alignUp rawMemory) memory).map
    fun linked => ⟨alignUp rawMemory, linked⟩

/-- An allocation returns the head and follows its link. -/
def bufferPoolAlloc (pool : Pool) : Addr × Pool :=
  if pool.head = invalidAddr then (null, pool)
  else (pool.head, { pool with head := loadAddr pool.memory pool.head })

/-- A free makes the block the new head. -/
def bufferPoolFree (pool : Pool) (ptr : Addr) : Pool := ⟨ptr, storeAddr pool.memory ptr pool.head⟩

/-- A block is an object with room for one address. The null pointer is the address of no object. -/
structure Block where
  address : Addr
  size : Nat
  room : 8 ≤ size
  fits : address.toNat + size ≤ 2 ^ 64
  nonNull : address ≠ null

/-- A block contains the bytes from its address. -/
def Block.Contains (block : Block) (location : Addr) : Prop :=
  block.address.toNat ≤ location.toNat ∧ location.toNat < block.address.toNat + block.size

instance (block : Block) (location : Addr) : Decidable (block.Contains location) :=
  inferInstanceAs (Decidable (_ ∧ _))

/-- Two spans of bytes have no byte in common. -/
def Apart (first firstSize second secondSize : Nat) : Prop :=
  first + firstSize ≤ second ∨ second + secondSize ≤ first

/-- The blocks of a layout are pairwise disjoint. -/
structure Layout where
  blocks : List Block
  apart : blocks.Pairwise fun first second =>
    Apart first.address.toNat first.size second.address.toNat second.size

/-- The addresses of the blocks. -/
def Layout.addresses (layout : Layout) : List Addr := layout.blocks.map Block.address

/-- A client remembers the blocks it was handed and has not freed. -/
structure Client where
  pool : Pool
  allocated : List Addr

inductive Call where
  | alloc
  | free (ptr : Addr)
  deriving Repr, DecidableEq

inductive Event where
  | handed (result : Addr)
  | freed (ptr : Addr)
  deriving Repr, DecidableEq

/-- A client allocates at any time and frees only blocks that it holds. -/
def callStep (client : Client) : Call → Option (Client × List Event)
  | .alloc =>
      let (result, pool) := bufferPoolAlloc client.pool
      some (⟨pool, if result = null then client.allocated else result :: client.allocated⟩, [.handed result])
  | .free ptr =>
      if ptr ∈ client.allocated then
        some (⟨bufferPoolFree client.pool ptr, client.allocated.erase ptr⟩, [.freed ptr])
      else none

/-- The client makes one call after another. -/
def callMachine : Machine Client Call Event := ⟨callStep⟩

inductive Action where
  | call (call : Call)
  | write (location : Addr) (byte : BitVec 8)
  deriving Repr, DecidableEq

/-- A location is in a block that the client holds. -/
def Client.Owns (layout : Layout) (client : Client) (location : Addr) : Prop :=
  ∃ block ∈ layout.blocks, block.address ∈ client.allocated ∧ block.Contains location

instance (layout : Layout) (client : Client) (location : Addr) : Decidable (client.Owns layout location) :=
  inferInstanceAs (Decidable (∃ block ∈ layout.blocks, _ ∧ _))

/-- The client may also write any byte of the blocks that it holds. -/
def actionStep (layout : Layout) (client : Client) : Action → Option (Client × List Event)
  | .call call => callStep client call
  | .write location byte =>
      if client.Owns layout location then
        some ({ client with
          pool := { client.pool with memory := Function.update client.pool.memory location byte } }, [])
      else none

/-- Calls and client writes interleave. -/
def machine (layout : Layout) : Machine Client Action Event := ⟨actionStep layout⟩

/-- One event changes the freed blocks that were not handed out again. -/
def record (waiting : List Addr) : Event → List Addr
  | .handed result => waiting.erase result
  | .freed ptr => ptr :: waiting

/-- The freed blocks that were not handed out again, the most recent first. -/
def outstanding (trace : List Event) : List Addr := trace.foldl record []

/-- The arguments of initialization. Neither the pool end nor the rounding of the block size wraps. -/
structure Region where
  rawMemory : Addr
  poolSize : Addr
  blockSize : Addr
  ends : rawMemory.toNat + poolSize.toNat < 2 ^ 64
  rounds : blockSize.toNat + 63 < 2 ^ 64

namespace Region

/-- The pool ends before this address. -/
def stop (region : Region) : Nat := region.rawMemory.toNat + region.poolSize.toNat

/-- The block size rounded up to a positive multiple of sixty-four. -/
def blockBytes (region : Region) : Nat := 64 * max 1 ((region.blockSize.toNat + 63) / 64)

/-- The first multiple of sixty-four at or above the raw memory. -/
def firstAligned (region : Region) : Nat := 64 * ((region.rawMemory.toNat + 63) / 64)

/-- The number of whole blocks from the first aligned address to the end of the pool. -/
def blockCount (region : Region) : Nat := (region.stop - region.firstAligned) / region.blockBytes

/-- An address is aligned and starts a whole block inside the pool. -/
def Inside (region : Region) (address : Addr) : Prop :=
  64 ∣ address.toNat ∧ region.rawMemory.toNat ≤ address.toNat ∧ address.toNat + region.blockBytes ≤ region.stop

/-- The next allocation returns a block inside the pool, and the null pointer exactly when all blocks are out. -/
def AllocConforms (region : Region) (client : Client) : Prop :=
  ((bufferPoolAlloc client.pool).1 ≠ null → region.Inside (bufferPoolAlloc client.pool).1) ∧
    ((bufferPoolAlloc client.pool).1 = null ↔ client.allocated.length = region.blockCount)

/-- The blocks that the client holds are pairwise disjoint. -/
def HoldsApart (region : Region) (client : Client) : Prop :=
  client.allocated.Pairwise fun first second =>
    Apart first.toNat region.blockBytes second.toNat region.blockBytes

/-- Initialization of the region. -/
def init (region : Region) (fuel : Nat) (memory : Memory) : Option Pool :=
  bufferPoolInit fuel memory region.rawMemory region.poolSize region.blockSize

/-- Initialization returns, and every later call of a client conforms. -/
def Correct (region : Region) (memory : Memory) : Prop :=
  ∃ fuel pool, region.init fuel memory = some pool ∧
    ∀ calls client trace, callMachine.run ⟨pool, []⟩ calls = some (client, trace) →
      region.AllocConforms client ∧ region.HoldsApart client

/-- A client allocates only while fewer blocks are held than the pool has. -/
def WithinCount (region : Region) (client : Client) (call : Call) : Prop :=
  call = .alloc → client.allocated.length < region.blockCount

instance (region : Region) (client : Client) (call : Call) : Decidable (region.WithinCount client call) :=
  inferInstanceAs (Decidable (_ → _))

end Region
end Ostep.BufferPool
