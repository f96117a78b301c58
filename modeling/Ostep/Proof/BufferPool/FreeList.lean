import Mathlib.Data.List.Nodup
import Mathlib.Data.List.Pairwise
import Ostep.Construction.BufferPool

namespace Ostep.BufferPool
open Ostep.Library List
open Ostep.Library.Memory (Linked)

/-- A stored address is read back. -/
theorem loadAddr_storeAddr (memory : Memory) (address value : Addr) :
    loadAddr (storeAddr memory address value) address = value := by
  have whole : value.toNat % 256 ^ 8 = value.toNat := Nat.mod_eq_of_lt (by simpa using value.isLt)
  rw [loadAddr, storeAddr, Memory.load_store memory address value.toNat (by decide), whole]
  simp

/-- An address is read from its eight bytes. -/
theorem loadAddr_congr {memory other : Memory} {address : Addr} (fits : address.toNat + 8 ≤ 2 ^ 64)
    (same : ∀ location : Addr, address.toNat ≤ location.toNat → location.toNat < address.toNat + 8 →
      other location = memory location) : loadAddr other address = loadAddr memory address := by
  unfold loadAddr
  rw [Memory.load_congr]
  intro offset inside
  have position : (address + BitVec.ofNat 64 offset).toNat = address.toNat + offset := by
    rw [BitVec.toNat_add, BitVec.toNat_ofNat]
    omega
  exact same _ (by omega) (by omega)

/-- A store of an address keeps every byte outside its eight bytes. -/
theorem storeAddr_outside {memory : Memory} {address location : Addr} (value : Addr)
    (fits : address.toNat + 8 ≤ 2 ^ 64)
    (outside : location.toNat < address.toNat ∨ address.toNat + 8 ≤ location.toNat) :
    storeAddr memory address value location = memory location :=
  Memory.store_outside memory value.toNat (by bv_omega)

/-- Two different blocks of a layout have no byte in common. -/
theorem Layout.blocks_apart (layout : Layout) {first second : Block} (present : first ∈ layout.blocks)
    (listed : second ∈ layout.blocks) (different : first ≠ second) :
    Apart first.address.toNat first.size second.address.toNat second.size :=
  have : Std.Symm fun first second : Block =>
      Apart first.address.toNat first.size second.address.toNat second.size := ⟨fun _ _ apart => apart.symm⟩
  layout.apart.forall present listed different

/-- No two blocks of a layout have the same address. -/
theorem Layout.addresses_nodup (layout : Layout) : layout.addresses.Nodup := by
  refine List.pairwise_map.mpr (layout.apart.imp fun {first second} apart same => ?_)
  have firstRoom := first.room
  have secondRoom := second.room
  rw [same] at apart
  unfold Apart at apart
  omega

/-- The address of a block is neither null nor the end of the free list. -/
theorem Layout.address_valid (layout : Layout) {address : Addr} (listed : address ∈ layout.addresses) :
    address ≠ null ∧ address ≠ invalidAddr ∧ address.toNat + 8 ≤ 2 ^ 64 := by
  obtain ⟨block, -, rfl⟩ := List.mem_map.mp listed
  have room := block.room
  have fits := block.fits
  refine ⟨block.nonNull, fun same => ?_, by omega⟩
  rw [same] at fits
  have last : invalidAddr.toNat = 2 ^ 64 - 1 := by decide
  omega

/-- A change inside one block keeps the links of the other blocks. -/
theorem Layout.load_frame (layout : Layout) {memory other : Memory} {block : Block}
    (present : block ∈ layout.blocks)
    (same : ∀ location, ¬block.Contains location → other location = memory location) {address : Addr}
    (listed : address ∈ layout.addresses) (different : address ≠ block.address) :
    loadAddr other address = loadAddr memory address := by
  obtain ⟨owner, member, rfl⟩ := List.mem_map.mp listed
  have apart := layout.blocks_apart member present fun equal => different (congrArg Block.address equal)
  have room := owner.room
  have fits := owner.fits
  refine loadAddr_congr (by omega) fun location low high => same location ?_
  rintro ⟨start, inside⟩
  unfold Apart at apart
  omega

/-- The free list and the held blocks partition the layout. The free list ends at the last link. -/
structure Holds (layout : Layout) (last : Addr) (client : Client) (chain : List Addr) : Prop where
  linked : Linked (loadAddr client.pool.memory) last client.pool.head chain
  partition : chain ++ client.allocated ~ layout.addresses

variable {layout : Layout} {last : Addr} {client : Client} {chain : List Addr}

/-- Every free or held block is a block of the layout. -/
theorem Holds.listed (holds : Holds layout last client chain) {address : Addr}
    (member : address ∈ chain ∨ address ∈ client.allocated) : address ∈ layout.addresses :=
  holds.partition.mem_iff.mp (List.mem_append.mpr member)

/-- No block is free twice, held twice, or both free and held. -/
theorem Holds.nodup (holds : Holds layout last client chain) : (chain ++ client.allocated).Nodup :=
  holds.partition.nodup_iff.mpr layout.addresses_nodup

/-- An allocation hands out the first block of the free list and changes no byte. -/
theorem Holds.alloc {first : Addr} {rest : List Addr} (holds : Holds layout last client (first :: rest)) :
    bufferPoolAlloc client.pool = (first, { client.pool with head := loadAddr client.pool.memory first }) ∧
      Holds layout last
        ⟨{ client.pool with head := loadAddr client.pool.memory first }, first :: client.allocated⟩ rest := by
  obtain ⟨-, valid, -⟩ := layout.address_valid (holds.listed (Or.inl List.mem_cons_self))
  have head : client.pool.head = first := holds.linked.1
  refine ⟨?_, holds.linked.2, ?_⟩
  · rw [bufferPoolAlloc, if_neg (by rwa [head]), head]
  · exact List.perm_middle.trans holds.partition

/-- A freed block becomes the first block of the free list. -/
theorem Holds.free {ptr : Addr} (holds : Holds layout last client chain) (held : ptr ∈ client.allocated) :
    Holds layout last ⟨bufferPoolFree client.pool ptr, client.allocated.erase ptr⟩ (ptr :: chain) := by
  obtain ⟨block, present, address⟩ := List.mem_map.mp (holds.listed (Or.inr held))
  refine ⟨holds.linked.push (loadAddr_storeAddr _ _ _) fun later member => ?_, ?_⟩
  · have different : later ≠ ptr := by
      rintro rfl
      exact List.disjoint_of_nodup_append holds.nodup member held
    refine layout.load_frame present (fun location outside => ?_) (holds.listed (Or.inl member))
      (address ▸ different)
    have room := block.room
    have fits := block.fits
    rw [address] at fits
    refine storeAddr_outside _ (by omega) ?_
    rw [← address]
    unfold Block.Contains at outside
    omega
  · refine Perm.trans ?_ holds.partition
    exact List.perm_middle.symm.trans ((List.perm_cons_erase held).symm.append_left chain)

/-- A write into a held block keeps the free list. -/
theorem Holds.write {location : Addr} (holds : Holds layout last client chain)
    (owned : client.Owns layout location) (byte : BitVec 8) :
    Holds layout last { client with
      pool := { client.pool with memory := Function.update client.pool.memory location byte } } chain := by
  obtain ⟨block, present, held, inside⟩ := owned
  refine ⟨holds.linked.congr fun address member => ?_, holds.partition⟩
  have different : address ≠ block.address := by
    rintro rfl
    exact List.disjoint_of_nodup_append holds.nodup member held
  refine layout.load_frame present (fun other outside => ?_) (holds.listed (Or.inl member)) different
  refine Function.update_of_ne ?_ _ _
  rintro rfl
  exact outside inside

/-- An allocation from an empty free list returns null and changes nothing. -/
theorem Holds.alloc_empty (holds : Holds layout invalidAddr client []) :
    bufferPoolAlloc client.pool = (null, client.pool) :=
  if_pos holds.linked

/-- The client holds the block that an allocation hands out. -/
theorem Holds.callStep_alloc {first : Addr} {rest : List Addr}
    (holds : Holds layout last client (first :: rest)) :
    ∃ next, callStep client .alloc = some (next, [.handed first]) ∧ Holds layout last next rest ∧
      next.allocated = first :: client.allocated := by
  obtain ⟨returned, advanced⟩ := holds.alloc
  obtain ⟨nonNull, -⟩ := layout.address_valid (holds.listed (Or.inl List.mem_cons_self))
  refine ⟨_, ?_, advanced, rfl⟩
  simp only [callStep, returned, if_neg nonNull]

/-- One event extends the history of the freed blocks. -/
theorem outstanding_append (past : List Event) (event : Event) :
    outstanding (past ++ [event]) = record (outstanding past) event := by
  simp only [outstanding, List.foldl_append, List.foldl_cons, List.foldl_nil]

/-- Each call keeps the freed blocks in front of the blocks that were never handed out. -/
theorem Holds.call {past events : List Event} {unused : List Addr} {call : Call} {next : Client}
    (holds : Holds layout invalidAddr client (outstanding past ++ unused))
    (stepped : callStep client call = some (next, events)) :
    ∃ rest, rest <:+ unused ∧ Holds layout invalidAddr next (outstanding (past ++ events) ++ rest) := by
  cases call with
  | alloc =>
      cases waiting : outstanding past with
      | nil =>
          rw [waiting] at holds
          cases unused with
          | nil =>
              simp only [callStep, holds.alloc_empty, if_true, Option.some.injEq, Prod.mk.injEq] at stepped
              obtain ⟨rfl, rfl⟩ := stepped
              refine ⟨[], List.suffix_rfl, ?_⟩
              rw [outstanding_append, waiting]
              exact holds
          | cons first rest =>
              obtain ⟨after, called, advanced, -⟩ := holds.callStep_alloc
              obtain ⟨rfl, rfl⟩ := Prod.mk.inj (Option.some.inj (called.symm.trans stepped))
              refine ⟨rest, List.suffix_cons first rest, ?_⟩
              rw [outstanding_append, waiting]
              exact advanced
      | cons first rest =>
          rw [waiting, List.cons_append] at holds
          obtain ⟨after, called, advanced, -⟩ := holds.callStep_alloc
          obtain ⟨rfl, rfl⟩ := Prod.mk.inj (Option.some.inj (called.symm.trans stepped))
          refine ⟨unused, List.suffix_rfl, ?_⟩
          rw [outstanding_append, waiting, record, List.erase_cons_head]
          exact advanced
  | free ptr =>
      by_cases held : ptr ∈ client.allocated
      · simp only [callStep, if_pos held, Option.some.injEq, Prod.mk.injEq] at stepped
        obtain ⟨rfl, rfl⟩ := stepped
        refine ⟨unused, List.suffix_rfl, ?_⟩
        rw [outstanding_append]
        exact holds.free held
      · simp [callStep, held] at stepped

/-- Each action keeps the freed blocks in front of the blocks that were never handed out. -/
theorem Holds.step {past events : List Event} {unused : List Addr} {action : Action} {next : Client}
    (holds : Holds layout invalidAddr client (outstanding past ++ unused))
    (stepped : (machine layout).step client action = some (next, events)) :
    ∃ rest, rest <:+ unused ∧ Holds layout invalidAddr next (outstanding (past ++ events) ++ rest) := by
  cases action with
  | call call => exact holds.call stepped
  | write location byte =>
      by_cases owned : client.Owns layout location
      · simp only [machine, actionStep, if_pos owned, Option.some.injEq, Prod.mk.injEq] at stepped
        obtain ⟨rfl, rfl⟩ := stepped
        refine ⟨unused, List.suffix_rfl, ?_⟩
        rw [List.append_nil]
        exact holds.write owned byte
      · simp [machine, actionStep, owned] at stepped

/-- Every run keeps the freed blocks in front of the blocks that were never handed out. -/
theorem run_holds {pool : Pool} {schedule : List Action} {trace : List Event}
    (linked : Linked (loadAddr pool.memory) invalidAddr pool.head layout.addresses)
    (ran : (machine layout).run ⟨pool, []⟩ schedule = some (client, trace)) :
    ∃ unused, unused <:+ layout.addresses ∧ Holds layout invalidAddr client (outstanding trace ++ unused) := by
  refine (machine layout).run_invariant (fun past reached =>
    ∃ unused, unused <:+ layout.addresses ∧ Holds layout invalidAddr reached (outstanding past ++ unused))
    ?_ ?_ ran
  · rintro past reached action next events ⟨unused, initial, holds⟩ stepped
    obtain ⟨rest, shorter, advanced⟩ := holds.step stepped
    exact ⟨rest, shorter.trans initial, advanced⟩
  · refine ⟨layout.addresses, List.suffix_rfl, linked, ?_⟩
    rw [List.append_nil]
    exact List.Perm.refl _

/-- An allocation returns the first block of the free list, and null exactly when the list is empty. -/
theorem Holds.alloc_result (holds : Holds layout invalidAddr client chain) :
    (bufferPoolAlloc client.pool).1 = chain.head?.getD null ∧
      ((bufferPoolAlloc client.pool).1 = null ↔ chain = []) ∧
      (bufferPoolAlloc client.pool).1 ∉ client.allocated ∧
      (bufferPoolAlloc client.pool).2.memory = client.pool.memory := by
  cases chain with
  | nil =>
      rw [holds.alloc_empty]
      refine ⟨rfl, iff_of_true rfl rfl, fun held => ?_, rfl⟩
      exact (layout.address_valid (holds.listed (Or.inr held))).1 rfl
  | cons first rest =>
      have nonNull := (layout.address_valid (holds.listed (Or.inl List.mem_cons_self))).1
      rw [holds.alloc.1]
      refine ⟨rfl, iff_of_false nonNull (List.cons_ne_nil first rest), fun held => ?_, rfl⟩
      exact List.disjoint_of_nodup_append holds.nodup List.mem_cons_self held

/-- A free changes no byte outside the first eight bytes of the freed block. -/
theorem bufferPoolFree_outside (pool : Pool) {ptr location : Addr} (outside : 8 ≤ (location - ptr).toNat) :
    (bufferPoolFree pool ptr).memory location = pool.memory location :=
  Memory.store_outside pool.memory pool.head.toNat outside

/-- The free list stays finite, free of cycles, and disjoint from the held blocks.
An allocation returns its first block, which is the most recently freed one.
The pool changes no byte outside the first eight bytes of a freed block. -/
theorem bufferPool_freeList_partition (layout : Layout) (pool : Pool) (schedule : List Action)
    (client : Client) (trace : List Event)
    (linked : Linked (loadAddr pool.memory) invalidAddr pool.head layout.addresses)
    (ran : (machine layout).run ⟨pool, []⟩ schedule = some (client, trace)) :
    ∃ chain, Linked (loadAddr client.pool.memory) invalidAddr client.pool.head chain ∧
      chain ++ client.allocated ~ layout.addresses ∧ (chain ++ client.allocated).Nodup ∧
      (∃ unused, unused <:+ layout.addresses ∧ chain = outstanding trace ++ unused) ∧
      (bufferPoolAlloc client.pool).1 = chain.head?.getD null ∧
      ((bufferPoolAlloc client.pool).1 = null ↔ chain = []) ∧
      (bufferPoolAlloc client.pool).1 ∉ client.allocated ∧
      (bufferPoolAlloc client.pool).2.memory = client.pool.memory ∧
      ∀ ptr location, 8 ≤ (location - ptr).toNat →
        (bufferPoolFree client.pool ptr).memory location = client.pool.memory location := by
  obtain ⟨unused, never, holds⟩ := run_holds linked ran
  obtain ⟨first, empty, fresh, unchanged⟩ := holds.alloc_result
  exact ⟨outstanding trace ++ unused, holds.linked, holds.partition, holds.nodup, ⟨unused, never, rfl⟩, first,
    empty, fresh, unchanged, fun ptr location outside => bufferPoolFree_outside client.pool outside⟩

/-- Two blocks of sixty-four bytes. -/
def twoBlocks : Layout :=
  ⟨[⟨4096, 64, by decide, by decide, by decide⟩, ⟨8192, 64, by decide, by decide, by decide⟩], by simp [Apart]⟩

/-- A pool of two blocks whose free list starts at the lower one. -/
def twoBlockPool : Pool := ⟨4096, storeAddr (storeAddr (fun _ => 0) 4096 8192) 8192 invalidAddr⟩

/-- A block that was written and freed is handed out again before the other free block. -/
theorem bufferPool_twoBlocks :
    ∃ client trace, (machine twoBlocks).run ⟨twoBlockPool, []⟩
        [.call .alloc, .write 4100 7, .call (.free 4096)] = some (client, trace) ∧
      (bufferPoolAlloc client.pool).1 = 4096 ∧ client.allocated = [] ∧
      ∃ chain, Linked (loadAddr client.pool.memory) invalidAddr client.pool.head chain ∧
        chain ++ client.allocated ~ twoBlocks.addresses ∧ chain.head? = some 4096 := by
  have complete : ((machine twoBlocks).run ⟨twoBlockPool, []⟩
      [.call .alloc, .write 4100 7, .call (.free 4096)]).map
        (fun result => ((bufferPoolAlloc result.1.pool).1, result.1.allocated)) = some (4096, []) := by decide
  obtain ⟨⟨client, trace⟩, ran, ended⟩ := Option.map_eq_some_iff.mp complete
  obtain ⟨again, none⟩ := Prod.mk.inj ended
  have linked : Linked (loadAddr twoBlockPool.memory) invalidAddr twoBlockPool.head twoBlocks.addresses :=
    ⟨rfl, by decide, show loadAddr twoBlockPool.memory 8192 = invalidAddr by decide⟩
  obtain ⟨chain, ends, partition, -, -, first, -⟩ :=
    bufferPool_freeList_partition twoBlocks twoBlockPool _ client trace linked ran
  refine ⟨client, trace, ran, again, none, chain, ends, partition, ?_⟩
  rw [again] at first
  cases chain with
  | nil => cases first
  | cons block rest => exact congrArg some first.symm

end Ostep.BufferPool
