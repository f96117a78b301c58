import Ostep.Proof.BufferPool.Init

namespace Ostep.BufferPool
open Ostep.Library List
open Ostep.Library.Memory (Linked)

/-- Allocating the whole free list empties it. -/
theorem Holds.drain {layout : Layout} {last : Addr} {client : Client} {chain : List Addr}
    (holds : Holds layout last client chain) :
    ∃ final trace, callMachine.run client (List.replicate chain.length .alloc) = some (final, trace) ∧
      Holds layout last final [] := by
  induction chain generalizing client with
  | nil => exact ⟨client, [], rfl, holds⟩
  | cons first rest ih =>
      obtain ⟨next, stepped, advanced, -⟩ := holds.callStep_alloc
      obtain ⟨final, trace, ran, empty⟩ := ih advanced
      refine ⟨final, [Event.handed first] ++ trace, ?_, empty⟩
      exact callMachine.run_cons_eq_some.mpr ⟨next, _, trace, stepped, ran, rfl⟩

namespace Region

variable (region : Region)

/-- The address of a block, counted from the first aligned address. -/
def address (index : Nat) : Addr := BitVec.ofNat 64 (region.firstAligned + index * region.blockBytes)

theorem blockBytes_aligned : 64 ∣ region.blockBytes := Nat.dvd_mul_right 64 _

theorem blockBytes_large : 64 ≤ region.blockBytes := by
  unfold blockBytes
  omega

theorem roundBlock_aligned : 64 ∣ (roundBlock region.blockSize).toNat :=
  region.roundBlock_toNat ▸ region.blockBytes_aligned

/-- The end of the pool does not wrap. -/
theorem end_toNat : (region.rawMemory + region.poolSize).toNat = region.stop := by
  rw [BitVec.toNat_add]
  exact Nat.mod_eq_of_lt region.ends

theorem firstAligned_bounds :
    region.rawMemory.toNat ≤ region.firstAligned ∧ region.firstAligned < region.rawMemory.toNat + 64 := by
  unfold firstAligned
  omega

/-- The blocks up to the count end before the end of the pool. -/
theorem index_inside {index : Nat} (inside : index < region.blockCount) :
    region.firstAligned + index * region.blockBytes + region.blockBytes ≤ region.stop := by
  have whole : (index + 1) * region.blockBytes ≤ region.stop - region.firstAligned :=
    (Nat.mul_le_mul_right _ inside).trans (Nat.div_mul_le_self _ _)
  have large := region.blockBytes_large
  have distributed := Nat.add_one_mul index region.blockBytes
  omega

/-- No address up to the end of the last block wraps. -/
theorem address_toNat (low : region.firstAligned < 2 ^ 64) {index : Nat} (inside : index ≤ region.blockCount) :
    (region.address index).toNat = region.firstAligned + index * region.blockBytes := by
  have ends : region.stop < 2 ^ 64 := region.ends
  refine BitVec.toNat_ofNat .. |>.trans (Nat.mod_eq_of_lt ?_)
  cases index with
  | zero => simpa using low
  | succ index =>
      have before := region.index_inside inside
      have distributed := Nat.add_one_mul index region.blockBytes
      omega

/-- The blocks and the end of the last one are aligned. -/
theorem address_aligned (low : region.firstAligned < 2 ^ 64) {index : Nat} (inside : index ≤ region.blockCount) :
    64 ∣ (region.address index).toNat := by
  rw [region.address_toNat low inside]
  exact Nat.dvd_add (Nat.dvd_mul_right 64 _) (region.blockBytes_aligned.mul_left index)

/-- The end of the last block is aligned, so it does not end a free list. -/
theorem address_ne_invalidAddr (low : region.firstAligned < 2 ^ 64) {index : Nat}
    (inside : index ≤ region.blockCount) : region.address index ≠ invalidAddr := by
  intro same
  have last : invalidAddr.toNat = 2 ^ 64 - 1 := by decide
  have aligned := region.address_aligned low inside
  rw [same, last] at aligned
  omega

variable {region}

/-- A pool that does not start at null has no block there. -/
theorem address_ne_null (low : region.firstAligned < 2 ^ 64) (nonNull : region.rawMemory ≠ 0) {index : Nat}
    (inside : index ≤ region.blockCount) : region.address index ≠ null := by
  intro same
  have value := region.address_toNat low inside
  have bounds := region.firstAligned_bounds
  have positive : region.rawMemory.toNat ≠ 0 := fun zero => nonNull (BitVec.eq_of_toNat_eq zero)
  rw [same] at value
  change 0 = _ at value
  omega

/-- The whole blocks of the pool are disjoint objects. -/
def layout (low : region.firstAligned < 2 ^ 64) (nonNull : region.rawMemory ≠ 0) : Layout where
  blocks := (List.range region.blockCount).pmap
    (fun index inside => {
      address := region.address index
      size := region.blockBytes
      room := (by decide : 8 ≤ 64).trans region.blockBytes_large
      fits := by
        rw [region.address_toNat low (Nat.le_of_lt inside)]
        exact (region.index_inside inside).trans (Nat.le_of_lt region.ends)
      nonNull := address_ne_null low nonNull (Nat.le_of_lt inside) })
    (fun _ => List.mem_range.mp)
  apart := by
    refine List.pairwise_lt_range.pmap _ fun first firstInside second secondInside ordered => Or.inl ?_
    have scaled : (first + 1) * region.blockBytes ≤ second * region.blockBytes :=
      Nat.mul_le_mul_right _ ordered
    have distributed := Nat.add_one_mul first region.blockBytes
    change (region.address first).toNat + region.blockBytes ≤ (region.address second).toNat
    rw [region.address_toNat low (Nat.le_of_lt firstInside), region.address_toNat low (Nat.le_of_lt secondInside)]
    omega

theorem layout_addresses (low : region.firstAligned < 2 ^ 64) (nonNull : region.rawMemory ≠ 0) :
    (layout low nonNull).addresses = (List.range region.blockCount).map region.address := by
  simp only [Layout.addresses, layout, List.map_pmap, List.pmap_eq_map]

/-- Initialization links the whole blocks in order, but ends the chain at the end of the last block. -/
theorem init_holds {fuel : Nat} {memory : Memory} {pool : Pool} (low : region.firstAligned < 2 ^ 64)
    (nonNull : region.rawMemory ≠ 0) (started : region.init fuel memory = some pool) :
    Holds (layout low nonNull) (region.address region.blockCount) ⟨pool, []⟩ (layout low nonNull).addresses := by
  obtain ⟨linked, ran, rfl⟩ := Option.map_eq_some_iff.mp started
  have bounds := region.firstAligned_bounds
  have ends : region.stop < 2 ^ 64 := region.ends
  have start : (alignUp region.rawMemory).toNat = region.firstAligned := by
    unfold firstAligned at low
    exact alignUp_toNat (by omega)
  have aligned : 64 ∣ (alignUp region.rawMemory).toNat := start ▸ Nat.dvd_mul_right 64 _
  have first : alignUp region.rawMemory = region.address 0 := by
    apply BitVec.eq_of_toNat_eq
    rw [start, region.address_toNat low (Nat.zero_le _), Nat.zero_mul, Nat.add_zero]
  refine ⟨?_, by rw [List.append_nil]⟩
  rw [layout_addresses, List.range_eq_range']
  have chain := Memory.linked_range (loadAddr linked) region.address 0 region.blockCount ?_
  · rw [Nat.zero_add] at chain
    change Linked (loadAddr linked) _ (alignUp region.rawMemory) _
    rwa [first]
  · intro index _ inside
    rw [Nat.zero_add] at inside
    have reached : index + 1 ≤ region.blockCount := inside
    have before := region.index_inside inside
    have large := region.blockBytes_large
    have distributed := Nat.add_one_mul index region.blockBytes
    have stored := linkBlocks_links index aligned region.roundBlock_aligned ran (by
      rw [start, region.end_toNat, region.roundBlock_toNat]
      omega)
    rw [start, region.roundBlock_toNat] at stored
    have next : region.address index + roundBlock region.blockSize = region.address (index + 1) := by
      apply BitVec.eq_of_toNat_eq
      rw [BitVec.toNat_add, region.address_toNat low reached, region.address_toNat low (Nat.le_of_lt inside),
        region.roundBlock_toNat, Nat.mod_eq_of_lt (by omega)]
      omega
    have reaches : region.address (index + 1) ≤ region.rawMemory + region.poolSize := by
      rw [BitVec.le_def, region.end_toNat, region.address_toNat low reached]
      omega
    calc loadAddr linked (region.address index)
        = link (region.rawMemory + region.poolSize) (roundBlock region.blockSize) (region.address index) := stored
      _ = region.address (index + 1) := by rw [link, next, if_pos reaches]

section FreeList

variable {low : region.firstAligned < 2 ^ 64} {nonNull : region.rawMemory ≠ 0}
variable {last : Addr} {client : Client} {chain : List Addr}

/-- A held block count below the block count leaves a free block. -/
theorem free_of_held (holds : Holds (layout low nonNull) last client chain) :
    chain.length + client.allocated.length = region.blockCount := by
  have count := holds.partition.length_eq
  rwa [List.length_append, layout_addresses, List.length_map, List.length_range] at count

/-- The blocks of the pool conform. -/
theorem inside_of_listed {address : Addr} (listed : address ∈ (layout low nonNull).addresses) :
    region.Inside address := by
  rw [layout_addresses, List.mem_map] at listed
  obtain ⟨index, inside, rfl⟩ := listed
  have reached := List.mem_range.mp inside
  have before := region.index_inside reached
  have value := region.address_toNat low (Nat.le_of_lt reached)
  have bounds := region.firstAligned_bounds
  refine ⟨region.address_aligned low (Nat.le_of_lt reached), ?_, value ▸ before⟩
  omega

/-- A call that conforms keeps the free list. -/
theorem call_holds {next : Client} {call : Call} {events : List Event}
    (holds : Holds (layout low nonNull) last client chain)
    (room : call = .alloc → client.allocated.length < region.blockCount)
    (stepped : callStep client call = some (next, events)) :
    ∃ rest, Holds (layout low nonNull) last next rest := by
  cases call with
  | alloc =>
      cases chain with
      | nil =>
          have count := free_of_held holds
          have below := room rfl
          simp only [List.length_nil] at count
          omega
      | cons first rest =>
          obtain ⟨after, called, advanced, -⟩ := holds.callStep_alloc
          obtain ⟨rfl, -⟩ := Prod.mk.inj (Option.some.inj (called.symm.trans stepped))
          exact ⟨rest, advanced⟩
  | free ptr =>
      by_cases held : ptr ∈ client.allocated
      · simp only [callStep, if_pos held, Option.some.injEq, Prod.mk.injEq] at stepped
        obtain ⟨rfl, rfl⟩ := stepped
        exact ⟨ptr :: chain, holds.free held⟩
      · simp [callStep, held] at stepped

/-- The held blocks of the pool are pairwise disjoint. -/
theorem holdsApart (holds : Holds (layout low nonNull) last client chain) : region.HoldsApart client := by
  have : Std.Symm fun first second : Addr =>
      Apart first.toNat region.blockBytes second.toNat region.blockBytes := ⟨fun _ _ apart => apart.symm⟩
  have all : (layout low nonNull).addresses.Pairwise fun first second =>
      Apart first.toNat region.blockBytes second.toNat region.blockBytes := by
    refine List.pairwise_map.mpr ((layout low nonNull).apart.imp_of_mem ?_)
    intro first second firstMember secondMember apart
    obtain ⟨_, _, rfl⟩ := List.mem_pmap.mp firstMember
    obtain ⟨_, _, rfl⟩ := List.mem_pmap.mp secondMember
    exact apart
  exact (List.pairwise_append.mp (holds.partition.symm.pairwise all (fun apart => apart.symm))).2.1

/-- An allocation conforms exactly while a block is free. -/
theorem allocConforms_iff
    (holds : Holds (layout low nonNull) (region.address region.blockCount) client chain) :
    region.AllocConforms client ↔ client.allocated.length < region.blockCount := by
  have count := free_of_held holds
  cases chain with
  | nil =>
      have head : client.pool.head = region.address region.blockCount := holds.linked
      have result : (bufferPoolAlloc client.pool).1 = region.address region.blockCount := by
        rw [bufferPoolAlloc, if_neg (head ▸ region.address_ne_invalidAddr low (le_refl _)), head]
      simp only [List.length_nil, Nat.zero_add] at count
      refine iff_of_false (fun conforms => ?_) (by omega)
      exact address_ne_null low nonNull (le_refl _) (result ▸ conforms.2.mpr count)
  | cons first rest =>
      have listed := holds.listed (Or.inl List.mem_cons_self)
      have valid := ((layout low nonNull).address_valid listed).1
      rw [List.length_cons] at count
      refine iff_of_true ⟨fun _ => ?_, ?_⟩ (by omega)
      · rw [holds.alloc.1]
        exact inside_of_listed listed
      · rw [holds.alloc.1]
        exact iff_of_false valid (by omega)

end FreeList

/-- The client of an idle pool holds nothing. The head and the word at null do not leave null. -/
structure Idle (client : Client) : Prop where
  none : client.allocated = []
  head : client.pool.head = 0 ∨ client.pool.head = invalidAddr
  next : loadAddr client.pool.memory 0 = 0 ∨ loadAddr client.pool.memory 0 = invalidAddr

/-- An idle pool returns null. -/
theorem Idle.result {client : Client} (idle : Idle client) : (bufferPoolAlloc client.pool).1 = null := by
  unfold bufferPoolAlloc
  split
  · rfl
  · next different => exact idle.head.resolve_right different

/-- An idle pool stays idle. -/
theorem Idle.step {client next : Client} {call : Call} {events : List Event} (idle : Idle client)
    (stepped : callStep client call = some (next, events)) : Idle next := by
  cases call with
  | alloc =>
      simp only [callStep, idle.result, if_true, Option.some.injEq, Prod.mk.injEq] at stepped
      obtain ⟨rfl, -⟩ := stepped
      by_cases ended : client.pool.head = invalidAddr
      · rw [bufferPoolAlloc, if_pos ended]
        exact idle
      · have head := idle.head.resolve_right ended
        rw [bufferPoolAlloc, if_neg ended, head]
        exact ⟨idle.none, idle.next, idle.next⟩
  | free ptr => simp [callStep, idle.none] at stepped

/-- Every call on an idle pool conforms when the pool has no whole block. -/
theorem Idle.conforms {pool : Pool} (idle : Idle ⟨pool, []⟩) (empty : region.blockCount = 0) {calls : List Call}
    {client : Client} {trace : List Event} (ran : callMachine.run ⟨pool, []⟩ calls = some (client, trace)) :
    region.AllocConforms client ∧ region.HoldsApart client := by
  have reached : Idle client := callMachine.run_invariant (fun _ => Idle)
    (fun _ _ _ _ _ before stepped => before.step stepped) idle ran
  refine ⟨⟨fun different => absurd reached.result different, ?_⟩, ?_⟩
  · exact iff_of_true reached.result (by rw [reached.none, empty, List.length_nil])
  · rw [HoldsApart, reached.none]
    exact List.Pairwise.nil

/-- Initialization does not return when the first aligned address wraps. -/
theorem init_wraps (wraps : 2 ^ 64 ≤ region.firstAligned) (fuel : Nat) (memory : Memory) :
    region.init fuel memory = none := by
  have bounds := region.firstAligned_bounds
  have ends : region.stop < 2 ^ 64 := region.ends
  have stop := region.end_toNat
  have start : alignUp region.rawMemory = 0 := alignUp_wraps (by unfold firstAligned at wraps; omega)
  have diverges : linkBlocks (region.rawMemory + region.poolSize) (roundBlock region.blockSize) fuel 0 memory =
      none := linkBlocks_diverges (Nat.dvd_zero 64) region.roundBlock_aligned (by unfold Region.stop at stop; omega)
  rw [init, bufferPoolInit, start, diverges, Option.map_none]

/-- Initialization returns when no block past the end of the pool wraps. -/
theorem init_returns (room : region.stop + region.blockBytes ≤ 2 ^ 64) (memory : Memory) :
    ∃ fuel pool, region.init fuel memory = some pool := by
  have large := region.blockBytes_large
  obtain ⟨fuel, final, ran⟩ := linkBlocks_returns (region.rawMemory + region.poolSize)
    (roundBlock region.blockSize) (by rw [region.roundBlock_toNat]; omega)
    (by rwa [region.end_toNat, region.roundBlock_toNat]) (alignUp region.rawMemory) memory
  exact ⟨fuel, ⟨alignUp region.rawMemory, final⟩, by rw [init, bufferPoolInit, ran, Option.map_some]⟩

/-- A pool that starts past null hands out the end of its last block as one more block. -/
theorem not_correct_of_nonNull (nonNull : region.rawMemory ≠ 0) (memory : Memory) : ¬region.Correct memory := by
  rintro ⟨fuel, pool, started, conforms⟩
  by_cases low : region.firstAligned < 2 ^ 64
  · obtain ⟨final, trace, ran, empty⟩ := (init_holds low nonNull started).drain
    have below := (allocConforms_iff empty).mp (conforms _ final trace ran).1
    have count := free_of_held empty
    rw [List.length_nil] at count
    omega
  · rw [init_wraps (Nat.not_lt.mp low)] at started
    exact Option.some_ne_none pool started.symm

variable (atNull : region.rawMemory = 0)

include atNull

/-- The whole blocks of a pool at null. -/
theorem blockCount_null : region.blockCount = region.poolSize.toNat / region.blockBytes := by
  rw [blockCount, stop, firstAligned, atNull]
  simp

/-- The free list of a pool at null starts there. -/
theorem alignUp_null : alignUp region.rawMemory = 0 := by
  rw [atNull]
  decide

/-- A pool at null that is smaller than one block gets an empty free list, except for a pool of no bytes. -/
theorem init_null (small : region.poolSize.toNat < region.blockBytes) (memory : Memory) :
    region.init 2 memory =
      some ⟨0, if region.poolSize = 0 then memory else storeAddr memory 0 invalidAddr⟩ := by
  have start := alignUp_null atNull
  have zeroAdd (value : Addr) : 0 + value = value := BitVec.zero_add value
  have stop : region.rawMemory + region.poolSize = region.poolSize := by rw [atNull, zeroAdd]
  have past : ¬roundBlock region.blockSize ≤ region.poolSize := by
    rw [BitVec.le_def, region.roundBlock_toNat]
    omega
  have done : ¬roundBlock region.blockSize < region.poolSize := by
    rw [BitVec.lt_def, region.roundBlock_toNat]
    omega
  rw [init, bufferPoolInit, start, stop, linkBlocks]
  by_cases zero : region.poolSize = 0
  · rw [if_neg (by rw [zero]; decide), if_pos zero, Option.map_some]
  · have positive : (0 : Addr) < region.poolSize := by
      rw [BitVec.lt_def]
      exact Nat.pos_of_ne_zero fun none => zero (BitVec.eq_of_toNat_eq none)
    rw [if_pos positive, if_neg zero, zeroAdd, linkBlocks, if_neg done, link, zeroAdd, if_neg past, Option.map_some]

/-- A pool of no bytes at null keeps its memory and follows the word at null. -/
theorem init_no_bytes (zero : region.poolSize = 0) {fuel : Nat} {memory : Memory} {pool : Pool}
    (started : region.init fuel memory = some pool) : pool = ⟨0, memory⟩ := by
  obtain ⟨linked, ran, rfl⟩ := Option.map_eq_some_iff.mp started
  have start := alignUp_null atNull
  have stop : region.rawMemory + region.poolSize = 0 := by rw [atNull, zero]; rfl
  rw [start, stop] at ran
  cases fuel with
  | zero => simp [linkBlocks] at ran
  | succ fuel =>
      rw [linkBlocks, if_neg (by decide)] at ran
      rw [start, Option.some.inj ran]

/-- A pool at null is correct exactly when it is smaller than one block and its first link is null or invalid. -/
theorem correct_null_iff (memory : Memory) : region.Correct memory ↔
    region.poolSize.toNat < region.blockBytes ∧
      (region.poolSize = 0 → loadAddr memory 0 = 0 ∨ loadAddr memory 0 = invalidAddr) := by
  have positive : 0 < region.blockBytes := lt_of_lt_of_le (by decide) region.blockBytes_large
  constructor
  · rintro ⟨fuel, pool, started, conforms⟩
    have head : pool.head = 0 := by
      obtain ⟨linked, -, rfl⟩ := Option.map_eq_some_iff.mp started
      exact alignUp_null atNull
    have first : bufferPoolAlloc pool = (null, { pool with head := loadAddr pool.memory 0 }) := by
      rw [bufferPoolAlloc, head, if_neg (by decide)]
      rfl
    have empty : region.blockCount = 0 := ((conforms [] _ [] rfl).1.2.mp (by rw [first])).symm
    have small := empty
    rw [blockCount_null atNull, Nat.div_eq_zero_iff_lt positive] at small
    refine ⟨small, fun zero => ?_⟩
    obtain rfl := init_no_bytes atNull zero started
    have second := (conforms [.alloc] ⟨⟨loadAddr memory 0, memory⟩, []⟩ [.handed null] (by
      simp only [Machine.run, callMachine, callStep, first]
      rfl)).1.2.mpr empty.symm
    by_cases ended : loadAddr memory 0 = invalidAddr
    · exact Or.inr ended
    · rw [bufferPoolAlloc, if_neg ended] at second
      exact Or.inl second
  · rintro ⟨small, linked⟩
    have empty : region.blockCount = 0 := by
      rw [blockCount_null atNull, Nat.div_eq_of_lt small]
    refine ⟨2, _, init_null atNull small memory, fun calls client trace ran => ?_⟩
    refine Idle.conforms ⟨rfl, Or.inl rfl, ?_⟩ empty ran
    by_cases zero : region.poolSize = 0
    · simpa only [zero, if_true] using linked zero
    · simp only [if_neg zero, loadAddr_storeAddr, or_true]

end Region

/-- The pool is correct only when it starts at null and has no whole block.
Any other pool that initializes conforms exactly until an allocation finds all its blocks held.
Initialization returns when no block past the end of the pool wraps. -/
theorem bufferPool_correct_iff (region : Region) (memory : Memory) :
    (region.Correct memory ↔ region.rawMemory = 0 ∧ region.poolSize.toNat < region.blockBytes ∧
      (region.poolSize = 0 → loadAddr memory 0 = 0 ∨ loadAddr memory 0 = invalidAddr)) ∧
    (∀ fuel pool, region.init fuel memory = some pool → region.rawMemory ≠ 0 →
      ∀ calls client trace, callMachine.Along region.WithinCount ⟨pool, []⟩ calls →
        callMachine.run ⟨pool, []⟩ calls = some (client, trace) →
        region.HoldsApart client ∧ client.allocated.length ≤ region.blockCount ∧
          (region.AllocConforms client ↔ client.allocated.length < region.blockCount)) ∧
    (region.stop + region.blockBytes ≤ 2 ^ 64 → ∃ fuel pool, region.init fuel memory = some pool) := by
  refine ⟨?_, ?_, fun room => Region.init_returns room memory⟩
  · by_cases atNull : region.rawMemory = 0
    · rw [Region.correct_null_iff atNull memory, and_iff_right atNull]
    · exact iff_of_false (Region.not_correct_of_nonNull atNull memory) fun fits => atNull fits.1
  · intro fuel pool started nonNull calls client trace within ran
    have low : region.firstAligned < 2 ^ 64 := by
      by_contra high
      rw [Region.init_wraps (Nat.not_lt.mp high)] at started
      exact Option.some_ne_none pool started.symm
    obtain ⟨chain, holds⟩ := callMachine.run_invariant_along region.WithinCount
      (fun _ _ reached => ∃ chain,
        Holds (Region.layout low nonNull) (region.address region.blockCount) reached chain)
      (fun _ _ _ _ _ _ reached room stepped => reached.elim fun _ before => Region.call_holds before room stepped)
      ⟨_, Region.init_holds low nonNull started⟩ within ran
    have count := Region.free_of_held holds
    exact ⟨Region.holdsApart holds, by omega, Region.allocConforms_iff holds⟩

/-- A pool of exactly two blocks at address 4096. -/
def twoBlockRegion : Region := ⟨4096, 128, 64, by decide, by decide⟩

/-- The second allocation from a pool of two blocks conforms. -/
theorem bufferPool_second_alloc :
    ∃ pool, twoBlockRegion.init 3 (fun _ => 0) = some pool ∧ ∃ client trace,
      callMachine.run ⟨pool, []⟩ [.alloc] = some (client, trace) ∧ twoBlockRegion.AllocConforms client := by
  have complete : ((twoBlockRegion.init 3 fun _ => 0).bind fun pool =>
      callMachine.run ⟨pool, []⟩ [.alloc]).map (fun result => result.1.allocated) = some [4096] := by decide
  obtain ⟨⟨client, trace⟩, ran, held⟩ := Option.map_eq_some_iff.mp complete
  obtain ⟨pool, started, ran⟩ := Option.bind_eq_some_iff.mp ran
  refine ⟨pool, started, client, trace, ran, ?_⟩
  have within : callMachine.Along twoBlockRegion.WithinCount ⟨pool, []⟩ [.alloc] :=
    ⟨fun _ => show 0 < twoBlockRegion.blockCount by decide, fun _ _ _ => trivial⟩
  obtain ⟨-, -, conforms⟩ := (bufferPool_correct_iff twoBlockRegion fun _ => 0).2.1 3 pool started (by decide)
    [.alloc] client trace within ran
  exact conforms.mpr (by rw [held]; decide)

/-- The third allocation from a pool of two blocks returns the end of the pool. -/
theorem bufferPool_third_alloc :
    twoBlockRegion.blockCount = 2 ∧ twoBlockRegion.stop = 4224 ∧
    ∃ pool, twoBlockRegion.init 3 (fun _ => 0) = some pool ∧ ∃ client trace,
      callMachine.run ⟨pool, []⟩ [.alloc, .alloc] = some (client, trace) ∧
      client.allocated = [4160, 4096] ∧ (bufferPoolAlloc client.pool).1 = 4224 ∧
      ¬twoBlockRegion.AllocConforms client := by
  refine ⟨by decide, by decide, ?_⟩
  have complete : ((twoBlockRegion.init 3 fun _ => 0).bind fun pool =>
      callMachine.run ⟨pool, []⟩ [.alloc, .alloc]).map
        (fun result => (result.1.allocated, (bufferPoolAlloc result.1.pool).1)) =
      some ([4160, 4096], 4224) := by decide
  obtain ⟨⟨client, trace⟩, ran, held⟩ := Option.map_eq_some_iff.mp complete
  obtain ⟨pool, started, ran⟩ := Option.bind_eq_some_iff.mp ran
  obtain ⟨allocated, result⟩ := Prod.mk.inj held
  change client.allocated = _ at allocated
  change (bufferPoolAlloc client.pool).1 = _ at result
  refine ⟨pool, started, client, trace, ran, allocated, result, fun conforms => ?_⟩
  have returned := conforms.2.mpr (by rw [allocated]; decide)
  rw [result] at returned
  exact absurd returned (by decide)

end Ostep.BufferPool
