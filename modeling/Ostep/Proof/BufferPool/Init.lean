import Ostep.Proof.BufferPool.FreeList

namespace Ostep.BufferPool
open Ostep.Library List
open Ostep.Library.Memory (Linked)

/-- The mask clears the low six bits. -/
theorem and_mask_toNat (value : Addr) : (value &&& (~~~63 : Addr)).toNat = 64 * (value.toNat / 64) := by
  have shifted : value &&& (~~~63 : Addr) = (value >>> 6) <<< 6 := by
    have bits : ∀ index : Fin 64, (~~~63 : Addr).getLsbD index = decide (6 ≤ index.val) := by decide
    apply BitVec.eq_of_getLsbD_eq
    intro index inside
    rw [BitVec.getLsbD_and, bits ⟨index, inside⟩, BitVec.getLsbD_shiftLeft, BitVec.getLsbD_ushiftRight]
    by_cases high : 6 ≤ index
    · simp [high, inside, Nat.not_lt.mpr high, Nat.add_sub_cancel' high]
    · simp [high, Nat.lt_of_not_le high]
  rw [shifted, BitVec.toNat_shiftLeft, BitVec.toNat_ushiftRight]
  simp only [Nat.shiftLeft_eq, Nat.shiftRight_eq_div_pow]
  omega

/-- Alignment rounds an address up when the sum does not wrap. -/
theorem alignUp_toNat {value : Addr} (fits : value.toNat + 63 < 2 ^ 64) :
    (alignUp value).toNat = 64 * ((value.toNat + 63) / 64) := by
  have sum : (value + 63).toNat = value.toNat + 63 := by
    rw [BitVec.toNat_add]
    exact Nat.mod_eq_of_lt fits
  rw [alignUp, and_mask_toNat, sum]

/-- The aligned address wraps to zero in the last sixty-three bytes of the address space. -/
theorem alignUp_wraps {value : Addr} (wraps : 2 ^ 64 ≤ value.toNat + 63) : alignUp value = 0 := by
  apply BitVec.eq_of_toNat_eq
  rw [alignUp, and_mask_toNat, BitVec.toNat_add]
  have bound := value.isLt
  have low : (63 : Addr).toNat = 63 := rfl
  rw [low]
  change 64 * ((value.toNat + 63) % 2 ^ 64 / 64) = 0
  omega

/-- The code rounds the block size as specified. -/
theorem Region.roundBlock_toNat (region : Region) :
    (roundBlock region.blockSize).toNat = region.blockBytes := by
  have fits := region.rounds
  unfold roundBlock Region.blockBytes
  by_cases small : region.blockSize < 8
  · have bound : region.blockSize.toNat < 8 := small
    rw [if_pos small, alignUp_toNat (by decide)]
    change 64 * ((8 + 63) / 64) = _
    omega
  · have bound : 8 ≤ region.blockSize.toNat := Nat.not_lt.mp small
    rw [if_neg small, alignUp_toNat fits]
    omega

section Loop

variable {poolEnd blockSize : Addr}

/-- The loop stays on multiples of sixty-four. -/
theorem add_aligned {curr : Addr} (aligned : 64 ∣ curr.toNat) (rounded : 64 ∣ blockSize.toNat) :
    64 ∣ (curr + blockSize).toNat := by
  rw [BitVec.toNat_add]
  omega

/-- A link at an aligned address does not overlap a link at another aligned address. -/
theorem loadAddr_storeAddr_aligned (memory : Memory) {curr other : Addr} (value : Addr)
    (aligned : 64 ∣ curr.toNat) (listed : 64 ∣ other.toNat) (different : other ≠ curr) :
    loadAddr (storeAddr memory curr value) other = loadAddr memory other := by
  have apart : other.toNat ≠ curr.toNat := fun same => different (BitVec.eq_of_toNat_eq same)
  have currBound := curr.isLt
  have otherBound := other.isLt
  refine loadAddr_congr (by omega) fun location low high => storeAddr_outside value (by omega) (by omega)

/-- The loop keeps every link that has the value the loop stores there. -/
theorem linkBlocks_keeps {fuel : Nat} {curr other : Addr} {memory final : Memory}
    (aligned : 64 ∣ curr.toNat) (rounded : 64 ∣ blockSize.toNat) (listed : 64 ∣ other.toNat)
    (ran : linkBlocks poolEnd blockSize fuel curr memory = some final)
    (linked : loadAddr memory other = link poolEnd blockSize other) :
    loadAddr final other = link poolEnd blockSize other := by
  induction fuel generalizing curr memory with
  | zero => simp [linkBlocks] at ran
  | succ fuel ih =>
      unfold linkBlocks at ran
      split at ran
      · refine ih (add_aligned aligned rounded) ran ?_
        by_cases same : other = curr
        · rw [same, loadAddr_storeAddr]
        · rw [loadAddr_storeAddr_aligned memory _ aligned listed same, linked]
      · rwa [← Option.some.inj ran]

/-- A loop that ends has linked its address and gone on if the address is before the end of the pool. -/
theorem linkBlocks_advance {fuel : Nat} {curr : Addr} {memory final : Memory}
    (ran : linkBlocks poolEnd blockSize fuel curr memory = some final) (inside : curr.toNat < poolEnd.toNat) :
    ∃ fuel', linkBlocks poolEnd blockSize fuel' (curr + blockSize)
      (storeAddr memory curr (link poolEnd blockSize curr)) = some final := by
  cases fuel with
  | zero => simp [linkBlocks] at ran
  | succ fuel =>
      rw [linkBlocks, if_pos (BitVec.lt_def.mpr inside)] at ran
      exact ⟨fuel, ran⟩

/-- The loop links every address that it reaches before the end of the pool. -/
theorem linkBlocks_links {fuel : Nat} {curr : Addr} {memory final : Memory} (index : Nat)
    (aligned : 64 ∣ curr.toNat) (rounded : 64 ∣ blockSize.toNat)
    (ran : linkBlocks poolEnd blockSize fuel curr memory = some final)
    (inside : curr.toNat + index * blockSize.toNat < poolEnd.toNat) :
    loadAddr final (BitVec.ofNat 64 (curr.toNat + index * blockSize.toNat)) =
      link poolEnd blockSize (BitVec.ofNat 64 (curr.toNat + index * blockSize.toNat)) := by
  induction index generalizing fuel curr memory with
  | zero =>
      have start : BitVec.ofNat 64 (curr.toNat + 0 * blockSize.toNat) = curr := by simp
      obtain ⟨fuel', ran⟩ := linkBlocks_advance ran (by omega)
      rw [start]
      exact linkBlocks_keeps (add_aligned aligned rounded) rounded aligned ran (loadAddr_storeAddr _ _ _)
  | succ index ih =>
      have distributed : (index + 1) * blockSize.toNat = index * blockSize.toNat + blockSize.toNat :=
        Nat.succ_mul index blockSize.toNat
      have bound := poolEnd.isLt
      have advanced : (curr + blockSize).toNat = curr.toNat + blockSize.toNat := by
        rw [BitVec.toNat_add, Nat.mod_eq_of_lt (by omega)]
      obtain ⟨fuel', ran⟩ := linkBlocks_advance ran (by omega)
      have later := ih (add_aligned aligned rounded) ran (by rw [advanced]; omega)
      rw [advanced] at later
      rw [show curr.toNat + (index + 1) * blockSize.toNat =
        curr.toNat + blockSize.toNat + index * blockSize.toNat by omega]
      exact later

/-- The loop never ends when every aligned address is before the end of the pool. -/
theorem linkBlocks_diverges {fuel : Nat} {curr : Addr} {memory : Memory} (aligned : 64 ∣ curr.toNat)
    (rounded : 64 ∣ blockSize.toNat) (high : 2 ^ 64 - 64 < poolEnd.toNat) :
    linkBlocks poolEnd blockSize fuel curr memory = none := by
  induction fuel generalizing curr memory with
  | zero => rfl
  | succ fuel ih =>
      have bound := curr.isLt
      rw [linkBlocks, if_pos (BitVec.lt_def.mpr (by omega))]
      exact ih (add_aligned aligned rounded)

/-- The loop ends when no address past the end of the pool wraps. -/
theorem linkBlocks_returns (poolEnd blockSize : Addr) (positive : 0 < blockSize.toNat)
    (room : poolEnd.toNat + blockSize.toNat ≤ 2 ^ 64) (curr : Addr) (memory : Memory) :
    ∃ fuel final, linkBlocks poolEnd blockSize fuel curr memory = some final := by
  induction distance : poolEnd.toNat - curr.toNat using Nat.strong_induction_on generalizing curr memory with
  | _ distance ih =>
      by_cases before : curr < poolEnd
      · have below : curr.toNat < poolEnd.toNat := before
        have advanced : (curr + blockSize).toNat = curr.toNat + blockSize.toNat := by
          rw [BitVec.toNat_add, Nat.mod_eq_of_lt (by omega)]
        obtain ⟨fuel, final, ran⟩ := ih (poolEnd.toNat - (curr + blockSize).toNat) (by omega) (curr + blockSize)
          (storeAddr memory curr (link poolEnd blockSize curr)) rfl
        exact ⟨fuel + 1, final, by rw [linkBlocks, if_pos before, ran]⟩
      · exact ⟨1, memory, by rw [linkBlocks, if_neg before]⟩

end Loop
end Ostep.BufferPool
