import Ostep.Library.Memory

namespace Ostep.Library.Memory

variable {width : Nat}

/-- The bytes at the offsets from one bound to another have new contents. -/
def patch (memory : Bytes width) (address : BitVec width) (low high : Nat) (content : Nat → BitVec 8) : Bytes width :=
  fun location =>
    if low ≤ (location - address).toNat ∧ (location - address).toNat < high then content (location - address).toNat
    else memory location

/-- The bytes of a range have the given contents, and every other byte is as before. -/
structure Overwrites (memory after : Bytes width) (address : BitVec width) (count : Nat) (content : Nat → BitVec 8) :
    Prop where
  written : ∀ index < count, after (address + BitVec.ofNat width index) = content index
  kept : ∀ location, (∀ index < count, location ≠ address + BitVec.ofNat width index) → after location = memory location

/-- A range has one content. -/
theorem Overwrites.content_eq {memory after : Bytes width} {address : BitVec width} {count : Nat}
    {first second : Nat → BitVec 8} (one : Overwrites memory after address count first)
    (other : Overwrites memory after address count second) {index : Nat} (inside : index < count) :
    first index = second index :=
  (one.written index inside).symm.trans (other.written index inside)

/-- Contents that agree on the range overwrite it alike. -/
theorem Overwrites.congr {memory after : Bytes width} {address : BitVec width} {count : Nat}
    {first second : Nat → BitVec 8} (one : Overwrites memory after address count first)
    (same : ∀ index < count, first index = second index) : Overwrites memory after address count second :=
  ⟨fun index inside => (one.written index inside).trans (same index inside), one.kept⟩

variable {memory : Bytes width} {address : BitVec width} {low high count value : Nat} {content : Nat → BitVec 8}

/-- An empty patch changes nothing. -/
theorem patch_empty : patch memory address low low content = memory :=
  funext fun _ => if_neg fun inside => Nat.not_lt.mpr inside.1 inside.2

theorem offset_add (address : BitVec width) {index : Nat} (small : index < 2 ^ width) :
    (address + BitVec.ofNat width index - address).toNat = index := by
  rw [BitVec.add_comm, BitVec.add_sub_cancel, BitVec.toNat_ofNat, Nat.mod_eq_of_lt small]

/-- A patch from the start of a range overwrites it. -/
theorem overwrites_patch (fits : count ≤ 2 ^ width) :
    Overwrites memory (patch memory address 0 count content) address count content := by
  refine ⟨fun index inside => ?_, fun location outside => ?_⟩
  · rw [patch, offset_add address (by omega), if_pos ⟨Nat.zero_le index, inside⟩]
  · refine if_neg fun inside => outside _ inside.2 ?_
    rw [BitVec.ofNat_toNat, BitVec.setWidth_eq, BitVec.add_comm, BitVec.sub_add_cancel]

/-- The bytes of a loaded number are the bytes in memory. -/
theorem byte_load {index : Nat} (inside : index < count) :
    byte (load memory address count) index = memory (address + BitVec.ofNat width index) := by
  induction count generalizing address index with
  | zero => exact absurd inside (Nat.not_lt_zero index)
  | succ count ih =>
      have small := (memory address).isLt
      cases index with
      | zero =>
          rw [load, byte, Nat.pow_zero, Nat.div_one, BitVec.add_zero]
          apply BitVec.eq_of_toNat_eq
          rw [BitVec.toNat_ofNat, Nat.add_mul_mod_self_left, Nat.mod_eq_of_lt small]
      | succ index =>
          have rest : ((memory address).toNat + 256 * load memory (address + BitVec.ofNat width 1) count) / 256 =
              load memory (address + BitVec.ofNat width 1) count := by omega
          rw [byte_succ, load, rest, ih (Nat.lt_of_succ_lt_succ inside), next_offset]

/-- The offset from a later address. -/
theorem toNat_sub_add (location address : BitVec width) {start : Nat} (small : start < 2 ^ width) :
    (location - (address + BitVec.ofNat width start)).toNat =
      if start ≤ (location - address).toNat then (location - address).toNat - start
      else 2 ^ width + (location - address).toNat - start := by
  have bound := (location - address).isLt
  rw [← BitVec.sub_sub, BitVec.toNat_sub, BitVec.toNat_ofNat, Nat.mod_eq_of_lt small]
  split
  · rw [show 2 ^ width - start + (location - address).toNat = (location - address).toNat - start + 2 ^ width by omega,
      Nat.add_mod_right, Nat.mod_eq_of_lt (by omega)]
  · rw [Nat.mod_eq_of_lt (by omega)]
    omega

/-- The offset of a later byte of a range that starts ahead of the address. -/
theorem offset_ahead {source : BitVec width} {index : Nat} (fits : (source - address).toNat + index < 2 ^ width) :
    (source + BitVec.ofNat width index - address).toNat = (source - address).toNat + index := by
  rw [BitVec.add_sub_comm, BitVec.toNat_add, BitVec.toNat_ofNat, Nat.mod_eq_of_lt (show index < 2 ^ width by omega),
    Nat.mod_eq_of_lt fits]

/-- The offset of a later byte of a range that starts behind the address. -/
theorem offset_behind {source : BitVec width} {index : Nat} (small : index < 2 ^ width) :
    (source + BitVec.ofNat width index - address).toNat =
      if (address - source).toNat ≤ index then index - (address - source).toNat
      else 2 ^ width + index - (address - source).toNat := by
  have place : source + BitVec.ofNat width (address - source).toNat = address := by
    rw [BitVec.ofNat_toNat, BitVec.setWidth_eq, BitVec.add_comm, BitVec.sub_add_cancel]
  have offset := toNat_sub_add (source + BitVec.ofNat width index) source (address - source).isLt
  rwa [offset_add source small, place] at offset

/-- A store of the right bytes beside a patched range makes the patch longer. -/
theorem store_patch {start first last : Nat} (fits : start + count ≤ 2 ^ width) (some : 0 < count)
    (bytes : ∀ index < count, byte value index = content (start + index))
    (joined : ∀ offset, first ≤ offset ∧ offset < last ↔
      (low ≤ offset ∧ offset < high) ∨ (start ≤ offset ∧ offset < start + count)) :
    store (patch memory address low high content) (address + BitVec.ofNat width start) count value =
      patch memory address first last content := by
  funext location
  have bound := (location - address).isLt
  rw [store, toNat_sub_add location address (show start < 2 ^ width by omega)]
  by_cases stored : start ≤ (location - address).toNat ∧ (location - address).toNat < start + count
  · rw [if_pos stored.1, if_pos (by omega), patch, if_pos ((joined _).mpr (Or.inr stored)), bytes _ (by omega),
      Nat.add_sub_cancel' stored.1]
  · have apart : ¬(if start ≤ (location - address).toNat then (location - address).toNat - start
        else 2 ^ width + (location - address).toNat - start) < count := by
      split <;> omega
    rw [if_neg apart, patch, patch]
    by_cases patched : low ≤ (location - address).toNat ∧ (location - address).toNat < high
    · rw [if_pos patched, if_pos ((joined _).mpr (Or.inl patched))]
    · rw [if_neg patched, if_neg fun inside => ((joined _).mp inside).elim patched stored]

/-- A load from outside a patched range reads the old bytes. -/
theorem load_patch {source : BitVec width}
    (outside : ∀ index < count, ¬(low ≤ (source + BitVec.ofNat width index - address).toNat ∧
      (source + BitVec.ofNat width index - address).toNat < high)) :
    load (patch memory address low high content) source count = load memory source count :=
  load_congr fun index inside => if_neg (outside index inside)

end Ostep.Library.Memory
