import Ostep.Construction.MemBasics
import Ostep.Library.Patch

namespace Ostep.MemBasics

open Library Library.Memory

variable {memory : Memory} {dst src : Addr} {n : Size}

/-- The bytes that a copy brings to its destination. -/
def sourceBytes (memory : Memory) (src : Addr) (index : Nat) : BitVec 8 := memory (src + BitVec.ofNat 64 index)

/-- A unit copied from old bytes beside the moved range makes the moved range longer. -/
theorem copyUnit_patch {size low high start first last : Nat} (fits : start + size ≤ 2 ^ 64)
    (outside : ∀ index < size, ¬(low ≤ (src + BitVec.ofNat 64 (start + index) - dst).toNat ∧
      (src + BitVec.ofNat 64 (start + index) - dst).toNat < high))
    (joined : ∀ offset, first ≤ offset ∧ offset < last ↔
      (low ≤ offset ∧ offset < high) ∨ (start ≤ offset ∧ offset < start + size)) (some : 0 < size) :
    copyUnit size (patch memory dst low high (sourceBytes memory src)) (dst + BitVec.ofNat 64 start)
        (src + BitVec.ofNat 64 start) =
      patch memory dst first last (sourceBytes memory src) := by
  have later (index : Nat) : src + BitVec.ofNat 64 start + BitVec.ofNat 64 index =
      src + BitVec.ofNat 64 (start + index) := by
    rw [BitVec.add_assoc, ← BitVec.ofNat_add]
  rw [copyUnit, load_patch fun index inside => later index ▸ outside index inside]
  refine store_patch fits some (fun index inside => ?_) joined
  rw [byte_load inside, later]
  rfl

/-- The upward loop moves its units when the source stays ahead of the moved range. -/
theorem copyUp_patch (memory : Memory) (dst src : Addr) {size : Nat} (count moved : Nat) (some : 0 < size)
    (ahead : (src - dst).toNat + (moved + size * count) ≤ 2 ^ 64) :
    copyUp size count (patch memory dst 0 moved (sourceBytes memory src)) (dst + BitVec.ofNat 64 moved)
        (src + BitVec.ofNat 64 moved) =
      (patch memory dst 0 (moved + size * count) (sourceBytes memory src), dst + BitVec.ofNat 64 (moved + size * count),
        src + BitVec.ofNat 64 (moved + size * count)) := by
  induction count generalizing moved with
  | zero => rfl
  | succ count ih =>
      rw [Nat.mul_succ] at ahead ⊢
      have unit : copyUnit size (patch memory dst 0 moved (sourceBytes memory src)) (dst + BitVec.ofNat 64 moved)
          (src + BitVec.ofNat 64 moved) = patch memory dst 0 (moved + size) (sourceBytes memory src) := by
        refine copyUnit_patch (by omega) (fun index inside => ?_) (fun offset => by omega) some
        rw [offset_ahead (by omega)]
        omega
      rw [copyUp, unit, BitVec.add_assoc, ← BitVec.ofNat_add, BitVec.add_assoc, ← BitVec.ofNat_add,
        ih (moved + size) (by omega), Nat.add_assoc, Nat.add_comm size]

theorem toNat_words (n : Size) : 4 * (n >>> 2).toNat + 1 * (n &&& 0x3).toNat = n.toNat := by
  have tail : (n &&& 0x3).toNat = n.toNat % 4 := Nat.and_two_pow_sub_one_eq_mod n.toNat 2
  rw [tail, BitVec.toNat_ushiftRight, Nat.shiftRight_eq_div_pow]
  omega

/-- The word loop and the byte loop copy the whole range when the source stays ahead. -/
theorem myMemcpy_ahead (dstValid : dst ≠ 0) (srcValid : src ≠ 0) (ahead : (src - dst).toNat + n.toNat ≤ 2 ^ 64) :
    myMemcpy memory dst src n = (patch memory dst 0 n.toNat (sourceBytes memory src), dst) := by
  rw [myMemcpy]
  split
  · rename_i early
    have empty : n = 0 := (early.resolve_left dstValid).resolve_left srcValid
    rw [empty]
    exact congrArg (·, dst) patch_empty.symm
  · have words := toNat_words n
    have first := copyUp_patch memory dst src (n >>> 2).toNat 0 (show 0 < 4 by decide) (by omega)
    have second := copyUp_patch memory dst src (n &&& 0x3).toNat (4 * (n >>> 2).toNat) Nat.one_pos (by omega)
    rw [patch_empty, BitVec.add_zero, BitVec.add_zero, Nat.zero_add] at first
    simp only [first, second, words]

/-- The downward loop moves its bytes when the destination lies ahead of the source. -/
theorem copyDown_patch (memory : Memory) {high : Nat} (count : Nat) (below : count ≤ high)
    (later : 0 < (dst - src).toNat) (ahead : (dst - src).toNat + high ≤ 2 ^ 64) :
    copyDown count (patch memory dst count high (sourceBytes memory src)) (dst + BitVec.ofNat 64 count - 1)
        (src + BitVec.ofNat 64 count - 1) =
      patch memory dst 0 high (sourceBytes memory src) := by
  induction count with
  | zero => rfl
  | succ count ih =>
      have previous (pointer : Addr) : pointer + BitVec.ofNat 64 (count + 1) - 1 = pointer + BitVec.ofNat 64 count := by
        rw [BitVec.ofNat_add, ← BitVec.add_assoc]
        exact BitVec.add_sub_cancel _ _
      have unit : copyUnit 1 (patch memory dst (count + 1) high (sourceBytes memory src)) (dst + BitVec.ofNat 64 count)
          (src + BitVec.ofNat 64 count) = patch memory dst count high (sourceBytes memory src) := by
        refine copyUnit_patch (by omega) (fun index inside => ?_) (fun offset => by omega) (by decide)
        obtain rfl : index = 0 := by omega
        rw [Nat.add_zero, offset_behind (by omega)]
        split <;> omega
      rw [copyDown, previous, previous, unit]
      exact ih (by omega)

/-- The last byte of a range is its end minus one. -/
theorem last_byte (pointer : Addr) (n : Size) : pointer + (n - 1) = pointer + BitVec.ofNat 64 n.toNat - 1 := by
  rw [BitVec.ofNat_toNat, BitVec.setWidth_eq, BitVec.sub_eq_add_neg, BitVec.sub_eq_add_neg, BitVec.add_assoc]

/-- Where the upward copy is taken the source stays ahead of the moved range. -/
theorem ahead_of_clear (srcFits : src.toNat + n.toNat ≤ 2 ^ 64) (clear : ¬(dst > src ∧ dst ≤ src + (n - 1))) :
    (src - dst).toNat + n.toNat ≤ 2 ^ 64 := by
  bv_omega

/-- A move copies the old bytes of the source to the destination for every position of the two ranges,
changes no other byte, and returns the destination. -/
theorem memmove_copies (memory : Memory) (dst src : Addr) (n : Size) (dstValid : dst ≠ 0) (srcValid : src ≠ 0)
    (dstFits : dst.toNat + n.toNat ≤ 2 ^ 64) (srcFits : src.toNat + n.toNat ≤ 2 ^ 64) :
    Overwrites memory (myMemmove memory dst src n).1 dst n.toNat (fun index => memory (src + BitVec.ofNat 64 index)) ∧
    (myMemmove memory dst src n).2 = dst := by
  have bound := n.isLt
  rw [myMemmove]
  split
  · rename_i early
    refine ⟨?_, rfl⟩
    rcases (early.resolve_left dstValid).resolve_left srcValid with rfl | rfl
    · exact ⟨nofun, fun _ _ => rfl⟩
    · exact ⟨fun _ _ => rfl, fun _ _ => rfl⟩
  · dsimp only
    split
    · rename_i overlap
      have lower := BitVec.lt_def.mp overlap.1
      have distance := BitVec.toNat_sub_of_le (BitVec.le_of_lt overlap.1)
      have moved := copyDown_patch memory n.toNat le_rfl (show 0 < (dst - src).toNat by omega) (by omega)
      rw [patch_empty, ← last_byte, ← last_byte] at moved
      rw [moved]
      exact ⟨overwrites_patch bound.le, rfl⟩
    · rename_i clear
      rw [myMemcpy_ahead dstValid srcValid (ahead_of_clear srcFits clear)]
      exact ⟨overwrites_patch bound.le, rfl⟩

/-- A move by one byte over itself copies the old bytes. -/
theorem memmove_overlapping :
    Overwrites (fun location => location.setWidth 8)
      (myMemmove (fun location => location.setWidth 8) 0x1001 0x1000 7).1 0x1001 7
      (fun index => (0x1000 + BitVec.ofNat 64 index).setWidth 8) :=
  (memmove_copies (fun location => location.setWidth 8) 0x1001 0x1000 7 (by decide) (by decide) (by decide)
    (by decide)).1

end Ostep.MemBasics
