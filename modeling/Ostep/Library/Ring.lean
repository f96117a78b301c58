import Mathlib.Data.Nat.ModEq
import Mathlib.Tactic.Common

namespace Ostep.Library.Ring

variable {α : Type} {width : Nat}

/-- The low bits of a free-running counter select its slot. -/
def mask (width bits : Nat) : BitVec width := BitVec.ofNat width (2 ^ bits - 1)

/-- The occupied slots run from the read counter to the write counter. -/
def contents (mask : BitVec width) (slots : BitVec width → α) (read write : BitVec width) : List α :=
  (List.range (write - read).toNat).map fun offset =>
    slots ((read + BitVec.ofNat width offset) &&& mask)

@[simp] theorem contents_length (mask : BitVec width) (slots : BitVec width → α)
    (read write : BitVec width) :
    (contents mask slots read write).length = (write - read).toNat := by
  simp [contents]

@[simp] theorem contents_self (mask : BitVec width) (slots : BitVec width → α)
    (counter : BitVec width) : contents mask slots counter counter = [] := by
  simp [contents]

/-- Two counters agree exactly when their distance is zero. -/
theorem distance_eq_zero_iff (read write : BitVec width) : (write - read).toNat = 0 ↔ write = read := by
  constructor
  · intro zero
    have same : write - read = BitVec.ofNat width 0 := BitVec.eq_of_toNat_eq (by simpa using zero)
    calc write = write - read + read := (BitVec.sub_add_cancel write read).symm
      _ = read := by rw [same, BitVec.zero_add]
  · rintro rfl
    simp

/-- The distance counts the advance of the write counter. -/
theorem distance_write {read write : BitVec width} (room : (write - read).toNat + 1 < 2 ^ width) :
    (write + BitVec.ofNat width 1 - read).toNat = (write - read).toNat + 1 := by
  have shifted : write + BitVec.ofNat width 1 - read = (write - read) + BitVec.ofNat width 1 := by
    rw [BitVec.sub_eq_add_neg, BitVec.sub_eq_add_neg, BitVec.add_assoc, BitVec.add_assoc,
      BitVec.add_comm (BitVec.ofNat width 1)]
  have positive : 0 < width := by
    rcases Nat.eq_zero_or_pos width with rfl | positive
    · simp at room
    · exact positive
  rw [shifted, BitVec.toNat_add, BitVec.toNat_ofNat,
    Nat.mod_eq_of_lt (Nat.one_lt_two_pow positive.ne'), Nat.mod_eq_of_lt room]

/-- The distance counts the advance of the read counter. -/
theorem distance_read {read write : BitVec width} (different : write ≠ read) :
    (write - (read + BitVec.ofNat width 1)).toNat + 1 = (write - read).toNat := by
  have nonzero : (write - read).toNat ≠ 0 := fun zero =>
    different ((distance_eq_zero_iff read write).mp zero)
  have bound := (write - read).isLt
  have positive : 0 < width := by
    rcases Nat.eq_zero_or_pos width with rfl | positive
    · simp at bound
      omega
    · exact positive
  have one : (BitVec.ofNat width 1).toNat = 1 := by
    rw [BitVec.toNat_ofNat, Nat.mod_eq_of_lt (Nat.one_lt_two_pow positive.ne')]
  have shifted : write - (read + BitVec.ofNat width 1) = (write - read) - BitVec.ofNat width 1 := by
    rw [BitVec.sub_eq_add_neg, BitVec.sub_eq_add_neg, BitVec.sub_eq_add_neg, BitVec.neg_add,
      BitVec.sub_eq_add_neg, BitVec.add_assoc]
  rw [shifted, BitVec.toNat_sub_of_le (by rw [BitVec.le_def, one]; omega), one]
  omega

/-- Advancing the write counter appends the slot it passes. -/
theorem contents_advance_write {mask : BitVec width} {slots : BitVec width → α}
    {read write : BitVec width} (room : (write - read).toNat + 1 < 2 ^ width) :
    contents mask slots read (write + BitVec.ofNat width 1) =
      contents mask slots read write ++ [slots (write &&& mask)] := by
  have last : read + BitVec.ofNat width (write - read).toNat = write := by
    rw [BitVec.ofNat_toNat, BitVec.setWidth_eq, BitVec.add_comm, BitVec.sub_add_cancel]
  rw [contents, distance_write room, List.range_succ, List.map_append]
  simp only [List.map_cons, List.map_nil, last, contents]

/-- Advancing the read counter removes the first occupied slot. -/
theorem contents_advance_read {mask : BitVec width} {slots : BitVec width → α}
    {read write : BitVec width} (different : write ≠ read) :
    contents mask slots read write =
      slots (read &&& mask) :: contents mask slots (read + BitVec.ofNat width 1) write := by
  rw [contents, ← distance_read different, List.range_succ_eq_map, List.map_cons, List.map_map]
  simp only [BitVec.add_zero, contents, List.cons.injEq, true_and]
  apply List.map_congr_left
  intro offset _
  rw [Function.comp_apply, Nat.succ_eq_add_one, Nat.add_comm, BitVec.ofNat_add, BitVec.add_assoc]

/-- The mask reduces a counter modulo the ring size. -/
theorem and_mask_toNat {bits : Nat} (fits : bits ≤ width) (counter : BitVec width) :
    (counter &&& mask width bits).toNat = counter.toNat % 2 ^ bits := by
  have below : 2 ^ bits - 1 < 2 ^ width :=
    lt_of_lt_of_le (Nat.sub_lt (Nat.two_pow_pos bits) Nat.one_pos)
      (Nat.pow_le_pow_right (by decide) fits)
  rw [BitVec.toNat_and, mask, BitVec.toNat_ofNat, Nat.mod_eq_of_lt below, Nat.and_two_pow_sub_one_eq_mod]

/-- Counters less than one lap apart select different slots. -/
theorem slot_ne {bits : Nat} (fits : bits ≤ width) {read write : BitVec width} {offset : Nat}
    (inside : offset < (write - read).toNat) (room : (write - read).toNat < 2 ^ bits) :
    (read + BitVec.ofNat width offset) &&& mask width bits ≠ write &&& mask width bits := by
  intro same
  have values := congrArg BitVec.toNat same
  simp only [and_mask_toNat fits] at values
  have divides : 2 ^ bits ∣ 2 ^ width := pow_dvd_pow 2 fits
  have writeValue : write.toNat = (read.toNat + (write - read).toNat) % 2 ^ width := by
    rw [← BitVec.toNat_add, BitVec.add_comm, BitVec.sub_add_cancel]
  have lap : read.toNat + offset ≡ read.toNat + (write - read).toNat [MOD 2 ^ bits] := by
    rw [Nat.ModEq, ← Nat.mod_mod_of_dvd (read.toNat + (write - read).toNat) divides, ← writeValue,
      ← values, BitVec.toNat_add, BitVec.toNat_ofNat, Nat.add_mod_mod, Nat.mod_mod_of_dvd _ divides]
  have equal := Nat.ModEq.add_left_cancel' read.toNat lap
  rw [Nat.ModEq, Nat.mod_eq_of_lt (lt_trans inside room), Nat.mod_eq_of_lt room] at equal
  omega

/-- A store at the write counter of a ring with room leaves the occupied slots. -/
theorem contents_store {bits : Nat} (fits : bits ≤ width) {slots : BitVec width → α}
    {read write : BitVec width} (room : (write - read).toNat < 2 ^ bits) (value : α) :
    contents (mask width bits) (Function.update slots (write &&& mask width bits) value) read write =
      contents (mask width bits) slots read write := by
  apply List.map_congr_left
  intro offset member
  rw [Function.update_of_ne (slot_ne fits (List.mem_range.mp member) room)]

/-- A push stores at the write counter and then advances it. -/
theorem contents_push {bits : Nat} (fits : bits ≤ width) {slots : BitVec width → α}
    {read write : BitVec width} (room : (write - read).toNat < 2 ^ bits)
    (noWrap : (write - read).toNat + 1 < 2 ^ width) (value : α) :
    contents (mask width bits) (Function.update slots (write &&& mask width bits) value) read
        (write + BitVec.ofNat width 1) =
      contents (mask width bits) slots read write ++ [value] := by
  rw [contents_advance_write noWrap, contents_store fits room, Function.update_self]

/-- Numbers without a common bit are added by the exclusive or. -/
theorem xor_eq_add {left right : BitVec width} (apart : left &&& right = BitVec.ofNat width 0) :
    left ^^^ right = left + right := by
  rw [BitVec.add_eq_or_of_and_eq_zero left right apart]
  apply BitVec.eq_of_getLsbD_eq
  intro bit _
  have off := congrArg (fun word : BitVec width => word.getLsbD bit) apart
  simp only [BitVec.getLsbD_and, BitVec.getLsbD_zero, BitVec.getLsbD_xor, BitVec.getLsbD_or] at off ⊢
  revert off
  cases left.getLsbD bit <;> cases right.getLsbD bit <;> decide

/-- The mirror of a counter lies one lap ahead or one lap behind, by its mirror bit. -/
theorem xor_twoPow (counter : BitVec width) (bit : Nat) :
    counter ^^^ BitVec.twoPow width bit =
      if counter.getLsbD bit then counter - BitVec.twoPow width bit else counter + BitVec.twoPow width bit := by
  cases set : counter.getLsbD bit with
  | false => exact xor_eq_add (by rw [BitVec.and_twoPow, set]; rfl)
  | true =>
      have inside : bit < width := BitVec.lt_of_getLsbD set
      have clear : (counter ^^^ BitVec.twoPow width bit) &&& BitVec.twoPow width bit = BitVec.ofNat width 0 := by
        rw [BitVec.and_twoPow, BitVec.getLsbD_xor, set, BitVec.getLsbD_twoPow]
        simp [inside]
      have back := xor_eq_add clear
      rw [BitVec.xor_assoc, BitVec.xor_self, BitVec.xor_zero] at back
      rw [if_pos rfl]
      exact BitVec.eq_sub_iff_add_eq.mpr back.symm

end Ostep.Library.Ring
