import Mathlib.Algebra.Group.Nat.Defs
import Mathlib.Tactic.Common

namespace Ostep.Library.BitField

variable {width count : Nat}

/-- The bits of a field with the given lowest bit. -/
def mask (width low count : Nat) : BitVec width := (BitVec.allOnes count).setWidth width <<< low

/-- A field is read from its lowest bit. -/
def read (low count : Nat) (word : BitVec width) : BitVec count := word.extractLsb' low count

/-- A write clears the field and puts the value in its place. -/
def write (low : Nat) (word : BitVec width) (value : BitVec count) : BitVec width :=
  (word &&& ~~~mask width low count) ||| (value.setWidth width <<< low)

variable {word : BitVec width} {value : BitVec count} {low : Nat}

theorem getLsbD_mask (width low count : Nat) (bit : Nat) :
    (mask width low count).getLsbD bit = decide (bit < width ∧ low ≤ bit ∧ bit < low + count) := by
  rw [Bool.eq_iff_iff]
  simp only [mask, BitVec.getLsbD_shiftLeft, BitVec.getLsbD_setWidth, BitVec.getLsbD_allOnes, Bool.and_eq_true,
    Bool.not_eq_true', decide_eq_false_iff_not, decide_eq_true_eq]
  omega

/-- The bits after a write are those of the value inside the field and the old ones outside. -/
theorem getLsbD_write {bit : Nat} (inside : bit < width) :
    (write low word value).getLsbD bit =
      if low ≤ bit ∧ bit < low + count then value.getLsbD (bit - low) else word.getLsbD bit := by
  simp only [write, BitVec.getLsbD_or, BitVec.getLsbD_and, BitVec.getLsbD_not, getLsbD_mask,
    BitVec.getLsbD_shiftLeft, BitVec.getLsbD_setWidth, inside, decide_true, Bool.true_and, true_and]
  by_cases field : low ≤ bit ∧ bit < low + count
  · have shifted : bit - low < width := by omega
    simp [field, shifted, Nat.not_lt.mpr field.1]
  · rw [if_neg field]
    by_cases below : bit < low
    · simp [field, below]
    · have beyond : value.getLsbD (bit - low) = false := BitVec.getLsbD_of_ge _ _ (by omega)
      simp [field, beyond]

/-- A write changes the bits of its field only. -/
theorem getLsbD_write_other {bit : Nat} (outside : ¬(low ≤ bit ∧ bit < low + count)) :
    (write low word value).getLsbD bit = word.getLsbD bit := by
  by_cases inside : bit < width
  · rw [getLsbD_write inside, if_neg outside]
  · rw [BitVec.getLsbD_of_ge _ _ (Nat.not_lt.mp inside), BitVec.getLsbD_of_ge _ _ (Nat.not_lt.mp inside)]

/-- A written field is read back. -/
theorem read_write (fits : low + count ≤ width) : read low count (write low word value) = value := by
  apply BitVec.eq_of_getLsbD_eq
  intro bit inside
  rw [read, BitVec.getLsbD_extractLsb', getLsbD_write (by omega), if_pos (by omega), Nat.add_sub_cancel_left]
  simp [inside]

/-- A write keeps the fields beside it. -/
theorem read_write_other {other length : Nat} (fits : other + length ≤ width)
    (apart : low + count ≤ other ∨ other + length ≤ low) :
    read other length (write low word value) = read other length word := by
  apply BitVec.eq_of_getLsbD_eq
  intro bit inside
  rw [read, read, BitVec.getLsbD_extractLsb', BitVec.getLsbD_extractLsb', getLsbD_write (by omega), if_neg (by omega)]

/-- A flag has one bit. -/
theorem getLsbD_flag (width bit other : Nat) :
    ((1 : BitVec width) <<< bit).getLsbD other = decide (bit < width ∧ bit = other) := by
  rw [show (1 : BitVec width) <<< bit = BitVec.twoPow width bit from rfl, BitVec.getLsbD_twoPow, Bool.decide_and]

/-- A flag tests its bit. -/
theorem and_flag_ne_zero {bit : Nat} (inside : bit < width) :
    word &&& (1 : BitVec width) <<< bit ≠ 0 ↔ word.getLsbD bit = true := by
  rw [show (1 : BitVec width) <<< bit = BitVec.twoPow width bit from rfl, BitVec.and_twoPow]
  cases word.getLsbD bit with
  | false => simp
  | true =>
      simp only [if_true, iff_true]
      intro zero
      have set := congrArg (BitVec.getLsbD · bit) zero
      simp [inside] at set

/-- A number below half the range is its own signed value. -/
theorem toInt_ofNat {number : Nat} (small : 2 * number < 2 ^ width) : (BitVec.ofNat width number).toInt = number := by
  have value : (BitVec.ofNat width number).toNat = number := by
    rw [BitVec.toNat_ofNat, Nat.mod_eq_of_lt (by omega)]
  rw [BitVec.toInt_eq_toNat_of_lt (by omega), value]

end Ostep.Library.BitField
