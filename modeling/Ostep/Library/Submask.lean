import Mathlib.Algebra.Group.Nat.Defs
import Mathlib.Tactic.Common

namespace Ostep.Library.Submask

/-- The number of set bits among the lowest bits of a mask. -/
def count (width mask : Nat) : Nat := (List.range width).countP mask.testBit

/-- The bits of an index are spread over the set bits of a mask. -/
def deposit : Nat → Nat → Nat → Nat
  | 0, _, _ => 0
  | width + 1, mask, index =>
      if mask % 2 = 1 then 2 * deposit width (mask / 2) (index / 2) + index % 2
      else 2 * deposit width (mask / 2) index

variable {width mask index : Nat}

theorem and_mod_two (first second : Nat) : (first &&& second) % 2 = first % 2 * (second % 2) := by
  rw [show (2 : Nat) = 2 ^ 1 from rfl, Nat.and_mod_two_pow]
  rcases Nat.mod_two_eq_zero_or_one first with even | odd <;>
    rcases Nat.mod_two_eq_zero_or_one second with other | other <;> simp [*]

/-- A conjunction is that of the halves and of the lowest bits. -/
theorem and_halves (first second : Nat) :
    first &&& second = 2 * (first / 2 &&& second / 2) + first % 2 * (second % 2) := by
  have low := and_mod_two first second
  have high : (first &&& second) / 2 = (first / 2 &&& second / 2) := Nat.and_div_two
  omega

theorem count_succ (width mask : Nat) : count (width + 1) mask = mask % 2 + count width (mask / 2) := by
  have later : mask.testBit ∘ Nat.succ = (mask / 2).testBit := funext fun bit => Nat.testBit_succ mask bit
  rw [count, List.range_succ_eq_map, List.countP_cons, List.countP_map, later, Nat.testBit_zero, ← count]
  rcases Nat.mod_two_eq_zero_or_one mask with even | odd <;> simp [*, Nat.add_comm]

/-- An odd mask takes the lowest bit of the index. -/
theorem deposit_odd (odd : mask % 2 = 1) :
    deposit (width + 1) mask index = 2 * deposit width (mask / 2) (index / 2) + index % 2 := if_pos odd

/-- An even mask leaves the index to its higher bits. -/
theorem deposit_even (even : mask % 2 = 0) :
    deposit (width + 1) mask index = 2 * deposit width (mask / 2) index := if_neg (by omega)

/-- A deposit is a submask. -/
theorem deposit_and (width mask index : Nat) : deposit width mask index &&& mask = deposit width mask index := by
  induction width generalizing mask index with
  | zero => exact Nat.zero_and mask
  | succ width ih =>
      rw [and_halves]
      rcases Nat.mod_two_eq_zero_or_one mask with even | odd
      · have half : 2 * deposit width (mask / 2) index / 2 = deposit width (mask / 2) index := by omega
        rw [deposit_even even, half, ih, even, Nat.mul_zero, Nat.add_zero]
      · have half : (2 * deposit width (mask / 2) (index / 2) + index % 2) / 2 =
            deposit width (mask / 2) (index / 2) := by omega
        rw [deposit_odd odd, half, ih, odd]
        omega

theorem deposit_zero (width mask : Nat) : deposit width mask 0 = 0 := by
  induction width generalizing mask with
  | zero => rfl
  | succ width ih => rw [deposit, ih, ite_self]

/-- Different indices below the number of submasks have different deposits. -/
theorem deposit_injective {first second : Nat} (inside : first < 2 ^ count width mask)
    (within : second < 2 ^ count width mask) (same : deposit width mask first = deposit width mask second) :
    first = second := by
  induction width generalizing mask first second with
  | zero =>
      change first < 1 at inside
      change second < 1 at within
      omega
  | succ width ih =>
      rw [count_succ] at inside within
      rcases Nat.mod_two_eq_zero_or_one mask with even | odd
      · rw [even, Nat.zero_add] at inside within
        rw [deposit_even even, deposit_even even] at same
        exact ih inside within (by omega)
      · rw [odd, Nat.add_comm, Nat.pow_succ] at inside within
        rw [deposit_odd odd, deposit_odd odd] at same
        have inner : first / 2 < 2 ^ count width (mask / 2) := by omega
        have halves : first / 2 = second / 2 := ih inner (by omega) (by omega)
        omega

/-- Every submask is a deposit. -/
theorem exists_deposit {submask : Nat} (small : submask < 2 ^ width) (sub : submask &&& mask = submask) :
    ∃ index < 2 ^ count width mask, deposit width mask index = submask := by
  induction width generalizing mask submask with
  | zero => exact ⟨0, Nat.one_pos, (Nat.lt_one_iff.mp small).symm⟩
  | succ width ih =>
      rw [Nat.pow_succ] at small
      have halves : submask / 2 &&& mask / 2 = submask / 2 := by rw [← Nat.and_div_two, sub]
      obtain ⟨index, inside, found⟩ := ih (by omega) halves
      rw [and_halves, halves] at sub
      rw [count_succ]
      rcases Nat.mod_two_eq_zero_or_one mask with even | odd
      · rw [even, Nat.zero_add]
        refine ⟨index, inside, ?_⟩
        rw [even] at sub
        rw [deposit_even even, found]
        omega
      · rw [odd, Nat.add_comm, Nat.pow_succ]
        refine ⟨2 * index + submask % 2, by omega, ?_⟩
        rw [deposit_odd odd, show (2 * index + submask % 2) / 2 = index by omega, found]
        omega

/-- The last index deposits the whole mask. -/
theorem deposit_last (small : mask < 2 ^ width) : deposit width mask (2 ^ count width mask - 1) = mask := by
  induction width generalizing mask with
  | zero => exact (Nat.lt_one_iff.mp small).symm
  | succ width ih =>
      rw [Nat.pow_succ] at small
      have last := ih (show mask / 2 < 2 ^ width by omega)
      have some := Nat.two_pow_pos (count width (mask / 2))
      rw [count_succ]
      rcases Nat.mod_two_eq_zero_or_one mask with even | odd
      · rw [deposit_even even, even, Nat.zero_add, last]
        omega
      · rw [deposit_odd odd, odd, Nat.add_comm 1, Nat.pow_succ,
          show (2 ^ count width (mask / 2) * 2 - 1) / 2 = 2 ^ count width (mask / 2) - 1 by omega, last]
        omega

/-- The submask before the deposit of an index is the deposit of the index before. -/
theorem pred_deposit_and (inside : index + 1 < 2 ^ count width mask) :
    (deposit width mask (index + 1) - 1) &&& mask = deposit width mask index := by
  have some : deposit width mask (index + 1) ≠ 0 := by
    intro none
    have first := deposit_injective inside (Nat.two_pow_pos _) (none.trans (deposit_zero width mask).symm)
    omega
  induction width generalizing mask index with
  | zero =>
      change index + 1 < 1 at inside
      omega
  | succ width ih =>
      rw [count_succ] at inside
      rw [and_halves]
      rcases Nat.mod_two_eq_zero_or_one mask with even | odd
      · rw [even, Nat.zero_add] at inside
        rw [deposit_even even] at some ⊢
        have before := ih inside (by omega)
        rw [deposit_even even, even,
          show (2 * deposit width (mask / 2) (index + 1) - 1) / 2 = deposit width (mask / 2) (index + 1) - 1 by omega,
          before]
        omega
      · rw [odd, Nat.add_comm 1, Nat.pow_succ] at inside
        rw [deposit_odd odd] at some ⊢
        rw [deposit_odd odd, odd]
        rcases Nat.mod_two_eq_zero_or_one index with first | second
        · -- The lowest bit of the index goes from one to zero.
          rw [show (index + 1) / 2 = index / 2 by omega, show (index + 1) % 2 = 1 by omega,
            Nat.add_sub_cancel, Nat.mul_div_cancel_left _ Nat.two_pos, deposit_and]
          omega
        · -- The lowest bit goes from zero to one, with a borrow from the higher bits.
          obtain ⟨half, rfl⟩ : ∃ half, index = 2 * half + 1 := ⟨index / 2, by omega⟩
          rw [show (2 * half + 1 + 1) / 2 = half + 1 by omega, show (2 * half + 1 + 1) % 2 = 0 by omega] at some ⊢
          have before : (deposit width (mask / 2) (half + 1) - 1) &&& mask / 2 = deposit width (mask / 2) half :=
            ih (by omega) (by omega)
          rw [show (2 * deposit width (mask / 2) (half + 1) + 0 - 1) / 2 = deposit width (mask / 2) (half + 1) - 1
            by omega, before, show (2 * half + 1) / 2 = half by omega]
          omega

/-- The conjunction with the number before clears one bit. -/
theorem count_and_pred {value : Nat} (small : value < 2 ^ width) (some : value ≠ 0) :
    count width (value &&& (value - 1)) + 1 = count width value := by
  induction width generalizing value with
  | zero => exact absurd (Nat.lt_one_iff.mp small) some
  | succ width ih =>
      rw [Nat.pow_succ] at small
      rw [count_succ, count_succ, Nat.and_div_two, and_mod_two]
      rcases Nat.mod_two_eq_zero_or_one value with even | odd
      · have half : value / 2 ≠ 0 := by omega
        rw [even, show (value - 1) / 2 = value / 2 - 1 by omega, ← ih (by omega) half]
        omega
      · rw [odd, show (value - 1) / 2 = value / 2 by omega, show (value - 1) % 2 = 0 by omega, Nat.and_self]
        omega

end Ostep.Library.Submask
