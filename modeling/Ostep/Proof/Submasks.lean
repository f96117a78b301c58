import Ostep.Construction.Submasks
import Ostep.Library.BitField
import Ostep.Library.Submask

namespace Ostep.Submasks

open Library

variable {mask : Word} {index : Nat}

theorem setBits_eq_count (mask : Word) : setBits mask = Submask.count 32 mask.toNat := rfl

theorem setBits_le (mask : Word) : setBits mask ≤ 32 := by
  have bound := List.countP_le_length (p := mask.getLsbD) (l := List.range 32)
  rwa [List.length_range] at bound

theorem toNat_pred {s : Word} (some : s ≠ 0) : (s - 1).toNat = s.toNat - 1 := by bv_omega

/-- The first loop counts the set bits. -/
theorem countBits_eq (mask : Word) : countBits mask = setBits mask := by
  fun_induction countBits mask with
  | case1 i some ih =>
      have number : i.toNat ≠ 0 := fun zero => some (BitVec.eq_of_toNat_eq zero)
      rw [ih, setBits_eq_count, setBits_eq_count, BitVec.toNat_and, toNat_pred some]
      exact Submask.count_and_pred i.isLt number
  | case2 i zero =>
      rw [not_not.mp zero]
      decide

/-- The submasks in increasing order. -/
def nth (mask : Word) (index : Nat) : Word := BitVec.ofNat 32 (Submask.deposit 32 mask.toNat index)

theorem toNat_nth (mask : Word) (index : Nat) : (nth mask index).toNat = Submask.deposit 32 mask.toNat index := by
  have bound : Submask.deposit 32 mask.toNat index ≤ mask.toNat := by
    rw [← Submask.deposit_and]
    exact Nat.and_le_right
  rw [nth, BitVec.toNat_ofNat, Nat.mod_eq_of_lt (Nat.lt_of_le_of_lt bound mask.isLt)]

theorem submask_nth (mask : Word) (index : Nat) : Submask mask (nth mask index) := by
  apply BitVec.eq_of_toNat_eq
  rw [BitVec.toNat_and, toNat_nth, Submask.deposit_and]

theorem nth_zero (mask : Word) : nth mask 0 = 0 := by
  rw [nth, Submask.deposit_zero]
  rfl

theorem nth_last (mask : Word) : nth mask (2 ^ setBits mask - 1) = mask := by
  apply BitVec.eq_of_toNat_eq
  rw [toNat_nth, setBits_eq_count, Submask.deposit_last mask.isLt]

/-- Different indices have different submasks. -/
theorem nth_injective {other : Nat} (inside : index < 2 ^ setBits mask) (within : other < 2 ^ setBits mask)
    (same : nth mask index = nth mask other) : index = other := by
  apply Submask.deposit_injective inside within
  rw [← toNat_nth, ← toNat_nth, same]

/-- Every submask has an index. -/
theorem exists_nth {s : Word} (sub : Submask mask s) : ∃ index < 2 ^ setBits mask, nth mask index = s := by
  have numbers : s.toNat &&& mask.toNat = s.toNat := by rw [← BitVec.toNat_and, sub]
  obtain ⟨index, inside, found⟩ := Submask.exists_deposit s.isLt numbers
  refine ⟨index, inside, BitVec.eq_of_toNat_eq ?_⟩
  rw [toNat_nth, found]

theorem nth_succ_ne_zero (inside : index + 1 < 2 ^ setBits mask) : nth mask (index + 1) ≠ 0 := by
  intro zero
  exact Nat.succ_ne_zero index (nth_injective inside (Nat.two_pow_pos _) (zero.trans (nth_zero mask).symm))

/-- The step of the second loop goes to the submask before. -/
theorem pred_nth (inside : index + 1 < 2 ^ setBits mask) : (nth mask (index + 1) - 1) &&& mask = nth mask index := by
  apply BitVec.eq_of_toNat_eq
  rw [BitVec.toNat_and, toNat_pred (nth_succ_ne_zero inside), toNat_nth, toNat_nth]
  exact Submask.pred_deposit_and inside

theorem toNat_signExtend (value : Word) :
    (value.signExtend 64).toNat = if value.toNat < 2 ^ 31 then value.toNat else 2 ^ 64 - 2 ^ 32 + value.toNat := by
  have bound := value.isLt
  rw [BitVec.toNat_signExtend, BitVec.toNat_setWidth, BitVec.msb_eq_decide, Nat.mod_eq_of_lt (by omega)]
  simp only [decide_eq_true_eq]
  split <;> split <;> omega

/-- The second loop stores the submasks from the given one down at the indices from the given one up. -/
theorem walk_nth {start : Nat} (inside : index < 2 ^ setBits mask) (fits : start + index < 2 ^ 31) :
    walk mask (nth mask index) (BitVec.ofNat 32 start) =
      (BitVec.ofNat 32 (start + index),
        (List.range index).map fun step => (((start + step : Nat) : Int), nth mask (index - step))) := by
  induction index generalizing start with
  | zero =>
      rw [walk, dif_neg (not_not.mpr (nth_zero mask))]
      rfl
  | succ index ih =>
      have next : BitVec.ofNat 32 start + 1 = BitVec.ofNat 32 (start + 1) := (BitVec.ofNat_add start 1).symm
      have later : (fun step => (((start + step : Nat) : Int), nth mask (index + 1 - step))) ∘ Nat.succ =
          fun step => (((start + 1 + step : Nat) : Int), nth mask (index - step)) := by
        funext step
        rw [Function.comp_apply, Nat.succ_sub_succ, Nat.succ_eq_add_one, Nat.add_comm step, Nat.add_assoc]
      rw [walk, dif_pos (nth_succ_ne_zero inside), pred_nth inside, next, ih (by omega) (by omega),
        List.range_succ_eq_map, List.map_cons, List.map_map, later, BitField.toInt_ofNat (by omega), Nat.add_right_comm]
      rfl

/-- The entries of `out` are zero and then the other submasks in decreasing order. -/
def entry (mask : Word) (index : Nat) : Word := nth mask (if index = 0 then 0 else 2 ^ setBits mask - index)

theorem walk_mask (few : setBits mask ≤ 30) :
    walk mask mask 1 = (BitVec.ofNat 32 (2 ^ setBits mask),
      (List.range (2 ^ setBits mask - 1)).map fun step => ((step.succ : Int), entry mask step.succ)) := by
  have bound : 2 ^ setBits mask ≤ 2 ^ 30 := Nat.pow_le_pow_right Nat.two_pos few
  have some := Nat.two_pow_pos (setBits mask)
  have walked := @walk_nth mask (2 ^ setBits mask - 1) 1 (by omega) (by omega)
  rw [nth_last, Nat.add_sub_cancel' some] at walked
  refine walked.trans (Prod.ext rfl (List.map_congr_left fun step _ => ?_))
  rw [entry, if_neg step.succ_ne_zero, Nat.add_comm 1 step, Nat.sub_sub, Nat.add_comm 1 step]

/-- The shifted integer of the guard is the number of submasks for masks with at most thirty bits. -/
theorem toNat_shiftOne (oversized : Nat → Word) {k : Nat} (few : k ≤ 30) :
    ((shiftOne oversized k).signExtend 64).toNat = 2 ^ k := by
  have bound : 2 ^ k ≤ 2 ^ 30 := Nat.pow_le_pow_right Nat.two_pos few
  have number : (shiftOne oversized k).toNat = 2 ^ k := by
    rw [shiftOne, if_pos few, BitVec.toNat_shiftLeft, Nat.shiftLeft_eq]
    exact (congrArg (· % 2 ^ 32) (Nat.one_mul _)).trans (Nat.mod_eq_of_lt (by omega))
  rw [toNat_signExtend, number, if_pos (by omega)]

theorem generateSubmasks_eq (oversized : Nat → Word) (mask : Word) (outCap : Size) :
    generateSubmasks oversized mask true outCap true =
      if outCap < (shiftOne oversized (setBits mask)).signExtend 64 then ⟨-3, some 0, []⟩
      else ⟨0, some ((walk mask mask 1).1.signExtend 64), (0, 0) :: (walk mask mask 1).2⟩ := by
  simp [generateSubmasks, countBits_eq]

/-- A call with enough room stores the entries one after the other. -/
theorem generateSubmasks_room (oversized : Nat → Word) {outCap : Size} (few : setBits mask ≤ 30)
    (room : 2 ^ setBits mask ≤ outCap.toNat) :
    generateSubmasks oversized mask true outCap true =
      ⟨0, some (BitVec.ofNat 64 (2 ^ setBits mask)),
        (List.range (2 ^ setBits mask)).map fun index : Nat => ((index : Int), entry mask index)⟩ := by
  have bound : 2 ^ setBits mask ≤ 2 ^ 30 := Nat.pow_le_pow_right Nat.two_pos few
  have enough : ¬outCap < (shiftOne oversized (setBits mask)).signExtend 64 := by
    rw [BitVec.lt_def, toNat_shiftOne oversized few]
    omega
  have final : (BitVec.ofNat 32 (2 ^ setBits mask)).signExtend 64 = BitVec.ofNat 64 (2 ^ setBits mask) := by
    apply BitVec.eq_of_toNat_eq
    rw [toNat_signExtend, BitVec.toNat_ofNat, BitVec.toNat_ofNat, Nat.mod_eq_of_lt (by omega), if_pos (by omega),
      Nat.mod_eq_of_lt (by omega)]
  have whole : List.range (2 ^ setBits mask) = 0 :: (List.range (2 ^ setBits mask - 1)).map Nat.succ := by
    rw [← List.range_succ_eq_map, Nat.sub_add_cancel (Nat.two_pow_pos _)]
  have first : entry mask 0 = 0 := nth_zero mask
  rw [generateSubmasks_eq, if_neg enough, walk_mask few, final, whole, List.map_cons, List.map_map, first]
  rfl

/-- Stores at the indices from zero up give their entries in this range. -/
theorem out_stores (entries : Nat → Word) (memory : Int → Word) (count : Nat) (code : Int) (outCount : Option Size)
    {index : Nat} (inside : index < count) :
    (Result.mk code outCount ((List.range count).map fun index : Nat => ((index : Int), entries index))).out memory
      index = entries index := by
  induction count with
  | zero => omega
  | succ count ih =>
      rw [Result.out] at ih ⊢
      rw [List.range_succ, List.map_append, List.foldl_append]
      rcases Nat.lt_succ_iff_lt_or_eq.mp inside with earlier | rfl
      · exact (Function.update_of_ne (mt Int.ofNat.inj (Nat.ne_of_lt earlier)) _ _).trans (ih earlier)
      · exact Function.update_self ..

/-- The entries are pairwise different. -/
theorem entry_injective {other : Nat} (inside : index < 2 ^ setBits mask) (within : other < 2 ^ setBits mask)
    (same : entry mask index = entry mask other) : index = other := by
  have some := Nat.two_pow_pos (setBits mask)
  have indices := nth_injective (by split <;> omega) (by split <;> omega) same
  split at indices <;> split at indices <;> omega

/-- Every submask is an entry. -/
theorem exists_entry {s : Word} (sub : Submask mask s) : ∃ index < 2 ^ setBits mask, entry mask index = s := by
  obtain ⟨index, inside, found⟩ := exists_nth sub
  refine ⟨if index = 0 then 0 else 2 ^ setBits mask - index, by split <;> omega, ?_⟩
  rw [← found, entry]
  congr 1
  split <;> split <;> omega

/-- The generator stores every submask of a mask with at most thirty bits once and nothing else. -/
theorem generate_submasks_exact (oversized : Nat → Word) (mask : Word) (few : setBits mask ≤ 30) (outCap : Size)
    (room : 2 ^ setBits mask ≤ outCap.toNat) (memory : Int → Word) :
    (generateSubmasks oversized mask true outCap true).code = 0 ∧
      (generateSubmasks oversized mask true outCap true).outCount = some (BitVec.ofNat 64 (2 ^ setBits mask)) ∧
      (∀ s, Submask mask s → ∃! index : Nat, index < 2 ^ setBits mask ∧
        (generateSubmasks oversized mask true outCap true).out memory index = s) ∧
      (∀ index < 2 ^ setBits mask, Submask mask
        ((generateSubmasks oversized mask true outCap true).out memory (index : Nat))) ∧
      ∀ store ∈ (generateSubmasks oversized mask true outCap true).stores,
        0 ≤ store.1 ∧ store.1 < (2 ^ setBits mask : Nat) := by
  rw [generateSubmasks_room oversized few room]
  refine ⟨rfl, rfl, fun s sub => ?_, fun index inside => ?_, fun store member => ?_⟩
  · obtain ⟨index, inside, found⟩ := exists_entry sub
    refine ⟨index, ⟨inside, (out_stores (entry mask) memory _ _ _ inside).trans found⟩, ?_⟩
    rintro other ⟨within, same⟩
    rw [out_stores (entry mask) memory _ _ _ within] at same
    exact entry_injective within inside (same.trans found.symm)
  · rw [out_stores (entry mask) memory _ _ _ inside]
    exact submask_nth mask _
  · obtain ⟨index, inside, rfl⟩ := List.mem_map.mp member
    exact ⟨Int.natCast_nonneg index, Int.ofNat_lt.mpr (List.mem_range.mp inside)⟩

/-- The mask five has four submasks, which fill a buffer of four entries. -/
theorem generate_submasks_of_five :
    (generateSubmasks (fun _ => 0) 5 true 4 true).code = 0 ∧
      (generateSubmasks (fun _ => 0) 5 true 4 true).outCount = some 4 ∧
      ∃! index : Nat, index < 4 ∧ (generateSubmasks (fun _ => 0) 5 true 4 true).out (fun _ => 7) index = 1 := by
  have call := generate_submasks_exact (fun _ => 0) 5 (by decide) 4 (by decide) (fun _ => 7)
  exact ⟨call.1, call.2.1, call.2.2.1 1 rfl⟩

/-- The call is refused when the guard says so. -/
theorem refused_iff (oversized : Nat → Word) (mask : Word) (outCap : Size) :
    (generateSubmasks oversized mask true outCap true).code = -3 ↔
      outCap.toNat < ((shiftOne oversized (setBits mask)).signExtend 64).toNat := by
  rw [generateSubmasks_eq, ← BitVec.lt_def]
  split <;> simp [*]

/-- A refused call leaves the buffer alone. -/
theorem untouched_of_refused (oversized : Nat → Word) (mask : Word) (outCap : Size)
    (refused : (generateSubmasks oversized mask true outCap true).code = -3) :
    (generateSubmasks oversized mask true outCap true).Untouched := by
  rw [refused_iff, ← BitVec.lt_def] at refused
  rw [generateSubmasks_eq, if_pos refused]
  exact ⟨rfl, rfl⟩

/-- The guard is exact for the masks with at most thirty bits and for no others,
whatever the machine makes of a shift that leaves the range. -/
theorem generate_guard_exact_iff (oversized : Nat → Word) (mask : Word) :
    (ShiftInRange (setBits mask) ↔ setBits mask ≤ 30) ∧
      (∀ outCap, (generateSubmasks oversized mask true outCap true).code = -3 →
        (generateSubmasks oversized mask true outCap true).Untouched) ∧
      ((∀ outCap, (generateSubmasks oversized mask true outCap true).code = -3 ↔ outCap.toNat < 2 ^ setBits mask) ↔
        setBits mask ≤ 30) := by
  have most : 2 ^ setBits mask ≤ 2 ^ 32 := Nat.pow_le_pow_right Nat.two_pos (setBits_le mask)
  have beyond (many : ¬setBits mask ≤ 30) : 2 ^ 31 ≤ 2 ^ setBits mask :=
    Nat.pow_le_pow_right Nat.two_pos (Nat.lt_of_not_le many)
  refine ⟨⟨fun inside => ?_, fun few => ?_⟩, untouched_of_refused oversized mask, fun guarded => ?_,
    fun few outCap => ?_⟩
  · by_contra many
    have large := beyond many
    exact absurd inside.2 (by omega)
  · have bound : 2 ^ setBits mask ≤ 2 ^ 30 := Nat.pow_le_pow_right Nat.two_pos few
    exact ⟨by omega, by omega⟩
  · by_contra many
    have large := beyond many
    simp only [refused_iff, toNat_signExtend] at guarded
    -- The converted integer is below 2^31 or close to 2^64, so it is not the number of submasks.
    split at guarded
    · have full := guarded 0x7FFFFFFF
      change 0x7FFFFFFF < _ ↔ 0x7FFFFFFF < _ at full
      omega
    · have enough := guarded 0x100000000
      change 0x100000000 < _ ↔ 0x100000000 < _ at enough
      omega
  · rw [refused_iff, toNat_shiftOne oversized few]

/-- On a machine that shifts by the amount modulo 32, a buffer of 2^31 entries is refused for 31 bits
and a buffer of one entry is accepted for 32 bits. -/
theorem generate_guard_out_of_range :
    ¬ShiftInRange (setBits 0x7FFFFFFF) ∧ ¬ShiftInRange (setBits 0xFFFFFFFF) ∧
      (2 ^ setBits 0x7FFFFFFF ≤ (0x80000000 : Size).toNat ∧
        (generateSubmasks (fun k => (1 : Word) <<< (k % 32)) 0x7FFFFFFF true 0x80000000 true).code = -3) ∧
      (1 : Size).toNat < 2 ^ setBits 0xFFFFFFFF ∧
        (generateSubmasks (fun k => (1 : Word) <<< (k % 32)) 0xFFFFFFFF true 1 true).code ≠ -3 := by
  rw [ne_eq, refused_iff, refused_iff]
  refine ⟨?_, ?_, ⟨?_, ?_⟩, ?_, ?_⟩
  · rintro ⟨-, small⟩
    revert small
    decide
  · rintro ⟨places, -⟩
    revert places
    decide
  all_goals decide

end Ostep.Submasks
