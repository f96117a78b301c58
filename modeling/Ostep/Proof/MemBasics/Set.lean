import Mathlib.Tactic.IntervalCases
import Ostep.Proof.MemBasics.Move

namespace Ostep.MemBasics

open Library Library.Memory

variable {dst : Addr} {value : BitVec 32} {n : Size}

/-- The fill loop stores its unit again and again. -/
theorem fillUp_patch (memory : Memory) (dst : Addr) (content : Nat → BitVec 8) {size : Nat} (unit count filled : Nat)
    (some : 0 < size) (fits : filled + size * count ≤ 2 ^ 64)
    (bytes : ∀ index < size * count, content (filled + index) = byte unit (index % size)) :
    fillUp size unit count (patch memory dst 0 filled content) (dst + BitVec.ofNat 64 filled) =
      (patch memory dst 0 (filled + size * count) content, dst + BitVec.ofNat 64 (filled + size * count)) := by
  induction count generalizing filled with
  | zero => rfl
  | succ count ih =>
      rw [Nat.mul_succ] at fits bytes ⊢
      have stored : store (patch memory dst 0 filled content) (dst + BitVec.ofNat 64 filled) size unit =
          patch memory dst 0 (filled + size) content := by
        refine store_patch (by omega) some (fun index inside => ?_) fun offset => by omega
        rw [bytes index (by omega), Nat.mod_eq_of_lt inside]
      rw [fillUp, stored, BitVec.add_assoc, ← BitVec.ofNat_add, ih (filled + size) (by omega) ?_, Nat.add_assoc,
        Nat.add_comm size]
      intro index inside
      rw [Nat.add_assoc, bytes (size + index) (by omega), Nat.add_mod_left]

/-- The bytes that an accepted fill leaves. -/
def fillBytes (value : BitVec 32) (n : Size) (index : Nat) : BitVec 8 :=
  if index < 4 * (n >>> 2).toNat then byte (fillWord value).toNat (index % 4) else value.setWidth 8

theorem myMemset_accepted (memory : Memory) (dstValid : dst ≠ 0) (small : (255 : BitVec 32).slt value = false)
    (some : n ≠ 0) :
    myMemset memory dst value n = (patch memory dst 0 n.toNat (fillBytes value n), dst) := by
  have words := toNat_words n
  have bound := n.isLt
  have low : byte (value.setWidth 8).toNat 0 = value.setWidth 8 := by
    rw [byte, Nat.pow_zero, Nat.div_one, BitVec.ofNat_toNat, BitVec.setWidth_eq]
  have first := fillUp_patch memory dst (fillBytes value n) (fillWord value).toNat (n >>> 2).toNat 0
    (show 0 < 4 by decide) (by omega) fun index inside => by rw [Nat.zero_add, fillBytes, if_pos inside]
  have second := fillUp_patch memory dst (fillBytes value n) (value.setWidth 8).toNat (n &&& 0x3).toNat
    (4 * (n >>> 2).toNat) Nat.one_pos (by omega) fun index inside => by
      rw [fillBytes, if_neg (by omega), Nat.mod_one, low]
  rw [patch_empty, BitVec.add_zero, Nat.zero_add] at first
  have accepted : ¬(dst = 0 ∨ (255 : BitVec 32).slt value = true ∨ n = 0) := by
    rw [small]
    exact not_or.mpr ⟨dstValid, not_or.mpr ⟨Bool.false_ne_true, some⟩⟩
  rw [myMemset, if_neg accepted]
  simp only [first, second, words]

/-- A byte of a word is eight of its bits. -/
theorem byte_toNat (word : BitVec 32) (index : Nat) : byte word.toNat index = word.extractLsb' (8 * index) 8 := by
  apply BitVec.eq_of_toNat_eq
  rw [byte, BitVec.toNat_ofNat, BitVec.extractLsb'_toNat, Nat.shiftRight_eq_div_pow, Nat.pow_mul]

/-- A byte of a value shifted by whole bytes is an earlier byte of the value. -/
theorem shifted_byte (value : BitVec 32) (places : Nat) {index : Nat} (inside : index < 4) :
    (value <<< (8 * places)).extractLsb' (8 * index) 8 =
      if places ≤ index then value.extractLsb' (8 * (index - places)) 8 else 0 := by
  apply BitVec.eq_of_getLsbD_eq
  intro bit below
  rw [BitVec.getLsbD_extractLsb', BitVec.getLsbD_shiftLeft]
  split
  · have shifted : 8 * index + bit - 8 * places = 8 * (index - places) + bit := by omega
    rw [BitVec.getLsbD_extractLsb', shifted]
    have wide : 8 * index + bit < 32 := by omega
    have passed : ¬8 * index + bit < 8 * places := by omega
    simp [wide, passed]
  · have early : 8 * index + bit < 8 * places := by omega
    simp [early]

/-- Each byte of the filled word joins the bytes of the value up to its own place. -/
theorem fillWord_byte (value : BitVec 32) {index : Nat} (inside : index < 4) :
    (fillWord value).extractLsb' (8 * index) 8 =
      (if 3 ≤ index then value.extractLsb' (8 * (index - 3)) 8 else 0) |||
      (if 2 ≤ index then value.extractLsb' (8 * (index - 2)) 8 else 0) |||
      (if 1 ≤ index then value.extractLsb' (8 * (index - 1)) 8 else 0) ||| value.extractLsb' (8 * index) 8 := by
  rw [← shifted_byte value 3 inside, ← shifted_byte value 2 inside, ← shifted_byte value 1 inside, fillWord,
    BitVec.extractLsb'_or, BitVec.extractLsb'_or, BitVec.extractLsb'_or]

/-- Joined bytes are the first one exactly when the others have only its bits. -/
theorem join_eq_iff (first second third fourth : BitVec 8) :
    first ||| second ||| third ||| fourth = first ↔
      second ||| first = first ∧ third ||| first = first ∧ fourth ||| first = first := by
  simp only [BitVec.eq_of_getLsbD_eq_iff, BitVec.getLsbD_or]
  grind

/-- The filled word repeats the low byte exactly when the value has only bits of its low byte. -/
theorem fillWord_repeats_iff :
    (∀ index < 4, byte (fillWord value).toNat index = value.setWidth 8) ↔ Repeats value := by
  have low : value.setWidth 8 = value.extractLsb' (8 * 0) 8 := BitVec.setWidth_eq_extractLsb' (by decide)
  simp only [Repeats, byte_toNat, low]
  constructor
  · intro same
    have last := same 3 (by decide)
    rw [fillWord_byte value (by decide)] at last
    obtain ⟨second, third, fourth⟩ := (join_eq_iff ..).mp last
    intro index inside
    interval_cases index
    · exact BitVec.or_self
    · exact second
    · exact third
    · exact fourth
  · intro repeats index inside
    have second := repeats 1 (by decide)
    have third := repeats 2 (by decide)
    rw [fillWord_byte value inside]
    interval_cases index
    · change 0#8 ||| 0#8 ||| 0#8 ||| _ = _
      rw [BitVec.zero_or, BitVec.zero_or, BitVec.zero_or]
    · change 0#8 ||| 0#8 ||| value.extractLsb' (8 * 0) 8 ||| _ = _
      rw [BitVec.zero_or, BitVec.zero_or, BitVec.or_comm, second]
    · change 0#8 ||| value.extractLsb' (8 * 0) 8 ||| value.extractLsb' (8 * 1) 8 ||| _ = _
      rw [BitVec.zero_or, BitVec.or_comm (value.extractLsb' (8 * 0) 8), second, BitVec.or_comm, third]
    · exact (join_eq_iff ..).mpr ⟨second, third, repeats 3 (by decide)⟩

/-- An accepted fill leaves the low byte everywhere exactly when it stores no word or the word repeats it. -/
theorem fillBytes_eq_low_iff :
    (∀ index < n.toNat, fillBytes value n index = value.setWidth 8) ↔ n.toNat < 4 ∨ Repeats value := by
  have words : (n >>> 2).toNat = n.toNat / 4 := by
    rw [BitVec.toNat_ushiftRight, Nat.shiftRight_eq_div_pow]
  constructor
  · intro same
    refine or_iff_not_imp_left.mpr fun large => fillWord_repeats_iff.mp fun index inside => ?_
    have stored := same index (by omega)
    rwa [fillBytes, if_pos (by omega), Nat.mod_eq_of_lt inside] at stored
  · rintro (small | repeats) index inside
    · exact if_neg (by omega)
    · rw [fillBytes]
      split
      · exact fillWord_repeats_iff.mpr repeats _ (Nat.mod_lt _ (by decide))
      · rfl

/-- A fill writes the low byte of its value to the whole range and nothing else exactly when the range is empty, or
the value is at most 255 and either no word is stored or the bytes of the value have only bits of its low byte. -/
theorem memset_fills_iff (dst : Addr) (value : BitVec 32) (n : Size) (dstValid : dst ≠ 0) :
    (∀ memory, Overwrites memory (myMemset memory dst value n).1 dst n.toNat (fun _ => value.setWidth 8) ∧
      (myMemset memory dst value n).2 = dst) ↔
    n = 0 ∨ ((255 : BitVec 32).slt value = false ∧ (n.toNat < 4 ∨ Repeats value)) := by
  by_cases empty : n = 0
  · refine iff_of_true (fun memory => ?_) (Or.inl empty)
    rw [myMemset, if_pos (Or.inr (Or.inr empty)), empty]
    exact ⟨⟨nofun, fun _ _ => rfl⟩, rfl⟩
  rw [or_iff_right empty]
  have positive : 0 < n.toNat := Nat.pos_of_ne_zero fun zero => empty (BitVec.eq_of_toNat_eq zero)
  cases large : (255 : BitVec 32).slt value with
  | true =>
      -- A rejected value leaves a byte that differs from the low byte of the value.
      refine iff_of_false (fun fills => ?_) (fun accepted => Bool.noConfusion accepted.1)
      have stored := (fills fun _ => value.setWidth 8 + 1).1.written 0 positive
      rw [myMemset, if_pos (Or.inr (Or.inl large))] at stored
      bv_omega
  | false =>
      rw [and_iff_right rfl, ← fillBytes_eq_low_iff]
      constructor
      · intro fills index inside
        have filled := (fills fun _ => 0).1
        rw [myMemset_accepted _ dstValid large empty] at filled
        exact (overwrites_patch n.isLt.le).content_eq filled inside
      · intro same memory
        rw [myMemset_accepted _ dstValid large empty]
        exact ⟨(overwrites_patch n.isLt.le).congr same, rfl⟩

/-- Seven bytes get the letter A. -/
theorem memset_fills_seven :
    Overwrites (fun _ => 0) (myMemset (fun _ => 0) 0x1000 0x41 7).1 0x1000 7 (fun _ => 0x41) :=
  ((memset_fills_iff 0x1000 0x41 7 (by decide)).mpr (Or.inr ⟨by decide, Or.inr (by decide)⟩) fun _ => 0).1

/-- The word for -2 has three bytes of 255 where the low byte is 254, and the value 256 writes nothing. -/
theorem memset_wide_values :
    (myMemset (fun _ => 0) 0x1000 (-2) 4).1 0x1001 = 0xFF ∧
    ¬Overwrites (fun _ => 0) (myMemset (fun _ => 0) 0x1000 (-2) 4).1 0x1000 4 (fun _ => (-2 : BitVec 32).setWidth 8) ∧
    (myMemset (fun _ => 7) 0x1000 256 1).1 0x1000 = 7 ∧
    ¬Overwrites (fun _ => 7) (myMemset (fun _ => 7) 0x1000 256 1).1 0x1000 1
      (fun _ => (256 : BitVec 32).setWidth 8) := by
  refine ⟨by decide, fun fills => ?_, by decide, fun fills => ?_⟩
  · exact absurd (fills.written 1 (by decide)) (by decide)
  · exact absurd (fills.written 0 (by decide)) (by decide)

end Ostep.MemBasics
