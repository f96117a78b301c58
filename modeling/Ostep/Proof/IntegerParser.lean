import Mathlib.Data.List.Induction
import Mathlib.Tactic.NormNum
import Mathlib.Tactic.Ring
import Ostep.Construction.IntegerParser

namespace Ostep.IntegerParser

variable {characters rest : List (BitVec 8)} {character first : BitVec 8} {s : CString} {old : BitVec 32}

/-- The switch gives the value of a digit and rejects every other character. -/
theorem whatDigit_eq (character : BitVec 8) :
    whatDigit character = if isDigit character then ((character.toNat - 0x30 : Nat) : Int) else -1 := by
  unfold whatDigit
  split
  case h_11 =>
    have other : isDigit character = false := by
      rw [isDigit, decide_eq_false_iff_not]
      simp only [imp_false] at *
      bv_omega
    rw [other]
    rfl
  all_goals rfl

theorem whatDigit_of_digit (digit : isDigit character = true) :
    ∃ value ≤ 9, whatDigit character = (value : Nat) ∧ character.toNat - 0x30 = value := by
  refine ⟨character.toNat - 0x30, ?_, ?_, rfl⟩
  · rw [isDigit, decide_eq_true_eq, BitVec.le_def, BitVec.le_def] at digit
    have high := digit.2
    change character.toNat ≤ 57 at high
    omega
  · rw [whatDigit_eq, if_pos digit]

theorem whatDigit_of_other (other : isDigit character = false) : whatDigit character = -1 := by
  rw [whatDigit_eq, other]
  exact if_neg Bool.false_ne_true

theorem int64_of_lt {result : Int} (nonneg : 0 ≤ result) (below : result < 2 ^ 63) : int64 result = some result :=
  if_pos ⟨by omega, below⟩

theorem trailing_append_digit (digit : isDigit character = true) :
    trailing (characters ++ [character]) = trailing characters + 1 := by
  simp [trailing, digit]

theorem trailing_append_other (other : isDigit character = false) : trailing (characters ++ [character]) = 0 := by
  simp [trailing, other]

/-- The last digit has the lowest place. -/
theorem decimal_append (characters : List (BitVec 8)) (character : BitVec 8) :
    decimal (characters ++ [character]) = (character.toNat - 0x30) + 10 * decimal characters := by
  simp [decimal, Nat.ofDigits_cons]

/-- What the loop makes of the characters that are left. -/
def loopOutcome (characters : List (BitVec 8)) (place : Nat) (rv : Int) : Option (Except Int Int) :=
  if place + trailing characters ≤ 18 then
    some (if characters.all isDigit then .ok (rv + 10 ^ place * decimal characters) else .error (-4))
  else none

theorem loopOutcome_other (other : isDigit character = false) {place : Nat} (low : place ≤ 18) (rv : Int) :
    loopOutcome (characters ++ [character]) place rv = some (.error (-4)) := by
  rw [loopOutcome, trailing_append_other other, Nat.add_zero, if_pos low, List.all_append]
  simp [other]

theorem loopOutcome_digit (digit : isDigit character = true) (place : Nat) (rv : Int) :
    loopOutcome (characters ++ [character]) place rv =
      loopOutcome characters (place + 1) (rv + (character.toNat - 0x30 : Nat) * 10 ^ place) := by
  have value : rv + 10 ^ place * (decimal (characters ++ [character]) : Int) =
      rv + (character.toNat - 0x30 : Nat) * 10 ^ place + 10 ^ (place + 1) * decimal characters := by
    rw [decimal_append]
    push_cast
    ring
  have places : place + trailing (characters ++ [character]) ≤ 18 ↔ place + 1 + trailing characters ≤ 18 := by
    rw [trailing_append_digit digit]
    omega
  simp only [loopOutcome, places, value, List.all_append, List.all_cons, List.all_nil, digit, Bool.and_true]

/-- A digit in one of the first nineteen places is in range. -/
theorem nine_ten_pow_lt {place : Nat} (low : place ≤ 18) : (9 : Int) * 10 ^ place < 2 ^ 63 :=
  calc (9 : Int) * 10 ^ place ≤ 9 * 10 ^ 18 := mul_le_mul_of_nonneg_left (pow_le_pow_right₀ (by decide) low) (by decide)
    _ < 2 ^ 63 := by norm_num

theorem int64_nineteen : int64 (10 ^ (18 + 1)) = none := if_neg (by norm_num)

theorem charAt_succ (split : s.bytes = first :: rest) {i : Nat} (inside : i < rest.length) :
    s.charAt (i + 1) = rest[i] := by
  rw [CString.charAt, split, List.getD_cons_succ, List.getD_eq_getElem?_getD, List.getElem?_eq_getElem inside]
  rfl

/-- The loop adds up the digits until a character is no digit or the multiplier leaves its range. -/
theorem parseLoop_eq (split : s.bytes = first :: rest) {i place : Nat} {rv : Int} (inside : i ≤ rest.length)
    (low : place ≤ 18) (nonneg : 0 ≤ rv) (below : rv < 10 ^ place) :
    parseLoop s i rv (10 ^ place) = loopOutcome (rest.take i) place rv := by
  induction i generalizing place rv with
  | zero => simp [parseLoop, loopOutcome, trailing, decimal, low]
  | succ i ih =>
      rw [parseLoop, charAt_succ split inside, List.take_add_one, List.getElem?_eq_getElem inside, Option.toList_some]
      cases digit : isDigit rest[i] with
      | false =>
          rw [loopOutcome_other digit low, whatDigit_of_other digit]
          rfl
      | true =>
          obtain ⟨value, small, read, same⟩ := whatDigit_of_digit digit
          have positive : (0 : Int) < 10 ^ place := pow_pos (by decide) place
          have nonnegProduct : 0 ≤ (value : Int) * 10 ^ place := mul_nonneg (Int.natCast_nonneg value) positive.le
          have product : (value : Int) * 10 ^ place ≤ 9 * 10 ^ place :=
            mul_le_mul_of_nonneg_right (Int.ofNat_le.mpr small) positive.le
          rw [loopOutcome_digit digit, same, read, if_neg (Int.not_lt.mpr (Int.natCast_nonneg value)),
            int64_of_lt nonnegProduct (product.trans_lt (nine_ten_pow_lt low))]
          rw [← pow_succ, Option.bind_eq_bind, Option.bind_some]
          rcases low.lt_or_eq with fewer | rfl
          · have sum : rv + value * 10 ^ place < 10 ^ (place + 1) := by
              rw [pow_succ]
              omega
            have inRange : (10 : Int) ^ (place + 1) < 2 ^ 63 := by
              have nine := nine_ten_pow_lt fewer
              have nonnegative : (0 : Int) ≤ 10 ^ (place + 1) := pow_nonneg (by decide) _
              exact lt_of_le_of_lt (by omega) nine
            rw [int64_of_lt (add_nonneg nonneg nonnegProduct) (sum.trans inRange), Option.bind_some,
              int64_of_lt (pow_nonneg (by decide) _) inRange, Option.bind_some]
            exact ih (Nat.le_of_succ_le inside) fewer (add_nonneg nonneg nonnegProduct) sum
          · -- The nineteenth digit takes the multiplier out of its range, whatever the sum is.
            rw [int64_nineteen]
            simp only [Option.bind_none, Option.bind_fun_none]
            exact (if_neg fun few => absurd few (by omega)).symm

theorem charAt_zero (split : s.bytes = first :: rest) : s.charAt 0 = first := by
  rw [CString.charAt, split, List.getD_cons_zero]

/-- The terminator follows the last character. -/
theorem charAt_length (s : CString) : s.charAt s.bytes.length = 0 := by
  rw [CString.charAt, List.getD_eq_getElem?_getD, List.getElem?_eq_none le_rfl, Option.getD_none]

/-- Numbers without a sign are above the lowest number. -/
theorem int32Min_le_decimal (digits : List (BitVec 8)) : int32Min ≤ decimal digits := by
  have lowest : int32Min ≤ 0 := by decide
  exact lowest.trans (Int.natCast_nonneg _)

/-- A string that starts with a digit is rejected, since the loop starts at the terminator. -/
theorem parseI32_digit (split : s.bytes = first :: rest) (digit : isDigit first = true) :
    parseI32 (some s) (some old) = some (-4, some old) := by
  have unsigned : ¬(s.charAt 0 = minus ∨ s.charAt 0 = plus) := by
    rw [charAt_zero split]
    rintro (rfl | rfl) <;> cases digit
  obtain ⟨value, -, read, -⟩ := whatDigit_of_digit digit
  have terminator : s.charAt (rest.length + 1) = 0 := by
    rw [← List.length_cons (a := first), ← split, charAt_length]
  have stops : parseLoop s (rest.length + 1) 0 1 = some (.error (-4)) := by
    rw [parseLoop, terminator]
    rfl
  simp only [parseI32, unsigned, if_false]
  rw [if_neg, if_neg, if_pos trivial, strlen, split, List.length_cons, stops, Option.map_some]
  · exact fun alone => absurd alone.1 (by decide)
  · rw [charAt_zero split, read]
    omega

/-- A string that starts with neither a digit nor a sign is rejected. -/
theorem parseI32_other (unsigned : ¬(s.charAt 0 = minus ∨ s.charAt 0 = plus)) (other : isDigit (s.charAt 0) = false) :
    parseI32 (some s) (some old) = some (-3, some old) := by
  simp [parseI32, if_neg unsigned, whatDigit_of_other other]

/-- A sign alone is rejected. -/
theorem parseI32_alone (split : s.bytes = [first]) (sign : first = plus ∨ first = minus) :
    parseI32 (some s) (some old) = some (-3, some old) := by
  have signed : s.charAt 0 = minus ∨ s.charAt 0 = plus := by rwa [charAt_zero split, or_comm]
  have terminator := charAt_length s
  rw [split, List.length_singleton] at terminator
  simp [parseI32, if_pos signed, terminator]

theorem charAt_sign (split : s.bytes = first :: rest) (sign : first = plus ∨ first = minus) :
    s.charAt 0 = minus ∨ s.charAt 0 = plus := by rwa [charAt_zero split, or_comm]

/-- A character follows the sign. -/
theorem charAt_one_ne_zero (split : s.bytes = first :: rest) (longer : rest ≠ []) : s.charAt 1 ≠ 0 := by
  obtain ⟨second, others, rfl⟩ := List.exists_cons_of_ne_nil longer
  rw [CString.charAt, split]
  exact s.nonzero second (by simp [split])

/-- The outcome for the characters after a sign. -/
def signedOutcome (rest : List (BitVec 8)) (old : BitVec 32) : Option (Int × Option (BitVec 32)) :=
  if trailing rest ≤ 18 then
    some (if rest.all isDigit then
      (if int32Max < decimal rest then (-5, some old) else (0, some (BitVec.ofInt 32 (decimal rest))))
      else (-4, some old))
  else none

/-- The sign of a number is not used. -/
theorem parseI32_signed (split : s.bytes = first :: rest) (sign : first = plus ∨ first = minus) (longer : rest ≠ []) :
    parseI32 (some s) (some old) = signedOutcome rest old := by
  have signed := charAt_sign split sign
  have next := charAt_one_ne_zero split longer
  have looped : parseLoop s (strlen s - 1) 0 1 = loopOutcome rest 0 0 := by
    have all := parseLoop_eq split le_rfl (Nat.zero_le 18) le_rfl (show (0 : Int) < 10 ^ 0 by decide)
    rw [List.take_length, pow_zero] at all
    rwa [strlen, split, List.length_cons, Nat.add_sub_cancel]
  simp only [parseI32, signed, if_true]
  rw [if_neg fun unsigned => absurd unsigned.1 (by decide), if_neg fun alone => next alone.2, if_neg (by decide),
    looped, loopOutcome, signedOutcome, Nat.zero_add, pow_zero, Int.one_mul, Int.zero_add]
  by_cases few : trailing rest ≤ 18
  · rw [if_pos few, if_pos few, Option.map_some]
    cases digits : rest.all isDigit with
    | false => rfl
    | true =>
        simp only [if_true, gt_iff_lt, not_lt.mpr (int32Min_le_decimal rest), or_false]
  · rw [if_neg few, if_neg few, Option.map_none]

theorem meets_iff {code : Int} {out : BitVec 32} (parsed : parseI32 (some s) (some old) = some (code, some out)) :
    Meets s old ↔ Required s.bytes old code out := by
  rw [Meets, parsed]
  constructor
  · rintro ⟨_, _, same, required⟩
    cases same
    exact required
  · exact fun required => ⟨code, out, rfl, required⟩

/-- A malformed string that is neither empty nor a sign needs any negative code. -/
theorem required_malformed (malformed : denoted? (first :: rest) = none)
    (longer : rest ≠ [] ∨ ¬(first = plus ∨ first = minus)) {code : Int} (negative : code < 0) :
    Required (first :: rest) old code old := by
  refine ⟨fun _ => rfl, ?_⟩
  have notSign : ¬(first :: rest = [plus] ∨ first :: rest = [minus]) := by
    simp only [List.cons.injEq]
    tauto
  rw [malformed]
  dsimp only
  rwa [if_neg (List.cons_ne_nil _ _), if_neg notSign]

/-- The empty string gets the code of a missing digit. -/
theorem not_meets_empty (split : s.bytes = []) : ¬Meets s old := by
  have terminator := charAt_length s
  rw [split, List.length_nil] at terminator
  rw [meets_iff (parseI32_other (by rw [terminator]; decide) (by rw [terminator]; decide)), split]
  intro required
  have code := required.2
  simp [denoted?] at code

/-- A sign alone has its own code. -/
theorem meets_alone (split : s.bytes = [first]) (sign : first = plus ∨ first = minus) : Meets s old := by
  rw [meets_iff (parseI32_alone split sign), split]
  refine ⟨fun _ => rfl, ?_⟩
  rcases sign with rfl | rfl <;> simp [denoted?, unsigned?]

theorem unsigned?_eq_none (other : characters.all isDigit = false) : unsigned? characters = none :=
  if_neg fun valid => absurd valid.2 (by rw [other]; decide)

/-- A string that does not start with a sign is handled exactly when it is no number. -/
theorem meets_unsigned (split : s.bytes = first :: rest) (unsigned : ¬(first = plus ∨ first = minus)) :
    Meets s old ↔ ¬(first :: rest).all isDigit := by
  have denotes : denoted? (first :: rest) = (unsigned? (first :: rest)).map fun value : Nat => (value : Int) := by
    obtain ⟨notPlus, notMinus⟩ := not_or.mp unsigned
    rw [denoted?, if_neg notPlus, if_neg notMinus]
  cases digits : (first :: rest).all isDigit with
  | false =>
      have malformed : denoted? (first :: rest) = none := by rw [denotes, unsigned?_eq_none digits, Option.map_none]
      refine iff_of_true ?_ Bool.false_ne_true
      cases digit : isDigit first with
      | true =>
          rw [meets_iff (parseI32_digit split digit), split]
          exact required_malformed malformed (Or.inr unsigned) (by decide)
      | false =>
          rw [meets_iff (parseI32_other (by rwa [charAt_zero split, or_comm]) (by rwa [charAt_zero split])), split]
          exact required_malformed malformed (Or.inr unsigned) (by decide)
  | true =>
      refine iff_of_false ?_ (not_not.mpr rfl)
      have digit : isDigit first = true := by
        rw [List.all_cons, Bool.and_eq_true] at digits
        exact digits.1
      have number : denoted? (first :: rest) = some (decimal (first :: rest) : Int) := by
        rw [denotes, unsigned?, if_pos ⟨List.cons_ne_nil _ _, digits⟩, Option.map_some]
      rw [meets_iff (parseI32_digit split digit), split]
      rintro ⟨-, required⟩
      rw [number] at required
      dsimp only at required
      split_ifs at required
      · exact absurd required.1 (by decide)
      · exact absurd required (by decide)

/-- A number in range has to be stored. -/
theorem required_stored {value : Int} (number : denoted? characters = some value)
    (inRange : int32Min ≤ value ∧ value ≤ int32Max) {out : BitVec 32} :
    Required characters old 0 out ↔ out = BitVec.ofInt 32 value := by
  rw [Required, number]
  dsimp only
  rw [if_pos inRange]
  simp

/-- A number out of range needs the code of an overflow. -/
theorem required_overflow {value : Int} (number : denoted? characters = some value) :
    Required characters old (-5) old ↔ ¬(int32Min ≤ value ∧ value ≤ int32Max) := by
  rw [Required, number]
  dsimp only
  split_ifs with inRange <;> simp [inRange]

theorem toInt_ofInt_of_le {value : Int} (low : -2147483648 ≤ value) (high : value ≤ 2147483647) :
    (BitVec.ofInt 32 value).toInt = value :=
  BitVec.toInt_ofInt_eq_self (by decide) low (Int.lt_add_one_of_le high)

/-- Only zero is stored like its negative. -/
theorem ofInt_neg_iff {value : Nat} (small : (value : Int) ≤ int32Max) :
    BitVec.ofInt 32 value = BitVec.ofInt 32 (-value) ↔ value = 0 := by
  rw [int32Max] at small
  constructor
  · intro same
    have values := congrArg BitVec.toInt same
    rw [toInt_ofInt_of_le (by omega) (by omega), toInt_ofInt_of_le (by omega) (by omega)] at values
    omega
  · rintro rfl
    rfl

theorem signedOutcome_digits (old : BitVec 32) (few : trailing rest ≤ 18) (digits : rest.all isDigit = true) :
    signedOutcome rest old =
      some (if int32Max < decimal rest then (-5, some old) else (0, some (BitVec.ofInt 32 (decimal rest)))) := by
  rw [signedOutcome, if_pos few, if_pos digits]

/-- The number after a plus sign is treated as required. -/
theorem meets_plus (split : s.bytes = plus :: rest) (longer : rest ≠ []) (few : trailing rest ≤ 18)
    (digits : rest.all isDigit = true) : Meets s old := by
  have parsed := (parseI32_signed split (Or.inl rfl) longer).trans (signedOutcome_digits old few digits)
  have number : denoted? (plus :: rest) = some (decimal rest : Int) := by
    rw [denoted?, if_pos rfl, unsigned?, if_pos ⟨longer, digits⟩, Option.map_some]
  by_cases large : int32Max < decimal rest
  · rw [if_pos large] at parsed
    rw [meets_iff parsed, split, required_overflow number]
    exact fun inRange => absurd inRange.2 (not_le.mpr large)
  · rw [if_neg large] at parsed
    rw [meets_iff parsed, split, required_stored number ⟨int32Min_le_decimal rest, not_lt.mp large⟩]

/-- The number after a minus sign is treated as required when it is zero or out of range. -/
theorem meets_minus (split : s.bytes = minus :: rest) (longer : rest ≠ []) (few : trailing rest ≤ 18)
    (digits : rest.all isDigit = true) : Meets s old ↔ decimal rest = 0 ∨ 2 ^ 31 < decimal rest := by
  have parsed := (parseI32_signed split (Or.inr rfl) longer).trans (signedOutcome_digits old few digits)
  have number : denoted? (minus :: rest) = some (-(decimal rest : Int)) := by
    rw [denoted?, if_neg (by decide), if_pos rfl, unsigned?, if_pos ⟨longer, digits⟩, Option.map_some]
  by_cases large : int32Max < decimal rest
  · rw [if_pos large] at parsed
    rw [meets_iff parsed, split, required_overflow number, int32Min, int32Max] at *
    omega
  · rw [if_neg large] at parsed
    have small := not_lt.mp large
    have inRange : int32Min ≤ -(decimal rest : Int) ∧ -(decimal rest : Int) ≤ int32Max := by
      rw [int32Min, int32Max] at *
      omega
    rw [meets_iff parsed, split, required_stored number inRange, ofInt_neg_iff small]
    rw [int32Max] at small
    omega

/-- A string that starts with a sign is handled when the multiplier stays in range and the sign does not matter. -/
theorem meets_signed (split : s.bytes = first :: rest) (sign : first = plus ∨ first = minus) (longer : rest ≠ []) :
    Meets s old ↔
      trailing rest ≤ 18 ∧ (first = minus → rest.all isDigit → decimal rest = 0 ∨ 2 ^ 31 < decimal rest) := by
  by_cases few : trailing rest ≤ 18
  · rw [and_iff_right few]
    cases digits : rest.all isDigit with
    | false =>
        have parsed : parseI32 (some s) (some old) = some (-4, some old) := by
          rw [parseI32_signed split sign longer, signedOutcome, if_pos few, digits]
          rfl
        have malformed : denoted? (first :: rest) = none := by
          have none := unsigned?_eq_none digits
          rcases sign with rfl | rfl
          · rw [denoted?, if_pos rfl, none, Option.map_none]
          · rw [denoted?, if_neg (by decide), if_pos rfl, none, Option.map_none]
        rw [meets_iff parsed, split]
        exact iff_of_true (required_malformed malformed (Or.inl longer) (by decide)) fun _ => nofun
    | true =>
        rcases sign with rfl | rfl
        · exact iff_of_true (meets_plus split longer few digits) fun same => absurd same (by decide)
        · rw [meets_minus split longer few digits]
          simp
  · refine iff_of_false ?_ fun handled => few handled.1
    rintro ⟨code, out, parsed, -⟩
    rw [parseI32_signed split sign longer, signedOutcome, if_neg few] at parsed
    cases parsed

/-- The parser treats a string as required exactly when it starts with a sign, has at most eighteen digits at its end
and is no negative number in range except zero, or when it starts without a sign, is not empty and is no number. -/
theorem parseI32_meets_iff (s : CString) (old : BitVec 32) : Meets s old ↔ Handled s.bytes := by
  cases split : s.bytes with
  | nil => exact iff_of_false (not_meets_empty split) id
  | cons first rest =>
      rw [Handled]
      split
      · rename_i sign
        by_cases longer : rest = []
        · subst longer
          exact iff_of_true (meets_alone ‹_› sign) ⟨Nat.zero_le 18, fun _ _ => Or.inl rfl⟩
        · exact meets_signed ‹_› sign longer
      · rename_i unsigned
        exact meets_unsigned ‹_› unsigned

/-- The string 5 is rejected, the string -5 is read as 5, and the empty string gets the code -3. -/
theorem parseI32_misreads :
    parseI32 (some ⟨[0x35], by decide⟩) (some 0) = some (-4, some 0) ∧ ¬Meets ⟨[0x35], by decide⟩ 0 ∧
    parseI32 (some ⟨[minus, 0x35], by decide⟩) (some 0) = some (0, some 5) ∧ ¬Meets ⟨[minus, 0x35], by decide⟩ 0 ∧
    parseI32 (some ⟨[], by decide⟩) (some 0) = some (-3, some 0) ∧ ¬Meets ⟨[], by decide⟩ 0 := by
  refine ⟨by decide, ?_, by decide, ?_, by decide, not_meets_empty rfl⟩
  · rw [meets_unsigned rfl (by decide)]
    decide
  · rw [meets_minus rfl (by decide) (by decide) (by decide)]
    decide

/-- The loop of a machine that wraps adds up the digits modulo 2^64. -/
theorem wrappedLoop_eq (split : s.bytes = first :: rest) (digits : rest.all isDigit = true) {i : Nat}
    (inside : i ≤ rest.length) (place rv : Nat) :
    wrappedLoop s i (BitVec.ofNat 64 rv) (BitVec.ofNat 64 (10 ^ place)) =
      .ok (BitVec.ofNat 64 (rv + 10 ^ place * decimal (rest.take i))) := by
  induction i generalizing place rv with
  | zero => simp [wrappedLoop, decimal]
  | succ i ih =>
      obtain ⟨value, -, read, same⟩ := whatDigit_of_digit (List.all_eq_true.mp digits rest[i] (List.getElem_mem inside))
      have sum : rv + 10 ^ place * decimal (rest.take (i + 1)) =
          rv + value * 10 ^ place + 10 ^ (place + 1) * decimal (rest.take i) := by
        rw [List.take_add_one, List.getElem?_eq_getElem inside, Option.toList_some, decimal_append, same]
        ring
      rw [sum, ← ih (Nat.le_of_succ_le inside), wrappedLoop, charAt_succ split inside, read,
        if_neg (Int.not_lt.mpr (Int.natCast_nonneg value)), BitVec.ofInt_natCast, BitVec.ofNat_add, BitVec.ofNat_mul,
        pow_succ, BitVec.ofNat_mul]
      rfl

/-- A machine that wraps checks the number modulo 2^64. -/
theorem wrappedParse_signed (split : s.bytes = first :: rest) (sign : first = plus ∨ first = minus) (longer : rest ≠ [])
    (digits : rest.all isDigit = true) : wrappedParse s old = wrappedCheck (BitVec.ofNat 64 (decimal rest)) old := by
  have signed := charAt_sign split sign
  have next := charAt_one_ne_zero split longer
  have looped : wrappedLoop s (strlen s - 1) 0 1 = .ok (BitVec.ofNat 64 (decimal rest)) := by
    have all := wrappedLoop_eq split digits le_rfl 0 0
    rw [List.take_length, pow_zero, Nat.one_mul, Nat.zero_add] at all
    rwa [strlen, split, List.length_cons, Nat.add_sub_cancel]
  simp only [wrappedParse, signed, if_true]
  rw [if_neg fun unsigned => absurd unsigned.1 (by decide), if_neg fun alone => next alone.2, if_neg (by decide),
    looped]

theorem int64_eq_some {result value : Int} (inRange : int64 result = some value) :
    value = result ∧ -2 ^ 63 ≤ value ∧ value < 2 ^ 63 := by
  obtain ⟨bounds, same⟩ := Option.ite_none_right_eq_some.mp inRange
  cases same
  exact ⟨rfl, bounds⟩

/-- Where the loop has a defined result, a machine that wraps computes it. -/
theorem wrappedLoop_of_parseLoop {i : Nat} {rv multiplier : Int} {outcome : Except Int Int}
    (inRange : -2 ^ 63 ≤ rv ∧ rv < 2 ^ 63) (parsed : parseLoop s i rv multiplier = some outcome) :
    wrappedLoop s i (BitVec.ofInt 64 rv) (BitVec.ofInt 64 multiplier) = outcome.map (BitVec.ofInt 64) ∧
      ∀ sum, outcome = .ok sum → -2 ^ 63 ≤ sum ∧ sum < 2 ^ 63 := by
  induction i generalizing rv multiplier with
  | zero =>
      cases parsed
      refine ⟨rfl, ?_⟩
      rintro sum ⟨⟩
      exact inRange
  | succ i ih =>
      rw [parseLoop] at parsed
      rw [wrappedLoop]
      by_cases negative : whatDigit (s.charAt (i + 1)) < 0
      · rw [if_pos negative] at parsed
        cases parsed
        exact ⟨if_pos negative, nofun⟩
      · rw [if_neg negative] at parsed
        obtain ⟨product, multiplied, added⟩ := Option.bind_eq_some_iff.mp parsed
        obtain ⟨sum, summed, scaled⟩ := Option.bind_eq_some_iff.mp added
        obtain ⟨next, advanced, rest⟩ := Option.bind_eq_some_iff.mp scaled
        obtain ⟨rfl, -⟩ := int64_eq_some multiplied
        obtain ⟨rfl, sumInRange⟩ := int64_eq_some summed
        obtain ⟨rfl, -⟩ := int64_eq_some advanced
        rw [if_neg negative]
        have continued := ih sumInRange rest
        rwa [BitVec.ofInt_add, BitVec.ofInt_mul, BitVec.ofInt_mul] at continued

/-- Where the parser has a defined result, a machine that wraps computes it. -/
theorem wrappedParse_of_parseI32 {code : Int} {out : BitVec 32}
    (parsed : parseI32 (some s) (some old) = some (code, some out)) : wrappedParse s old = (code, out) := by
  simp only [parseI32] at parsed
  simp only [wrappedParse]
  generalize (if s.charAt 0 = minus ∨ s.charAt 0 = plus then 1 else 0) = index at parsed ⊢
  by_cases noDigit : index = 0 ∧ whatDigit (s.charAt 0) < 0
  · rw [if_pos noDigit] at parsed ⊢
    cases parsed
    rfl
  · rw [if_neg noDigit] at parsed ⊢
    by_cases alone : index = 1 ∧ s.charAt index = 0
    · rw [if_pos alone] at parsed ⊢
      cases parsed
      rfl
    · rw [if_neg alone] at parsed ⊢
      obtain ⟨outcome, looped, made⟩ := Option.map_eq_some_iff.mp parsed
      obtain ⟨wrapped, inRange⟩ := wrappedLoop_of_parseLoop (by decide) looped
      change wrappedLoop s _ 0 1 = _ at wrapped
      rw [wrapped]
      cases outcome with
      | error failure =>
          cases made
          rfl
      | ok rv =>
          have value : (BitVec.ofInt 64 rv).toInt = rv :=
            BitVec.toInt_ofInt_eq_self (by decide) (inRange rv rfl).1 (inRange rv rfl).2
          change wrappedCheck (BitVec.ofInt 64 rv) old = _
          rw [wrappedCheck, value]
          dsimp only at made
          split at made <;> cases made <;> simp [*]

theorem trailing_of_digits (digits : rest.all isDigit = true) : trailing rest = rest.length := by
  induction rest using List.reverseRecOn with
  | nil => rfl
  | append_singleton front last ih =>
      rw [List.all_append, Bool.and_eq_true, List.all_cons, List.all_nil, Bool.and_true] at digits
      rw [trailing_append_digit digits.2, ih digits.1, List.length_append, List.length_singleton]

/-- The range check of a machine that wraps is passed by the numbers that are in range modulo 2^64. -/
theorem wrappedCheck_rejects_iff (number : Nat) (old : BitVec 32) :
    (wrappedCheck (BitVec.ofNat 64 number) old).1 = -5 ↔
      ¬(int32Min ≤ (number : Int).bmod (2 ^ 64) ∧ (number : Int).bmod (2 ^ 64) ≤ int32Max) := by
  have value : (BitVec.ofNat 64 number).toInt = (number : Int).bmod (2 ^ 64) := BitVec.toInt_ofNat' ..
  rw [wrappedCheck, value]
  generalize (number : Int).bmod (2 ^ 64) = wrapped
  split
  · exact iff_of_true rfl (by omega)
  · exact iff_of_false (show (0 : Int) ≠ -5 by decide) (by omega)

/-- After a sign the accumulators stay in range for at most eighteen digits and for no more.
A machine that wraps agrees where they do, and accepts the numbers that are in range modulo 2^64. -/
theorem parseI32_overflow_iff (s : CString) (old : BitVec 32) (first : BitVec 8) (digits : List (BitVec 8))
    (split : s.bytes = first :: digits) (sign : first = plus ∨ first = minus) (decimals : digits.all isDigit = true) :
    (((parseI32 (some s) (some old)).isSome ∧
        (int32Max < decimal digits → parseI32 (some s) (some old) = some (-5, some old))) ↔ digits.length ≤ 18) ∧
      (∀ code out, parseI32 (some s) (some old) = some (code, some out) → wrappedParse s old = (code, out)) ∧
      ((int32Max < decimal digits → (wrappedParse s old).1 = -5) ↔
        ¬(int32Max < decimal digits ∧
          int32Min ≤ (decimal digits : Int).bmod (2 ^ 64) ∧ (decimal digits : Int).bmod (2 ^ 64) ≤ int32Max)) := by
  refine ⟨?_, fun code out => wrappedParse_of_parseI32, ?_⟩
  · by_cases longer : digits = []
    · subst longer
      rw [parseI32_alone split sign]
      simp [decimal, int32Max]
    · rw [parseI32_signed split sign longer, signedOutcome, trailing_of_digits decimals, if_pos decimals]
      by_cases few : digits.length ≤ 18
      · rw [if_pos few]
        exact iff_of_true ⟨rfl, fun large => by rw [if_pos large]⟩ few
      · rw [if_neg few]
        exact iff_of_false (fun defined => absurd defined.1 (by simp)) few
  · by_cases longer : digits = []
    · subst longer
      simp [decimal, int32Max]
    · rw [wrappedParse_signed split sign longer decimals, wrappedCheck_rejects_iff]
      exact not_and.symm

/-- The number five is in range. -/
theorem parseI32_plus_five :
    (⟨[plus, 0x35], by decide⟩ : CString).bytes = [plus, 0x35] ∧
      ((parseI32 (some ⟨[plus, 0x35], by decide⟩) (some 0)).isSome ∧
        (int32Max < decimal [0x35] →
          parseI32 (some ⟨[plus, 0x35], by decide⟩) (some 0) = some (-5, some 0)) ↔ [(0x35 : BitVec 8)].length ≤ 18) :=
  ⟨rfl, (parseI32_overflow_iff ⟨[plus, 0x35], by decide⟩ 0 plus [0x35] rfl (Or.inl rfl) (by decide)).1⟩

/-- The string +18446744073709551616 denotes 2^64, takes the multiplier out of its range and is accepted as zero. -/
theorem parseI32_accepts_wrapped :
    ∃ s : CString, ∃ digits, s.bytes = plus :: digits ∧ digits.all isDigit = true ∧ decimal digits = 2 ^ 64 ∧
      parseI32 (some s) (some 7) = none ∧ wrappedParse s 7 = (0, 0) :=
  ⟨⟨[0x2B, 0x31, 0x38, 0x34, 0x34, 0x36, 0x37, 0x34, 0x34, 0x30, 0x37, 0x33, 0x37, 0x30, 0x39, 0x35, 0x35, 0x31, 0x36,
    0x31, 0x36], by decide⟩, _, rfl, by decide, by decide, by decide, by decide⟩

end Ostep.IntegerParser
