/-
This file models the parser of signed 32-bit decimal integers and the decimal strings that it is for.
-/

import Mathlib.Data.Nat.Digits.Defs

namespace Ostep.IntegerParser

/-- The bytes before the terminator of a string are not zero. -/
structure CString where
  bytes : List (BitVec 8)
  nonzero : ∀ byte ∈ bytes, byte ≠ 0

/-- The byte after the last one is the terminator. -/
def CString.charAt (s : CString) (index : Nat) : BitVec 8 := s.bytes.getD index 0

def strlen (s : CString) : Nat := s.bytes.length

def plus : BitVec 8 := 0x2B

def minus : BitVec 8 := 0x2D

def whatDigit (s : BitVec 8) : Int :=
  match s with
  | 0x30#8 => 0
  | 0x31#8 => 1
  | 0x32#8 => 2
  | 0x33#8 => 3
  | 0x34#8 => 4
  | 0x35#8 => 5
  | 0x36#8 => 6
  | 0x37#8 => 7
  | 0x38#8 => 8
  | 0x39#8 => 9
  | _ => -1

/-- A result of 64-bit arithmetic outside its range is undefined. -/
def int64 (result : Int) : Option Int := if -2 ^ 63 ≤ result ∧ result < 2 ^ 63 then some result else none

/-- The loop reads the characters from the given index down to index one.
It ends with the sum of the digits or with the code of an error. -/
def parseLoop (s : CString) : Nat → Int → Int → Option (Except Int Int)
  | 0, rv, _ => some (.ok rv)
  | i + 1, rv, multiplier =>
      let curr := whatDigit (s.charAt (i + 1))
      if curr < 0 then some (.error (-4))
      else do
        let product ← int64 (curr * multiplier)
        let rv ← int64 (rv + product)
        let multiplier ← int64 (multiplier * 10)
        parseLoop s i rv multiplier

def int32Max : Int := 2147483647

def int32Min : Int := -2147483648

/-- The parser returns its code and the contents of `out_value`, where no contents stand for a null pointer.
The source also sets a flag for the minus sign, which it never reads. -/
def parseI32 (s : Option CString) (outValue : Option (BitVec 32)) : Option (Int × Option (BitVec 32)) :=
  match outValue, s with
  | none, _ => some (-1, none)
  | some old, none => some (-2, some old)
  | some old, some s =>
      let index := if s.charAt 0 = minus ∨ s.charAt 0 = plus then 1 else 0
      if index = 0 ∧ whatDigit (s.charAt 0) < 0 then some (-3, some old)
      else if index = 1 ∧ s.charAt index = 0 then some (-3, some old)
      else
        let i := if index = 0 then strlen s else strlen s - 1
        (parseLoop s i 0 1).map fun
          | .error code => (code, some old)
          | .ok rv =>
              if rv > int32Max ∨ rv < int32Min then (-5, some old) else (0, some (BitVec.ofInt 32 rv))

/-- The characters from zero to nine. -/
def isDigit (character : BitVec 8) : Bool := 0x30 ≤ character ∧ character ≤ 0x39

/-- The number that decimal digits denote, the most significant digit first. -/
def decimal (digits : List (BitVec 8)) : Nat :=
  Nat.ofDigits 10 (digits.reverse.map fun character => character.toNat - 0x30)

/-- One or more digits denote a number. -/
def unsigned? (characters : List (BitVec 8)) : Option Nat :=
  if characters ≠ [] ∧ characters.all isDigit then some (decimal characters) else none

/-- The number that a string with an optional sign denotes. -/
def denoted? : List (BitVec 8) → Option Int
  | [] => none
  | first :: rest =>
      if first = plus then (unsigned? rest).map fun value : Nat => (value : Int)
      else if first = minus then (unsigned? rest).map fun value : Nat => -(value : Int)
      else (unsigned? (first :: rest)).map fun value : Nat => (value : Int)

/-- What the parser owes for a string. A code other than zero leaves the output as it was. -/
def Required (characters : List (BitVec 8)) (old : BitVec 32) (code : Int) (out : BitVec 32) : Prop :=
  (code ≠ 0 → out = old) ∧
  match denoted? characters with
  | some value =>
      if int32Min ≤ value ∧ value ≤ int32Max then code = 0 ∧ out = BitVec.ofInt 32 value else code = -5
  | none =>
      if characters = [] then code = -2
      else if characters = [plus] ∨ characters = [minus] then code = -3
      else code < 0

/-- The parser returns a code and contents as required. -/
def Meets (s : CString) (old : BitVec 32) : Prop :=
  ∃ code out, parseI32 (some s) (some old) = some (code, some out) ∧ Required s.bytes old code out

/-- The number of digits at the end of a string. -/
def trailing (characters : List (BitVec 8)) : Nat := (characters.reverse.takeWhile isDigit).length

/-- The strings that the parser treats as required. A string with a sign has at most eighteen digits at its end,
and the number after a minus sign is zero or out of range. A string without a sign is not empty and no number. -/
def Handled : List (BitVec 8) → Prop
  | [] => False
  | first :: rest =>
      if first = plus ∨ first = minus then
        trailing rest ≤ 18 ∧ (first = minus → rest.all isDigit → decimal rest = 0 ∨ 2 ^ 31 < decimal rest)
      else ¬(first :: rest).all isDigit

instance : (characters : List (BitVec 8)) → Decidable (Handled characters)
  | [] => inferInstanceAs (Decidable False)
  | _ :: _ => inferInstanceAs (Decidable (ite ..))

/-- The loop on a machine whose 64-bit arithmetic wraps. -/
def wrappedLoop (s : CString) : Nat → BitVec 64 → BitVec 64 → Except Int (BitVec 64)
  | 0, rv, _ => .ok rv
  | i + 1, rv, multiplier =>
      let curr := whatDigit (s.charAt (i + 1))
      if curr < 0 then .error (-4)
      else wrappedLoop s i (rv + BitVec.ofInt 64 curr * multiplier) (multiplier * 10)

/-- The range check on the sum of a machine whose arithmetic wraps. -/
def wrappedCheck (rv : BitVec 64) (old : BitVec 32) : Int × BitVec 32 :=
  if rv.toInt > int32Max ∨ rv.toInt < int32Min then (-5, old) else (0, BitVec.ofInt 32 rv.toInt)

/-- The parser on such a machine, for pointers that are not null. -/
def wrappedParse (s : CString) (old : BitVec 32) : Int × BitVec 32 :=
  let index := if s.charAt 0 = minus ∨ s.charAt 0 = plus then 1 else 0
  if index = 0 ∧ whatDigit (s.charAt 0) < 0 then (-3, old)
  else if index = 1 ∧ s.charAt index = 0 then (-3, old)
  else
    match wrappedLoop s (if index = 0 then strlen s else strlen s - 1) 0 1 with
    | .error code => (code, old)
    | .ok rv => wrappedCheck rv old

end Ostep.IntegerParser
