/-
This file models the byte copies and fills that work on words of four bytes.
A word access loads or stores its four bytes at once, whatever its alignment.
-/

import Ostep.Library.Memory

namespace Ostep.MemBasics

open Library Library.Memory

abbrev Memory := Bytes 64

abbrev Addr := BitVec 64

abbrev Size := BitVec 64

/-- The assignment `*dst = *src` through pointers to units of the given size. -/
def copyUnit (size : Nat) (memory : Memory) (dst src : Addr) : Memory := store memory dst size (load memory src size)

/-- A copy loop that moves both pointers up. It returns the memory and the two pointers. -/
def copyUp (size : Nat) : Nat → Memory → Addr → Addr → Memory × Addr × Addr
  | 0, memory, dst, src => (memory, dst, src)
  | count + 1, memory, dst, src =>
      copyUp size count (copyUnit size memory dst src) (dst + BitVec.ofNat 64 size) (src + BitVec.ofNat 64 size)

/-- The copy loop of `my_memmove` that moves both pointers down. -/
def copyDown : Nat → Memory → Addr → Addr → Memory
  | 0, memory, _, _ => memory
  | count + 1, memory, dst, src => copyDown count (copyUnit 1 memory dst src) (dst - 1) (src - 1)

def myMemcpy (memory : Memory) (dst src : Addr) (n : Size) : Memory × Addr :=
  if dst = 0 ∨ src = 0 ∨ n = 0 then (memory, dst)
  else
    let (memory, dst8, src8) := copyUp 4 (n >>> 2).toNat memory dst src
    ((copyUp 1 (n &&& 0x3).toNat memory dst8 src8).1, dst)

def myMemmove (memory : Memory) (dst src : Addr) (n : Size) : Memory × Addr :=
  if dst = 0 ∨ src = 0 ∨ n = 0 ∨ src = dst then (memory, dst)
  else
    let dstEnd := dst + (n - 1)
    let srcEnd := src + (n - 1)
    if dst > src ∧ dst ≤ srcEnd then (copyDown n.toNat memory dstEnd srcEnd, dst)
    else myMemcpy memory dst src n

/-- A fill loop stores the same unit and moves its pointer up. -/
def fillUp (size value : Nat) : Nat → Memory → Addr → Memory × Addr
  | 0, memory, dst => (memory, dst)
  | count + 1, memory, dst => fillUp size value count (store memory dst size value) (dst + BitVec.ofNat 64 size)

/-- The word of `my_memset` joins shifted copies of the whole value. -/
def fillWord (value : BitVec 32) : BitVec 32 := (value <<< 24) ||| (value <<< 16) ||| (value <<< 8) ||| value

def myMemset (memory : Memory) (dst : Addr) (value : BitVec 32) (n : Size) : Memory × Addr :=
  if dst = 0 ∨ (255 : BitVec 32).slt value ∨ n = 0 then (memory, dst)
  else
    let (memory, dst8) := fillUp 4 (fillWord value).toNat (n >>> 2).toNat memory dst
    ((fillUp 1 (value.setWidth 8).toNat (n &&& 0x3).toNat memory dst8).1, dst)

/-- Every byte of the value has only bits of its low byte. -/
def Repeats (value : BitVec 32) : Prop :=
  ∀ index < 4, value.extractLsb' (8 * index) 8 ||| value.setWidth 8 = value.setWidth 8

instance (value : BitVec 32) : Decidable (Repeats value) := inferInstanceAs (Decidable (∀ index < 4, _))

end Ostep.MemBasics
