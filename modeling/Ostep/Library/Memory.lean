import Mathlib.Tactic.Common
import Mathlib.Tactic.Ring

namespace Ostep.Library.Memory

/-- A byte memory gives a byte at every address. -/
abbrev Bytes (width : Nat) := BitVec width → BitVec 8

variable {width : Nat}

/-- The bytes of a number are little-endian. -/
def byte (value index : Nat) : BitVec 8 := BitVec.ofNat 8 (value / 256 ^ index)

/-- A load reads consecutive bytes as one number. -/
def load (memory : Bytes width) (address : BitVec width) : Nat → Nat
  | 0 => 0
  | count + 1 => (memory address).toNat + 256 * load memory (address + BitVec.ofNat width 1) count

/-- A store replaces consecutive bytes by the bytes of a number. -/
def store (memory : Bytes width) (address : BitVec width) (count value : Nat) : Bytes width := fun location =>
  if (location - address).toNat < count then byte value (location - address).toNat else memory location

/-- The next address has the next offset. -/
theorem next_offset (address : BitVec width) (offset : Nat) :
    address + BitVec.ofNat width 1 + BitVec.ofNat width offset = address + BitVec.ofNat width (offset + 1) := by
  rw [BitVec.add_assoc, ← BitVec.ofNat_add, Nat.add_comm 1 offset]

/-- A load depends only on the bytes in its range. -/
theorem load_congr {memory other : Bytes width} {address : BitVec width} {count : Nat}
    (same : ∀ offset < count, other (address + BitVec.ofNat width offset) =
      memory (address + BitVec.ofNat width offset)) :
    load other address count = load memory address count := by
  induction count generalizing address with
  | zero => rfl
  | succ count ih =>
      have first : other address = memory address := by simpa using same 0 (Nat.succ_pos count)
      have rest : load other (address + BitVec.ofNat width 1) count =
          load memory (address + BitVec.ofNat width 1) count := by
        apply ih
        intro offset inside
        rw [next_offset]
        exact same (offset + 1) (Nat.succ_lt_succ inside)
      rw [load, load, first, rest]

/-- The later bytes of a number are the bytes of its quotient. -/
theorem byte_succ (value index : Nat) : byte value (index + 1) = byte (value / 256) index := by
  rw [byte, byte, Nat.div_div_eq_div_mul, pow_succ']

/-- A range that holds the bytes of a number loads that number. -/
theorem load_bytes {memory : Bytes width} {address : BitVec width} {count value : Nat}
    (held : ∀ offset < count, memory (address + BitVec.ofNat width offset) = byte value offset) :
    load memory address count = value % 256 ^ count := by
  induction count generalizing address value with
  | zero => simp [load, Nat.mod_one]
  | succ count ih =>
      have first : memory address = byte value 0 := by simpa using held 0 (Nat.succ_pos count)
      have rest : load memory (address + BitVec.ofNat width 1) count = value / 256 % 256 ^ count := by
        apply ih
        intro offset inside
        rw [next_offset, ← byte_succ]
        exact held (offset + 1) (Nat.succ_lt_succ inside)
      rw [load, first, rest, pow_succ', Nat.mod_mul]
      simp [byte]

/-- A load from the stored range returns the stored number. -/
theorem load_store (memory : Bytes width) (address : BitVec width) {count : Nat} (value : Nat)
    (fits : count ≤ 2 ^ width) : load (store memory address count value) address count = value % 256 ^ count := by
  apply load_bytes
  intro offset inside
  have back : (address + BitVec.ofNat width offset - address).toNat = offset := by
    rw [BitVec.add_comm, BitVec.add_sub_cancel, BitVec.toNat_ofNat,
      Nat.mod_eq_of_lt (Nat.lt_of_lt_of_le inside fits)]
  simp only [store, back, if_pos inside]

/-- A store changes no byte outside its range. -/
theorem store_outside (memory : Bytes width) {address location : BitVec width} {count : Nat} (value : Nat)
    (outside : count ≤ (location - address).toNat) : store memory address count value location = memory location :=
  if_neg (Nat.not_lt.mpr outside)

section Linked

variable {Node : Type}

/-- A finite chain follows the links from its head and ends at the last link. -/
def Linked (next : Node → Node) (last : Node) : Node → List Node → Prop
  | head, [] => head = last
  | head, node :: rest => head = node ∧ Linked next last (next node) rest

/-- A chain depends only on the links of its nodes. -/
theorem Linked.congr {next other : Node → Node} {last head : Node} {chain : List Node}
    (linked : Linked next last head chain) (same : ∀ node ∈ chain, other node = next node) :
    Linked other last head chain := by
  induction chain generalizing head with
  | nil => exact linked
  | cons node rest ih =>
      refine ⟨linked.1, ?_⟩
      rw [same node List.mem_cons_self]
      exact ih linked.2 fun later member => same later (List.mem_cons_of_mem node member)

/-- A node that links to the head of a chain extends it. -/
theorem Linked.push {next other : Node → Node} {last head node : Node} {chain : List Node}
    (linked : Linked next last head chain) (stored : other node = head)
    (same : ∀ later ∈ chain, other later = next later) : Linked other last node (node :: chain) :=
  ⟨rfl, stored ▸ linked.congr same⟩

/-- Numbered nodes that each link to the next one form a chain. -/
theorem linked_range (next : Node → Node) (node : Nat → Node) (start count : Nat)
    (links : ∀ index, start ≤ index → index < start + count → next (node index) = node (index + 1)) :
    Linked next (node (start + count)) (node start) ((List.range' start count).map node) := by
  induction count generalizing start with
  | zero => rfl
  | succ count ih =>
      rw [List.range'_succ, List.map_cons, Linked, links start (le_refl start) (by omega)]
      refine ⟨rfl, ?_⟩
      rw [show start + (count + 1) = start + 1 + count by omega]
      exact ih (start + 1) fun index low high => links index (by omega) (by omega)

end Linked
end Ostep.Library.Memory
