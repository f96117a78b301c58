import Mathlib.Data.Nat.ModEq
import Mathlib.Tactic.Common

namespace Ostep.Library.Circle

variable {α : Type} {size : Nat}

/-- The occupied slots of a circular array run from the start and wrap at its size. -/
def contents (size : Nat) (data : Nat → α) (start count : Nat) : List α :=
  (List.range count).map fun offset => data ((start + offset) % size)

@[simp] theorem contents_zero (data : Nat → α) (start : Nat) : contents size data start 0 = [] := rfl

@[simp] theorem contents_length (data : Nat → α) (start count : Nat) :
    (contents size data start count).length = count := by
  simp [contents]

/-- The slot after the occupied ones is free while there is room. -/
theorem slot_ne {start offset count : Nat} (inside : offset < count) (room : count < size) :
    (start + offset) % size ≠ (start + count) % size := by
  intro same
  have equal : offset ≡ count [MOD size] := Nat.ModEq.add_left_cancel' start same
  rw [Nat.ModEq, Nat.mod_eq_of_lt (lt_trans inside room), Nat.mod_eq_of_lt room] at equal
  omega

/-- A store after the occupied slots leaves them. -/
theorem contents_store {data : Nat → α} {start count : Nat} (room : count < size) (value : α) :
    contents size (Function.update data ((start + count) % size) value) start count =
      contents size data start count := by
  apply List.map_congr_left
  intro offset member
  exact Function.update_of_ne (slot_ne (List.mem_range.mp member) room) _ _

/-- One more slot counts behind the others. -/
theorem contents_succ (data : Nat → α) (start count : Nat) :
    contents size data start (count + 1) = contents size data start count ++ [data ((start + count) % size)] := by
  rw [contents, List.range_succ, List.map_append, List.map_cons, List.map_nil]
  rfl

/-- The next slot is none of the occupied ones. -/
theorem slot_notMem {start count : Nat} (room : count < size) :
    (start + count) % size ∉ contents size id start count := by
  intro member
  obtain ⟨offset, inside, same⟩ := List.mem_map.mp member
  exact slot_ne (List.mem_range.mp inside) room same

/-- A push stores after the occupied slots and counts one more. -/
theorem contents_push {data : Nat → α} {start count : Nat} (room : count < size) (value : α) :
    contents size (Function.update data ((start + count) % size) value) start (count + 1) =
      contents size data start count ++ [value] := by
  rw [contents_succ, Function.update_self, contents_store room]

/-- A pop takes the first slot and starts after it. -/
theorem contents_pop {data : Nat → α} {start : Nat} (inside : start < size) (count : Nat) :
    contents size data start (count + 1) = data start :: contents size data ((start + 1) % size) count := by
  rw [contents, List.range_succ_eq_map, List.map_cons, List.map_map, Nat.add_zero, Nat.mod_eq_of_lt inside]
  congr 1
  apply List.map_congr_left
  intro offset _
  rw [Function.comp_apply, Nat.mod_add_mod, Nat.succ_eq_add_one, Nat.add_assoc, Nat.add_comm 1 offset]

end Ostep.Library.Circle
