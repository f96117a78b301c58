import Mathlib.Tactic.Common

namespace Ostep.Library.Lines

variable {Character : Type}

/-- A text is complete when its last line has the mark. -/
def Complete (mark : Character) (text : List Character) : Prop := ∀ last ∈ text.getLast?, last = mark

/-- The last line of a longer text has the mark when the last line of its end has it. -/
theorem complete_append_iff {mark : Character} (front : List Character) {rest : List Character} (some : rest ≠ []) :
    Complete mark (front ++ rest) ↔ Complete mark rest := by
  rw [Complete, Complete, List.getLast?_append, List.getLast?_eq_some_getLast some, Option.some_or]

/-- More lists without empty ones have a longer text. -/
theorem length_flatten_drop_lt {lists : List (List Character)} (nonempty : ∀ list ∈ lists, list ≠ [])
    {first second : Nat} (before : first < second) (inside : first < lists.length) :
    (lists.drop second).flatten.length < (lists.drop first).flatten.length := by
  have head := List.length_pos_iff.mpr (nonempty lists[first] (List.getElem_mem inside))
  have rest : (lists.drop second).flatten.length ≤ (lists.drop (first + 1)).flatten.length := by
    rw [← List.take_append_drop (second - (first + 1)) (lists.drop (first + 1)), List.drop_drop,
      Nat.add_sub_cancel' before, List.flatten_append, List.length_append]
    exact Nat.le_add_left ..
  rw [List.drop_eq_getElem_cons inside, List.flatten_cons, List.length_append]
  omega

/-- The text from a line on determines the number of the line. -/
theorem flatten_drop_injective {lists : List (List Character)} (nonempty : ∀ list ∈ lists, list ≠ [])
    {first second : Nat} (inside : first ≤ lists.length) (within : second ≤ lists.length)
    (same : (lists.drop first).flatten = (lists.drop second).flatten) : first = second := by
  rcases Nat.lt_trichotomy first second with before | equal | after
  · exact absurd (congrArg List.length same) (Nat.ne_of_gt (length_flatten_drop_lt nonempty before (by omega)))
  · exact equal
  · exact absurd (congrArg List.length same) (Nat.ne_of_lt (length_flatten_drop_lt nonempty after (by omega)))

variable [DecidableEq Character]

instance (mark : Character) (text : List Character) : Decidable (Complete mark text) :=
  inferInstanceAs (Decidable (∀ last ∈ text.getLast?, last = mark))

/-- The lines of a text end with their mark. The last line may lack it. -/
def lines (mark : Character) : List Character → List (List Character)
  | [] => []
  | character :: rest =>
      if character = mark then [character] :: lines mark rest
      else match lines mark rest with
        | [] => [[character]]
        | first :: others => (character :: first) :: others

/-- The text of the last lines, or the whole text if it has no more lines. -/
def lastLines (mark : Character) (count : Nat) (text : List Character) : List Character :=
  ((lines mark text).drop ((lines mark text).length - count)).flatten

variable (mark : Character)

theorem lines_mark (rest : List Character) : lines mark (mark :: rest) = [mark] :: lines mark rest := if_pos rfl

/-- The lines together are the text. -/
theorem flatten_lines (text : List Character) : (lines mark text).flatten = text := by
  induction text with
  | nil => rfl
  | cons character rest ih =>
      rw [lines]
      split
      · rw [List.flatten_cons, ih, List.singleton_append]
      · split
        · rename_i none
          rw [none, List.flatten_nil] at ih
          rw [← ih]
          rfl
        · rename_i first others split
          rw [split, List.flatten_cons] at ih
          rw [List.flatten_cons, List.cons_append, ih]

/-- No line is empty. -/
theorem ne_nil_of_mem_lines {text line : List Character} (member : line ∈ lines mark text) : line ≠ [] := by
  induction text generalizing line with
  | nil => cases member
  | cons character rest ih =>
      rw [lines] at member
      split at member
      · rcases List.mem_cons.mp member with rfl | later
        · exact List.cons_ne_nil _ _
        · exact ih later
      · split at member
        · rw [List.mem_singleton.mp member]
          exact List.cons_ne_nil _ _
        · rename_i first others split
          rcases List.mem_cons.mp member with rfl | later
          · exact List.cons_ne_nil _ _
          · exact ih (split ▸ List.mem_cons_of_mem first later)

theorem lines_eq_nil_iff {text : List Character} : lines mark text = [] ↔ text = [] := by
  constructor
  · intro none
    rw [← flatten_lines mark text, none, List.flatten_nil]
  · rintro rfl
    rfl

/-- The text after a mark starts a new line. -/
theorem lines_append (front rest : List Character) :
    lines mark (front ++ mark :: rest) = lines mark (front ++ [mark]) ++ lines mark rest := by
  induction front with
  | nil => rw [List.nil_append, List.nil_append, lines_mark, lines_mark]; rfl
  | cons character front ih =>
      rw [List.cons_append, List.cons_append, lines, lines, ih]
      split
      · rfl
      · have some : lines mark (front ++ [mark]) ≠ [] := mt (lines_eq_nil_iff mark).mp (by simp)
        obtain ⟨first, others, split⟩ := List.exists_cons_of_ne_nil some
        rw [split]
        rfl

/-- There are as many lines as marks, and one more if the last line lacks the mark. -/
theorem length_lines (text : List Character) :
    (lines mark text).length = text.count mark + if Complete mark text then 0 else 1 := by
  induction text with
  | nil => rfl
  | cons character rest ih =>
      by_cases single : rest = []
      · subst single
        by_cases same : character = mark <;> simp [lines, Complete, same]
      · obtain ⟨first, others, split⟩ := List.exists_cons_of_ne_nil (mt (lines_eq_nil_iff mark).mp single)
        have ends : Complete mark (character :: rest) ↔ Complete mark rest := complete_append_iff [character] single
        simp only [ends]
        by_cases same : character = mark
        · subst same
          rw [lines_mark, List.length_cons, ih, List.count_cons_self, Nat.add_right_comm]
        · rw [lines, if_neg same, split, List.length_cons, List.count_cons_of_ne same, ← ih, split, List.length_cons]

theorem lastLines_suffix (count : Nat) (text : List Character) : lastLines mark count text <:+ text := by
  have split := List.take_append_drop ((lines mark text).length - count) (lines mark text)
  refine ⟨((lines mark text).take ((lines mark text).length - count)).flatten, ?_⟩
  rw [lastLines, ← List.flatten_append, split, flatten_lines]

/-- A text that is not empty has a last line. -/
theorem lastLines_ne_nil {count : Nat} {text : List Character} (positive : 0 < count) (some : text ≠ []) :
    lastLines mark count text ≠ [] := by
  have length := List.length_pos_iff.mpr (mt (lines_eq_nil_iff mark).mp some)
  have nonempty : ∀ line ∈ lines mark text, line ≠ [] := fun _ => ne_nil_of_mem_lines mark
  have longer := length_flatten_drop_lt nonempty (Nat.sub_lt length positive) (Nat.sub_lt length positive)
  exact List.length_pos_iff.mp (Nat.zero_lt_of_lt longer)

/-- The last lines are the whole text exactly when it has no more lines. -/
theorem lastLines_eq_self_iff (count : Nat) (text : List Character) :
    lastLines mark count text = text ↔ (lines mark text).length ≤ count := by
  have whole : ((lines mark text).drop 0).flatten = text := flatten_lines mark text
  rw [lastLines]
  constructor
  · intro same
    have start := flatten_drop_injective (fun _ => ne_nil_of_mem_lines mark) (Nat.sub_le _ count) (Nat.zero_le _)
      (same.trans whole.symm)
    omega
  · intro few
    rwa [Nat.sub_eq_zero_of_le few]

/-- The last lines are the text after a mark exactly when it has as many lines. -/
theorem lastLines_append_iff (count : Nat) (front rest : List Character) :
    lastLines mark count (front ++ mark :: rest) = rest ↔ (lines mark rest).length = count := by
  have some : 0 < (lines mark (front ++ [mark])).length :=
    List.length_pos_iff.mpr (mt (lines_eq_nil_iff mark).mp (by simp))
  have all := lines_append mark front rest
  have after : ((lines mark (front ++ mark :: rest)).drop (lines mark (front ++ [mark])).length).flatten = rest := by
    rw [all, List.drop_left, flatten_lines]
  have length : (lines mark (front ++ mark :: rest)).length =
      (lines mark (front ++ [mark])).length + (lines mark rest).length := by rw [all, List.length_append]
  rw [lastLines]
  constructor
  · intro same
    have start := flatten_drop_injective (fun _ => ne_nil_of_mem_lines mark) (Nat.sub_le _ count) (by omega)
      (same.trans after.symm)
    omega
  · rintro rfl
    rwa [length, Nat.add_sub_cancel]

end Ostep.Library.Lines
