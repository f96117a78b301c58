import Mathlib.Tactic.Common

namespace Ostep.Library.History

variable {Event : Type}

/-- Every event of a history meets the condition on the events before it. -/
def Always (good : List Event → Event → Prop) (history : List Event) : Prop :=
  ∀ before event after, history = before ++ event :: after → good before event

variable {good : List Event → Event → Prop} {history : List Event}

/-- Nothing has happened yet. -/
theorem always_nil : Always good [] := by
  intro before event after split
  simp at split

/-- A longer history meets the condition when its beginning does and its last event meets it on the rest. -/
theorem always_append_iff {event : Event} :
    Always good (history ++ [event]) ↔ Always good history ∧ good history event := by
  constructor
  · intro always
    refine ⟨fun before other after split => ?_, always history event [] rfl⟩
    exact always before other (after ++ [event]) (by rw [split, List.append_assoc, List.cons_append])
  · rintro ⟨earlier, last⟩ before other after split
    rcases List.eq_nil_or_concat after with rfl | ⟨rest, final, rfl⟩
    · obtain ⟨rfl, same⟩ := List.append_inj' split rfl
      cases same
      exact last
    · rw [List.concat_eq_append, ← List.cons_append, ← List.append_assoc] at split
      exact earlier before other rest (List.append_inj' split rfl).1

/-- The next event meets the condition on the whole history. -/
theorem Always.append (always : Always good history) {event : Event} (next : good history event) :
    Always good (history ++ [event]) := always_append_iff.mpr ⟨always, next⟩

/-- The first of the events with a property. -/
theorem exists_first (chosen : Event → Prop) (some : ∃ event ∈ history, chosen event) :
    ∃ before event after, history = before ++ event :: after ∧ chosen event ∧ ∀ earlier ∈ before, ¬chosen earlier := by
  induction history with
  | nil =>
      obtain ⟨event, member, -⟩ := some
      cases member
  | cons head rest ih =>
      by_cases first : chosen head
      · exact ⟨[], head, rest, rfl, first, nofun⟩
      · obtain ⟨event, member, found⟩ := some
        have later : event ∈ rest := by
          rcases List.mem_cons.mp member with rfl | later
          · exact absurd found first
          · exact later
        obtain ⟨before, event, after, rfl, found, none⟩ := ih ⟨event, later, found⟩
        exact ⟨head :: before, event, after, rfl, found, List.forall_mem_cons.mpr ⟨first, none⟩⟩

end Ostep.Library.History
