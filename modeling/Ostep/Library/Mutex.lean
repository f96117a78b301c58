import Mathlib.Logic.Function.Basic
import Mathlib.Tactic.Common

namespace Ostep.Library.Mutex

variable {Lock Thread : Type}

/-- Each lock is owned by the thread that holds it, and by nobody else. -/
def Owns (owner : Lock → Option Thread) (held : Thread → List Lock) : Prop :=
  ∀ lock thread, owner lock = some thread ↔ lock ∈ held thread

section Update

variable [DecidableEq Thread] {owner : Lock → Option Thread} {held : Thread → List Lock}
  {lock : Lock} {thread : Thread} {now : List Lock}

/-- A thread that keeps its locks keeps the owners. -/
theorem Owns.keep (owns : Owns owner held) (kept : now = held thread) :
    Owns owner (Function.update held thread now) := by
  rw [kept, Function.update_eq_self]
  exact owns

variable [DecidableEq Lock]

/-- A thread takes a free lock. -/
theorem Owns.take (owns : Owns owner held) (free : owner lock = none)
    (gained : ∀ other, other ∈ now ↔ other = lock ∨ other ∈ held thread) :
    Owns (Function.update owner lock (some thread)) (Function.update held thread now) := by
  intro other reader
  have absent : lock ∉ held reader := fun member => by simp [(owns lock reader).mpr member] at free
  by_cases taken : other = lock
  · subst taken
    rw [Function.update_self]
    by_cases same : reader = thread
    · subst same
      simp [gained]
    · rw [Function.update_of_ne same, Option.some.injEq]
      exact iff_of_false (fun equal => same equal.symm) absent
  · rw [Function.update_of_ne taken, owns]
    by_cases same : reader = thread
    · subst same
      simp [gained, taken]
    · rw [Function.update_of_ne same]

/-- A thread releases a lock that it holds. -/
theorem Owns.release (owns : Owns owner held) (mine : lock ∈ held thread)
    (lost : ∀ other, other ∈ now ↔ other ≠ lock ∧ other ∈ held thread) :
    Owns (Function.update owner lock none) (Function.update held thread now) := by
  intro other reader
  have current := (owns lock thread).mpr mine
  by_cases released : other = lock
  · subst released
    rw [Function.update_self]
    by_cases same : reader = thread
    · subst same
      simp [lost]
    · rw [Function.update_of_ne same]
      refine iff_of_false (by simp) fun member => same ?_
      exact Option.some.inj (((owns other reader).mpr member).symm.trans current)
  · rw [Function.update_of_ne released, owns]
    by_cases same : reader = thread
    · subst same
      simp [lost, released]
    · rw [Function.update_of_ne same]

end Update

/-- No two threads own the same lock. -/
theorem Owns.unique {owner : Lock → Option Thread} {held : Thread → List Lock} (owns : Owns owner held)
    {lock : Lock} {first second : Thread} (left : lock ∈ held first) (right : lock ∈ held second) :
    first = second :=
  Option.some.inj (((owns lock first).mpr left).symm.trans ((owns lock second).mpr right))

/-- One mutex is owned exactly by the thread that is inside its critical section. -/
def Guards {Local : Type} (inside : Local → Prop) (owner : Option Thread) (threads : Thread → Local) : Prop :=
  ∀ thread, owner = some thread ↔ inside (threads thread)

section Guards

variable {Local : Type} {inside : Local → Prop} {owner : Option Thread} {threads : Thread → Local}
  {thread other : Thread} {now : Local}

/-- Nobody else is inside. -/
theorem Guards.alone (guards : Guards inside owner threads) (mine : inside (threads thread))
    (different : other ≠ thread) : ¬inside (threads other) := by
  intro theirs
  have first := (guards thread).mpr mine
  have second := (guards other).mpr theirs
  exact different (Option.some.inj (second.symm.trans first))

/-- Nobody is inside while the mutex is free. -/
theorem Guards.outside (guards : Guards inside none threads) (thread : Thread) : ¬inside (threads thread) :=
  fun mine => nomatch (guards thread).mpr mine

variable [DecidableEq Thread]

/-- A thread that stays inside or outside keeps the owner. -/
theorem Guards.keep (guards : Guards inside owner threads) (same : inside now ↔ inside (threads thread)) :
    Guards inside owner (Function.update threads thread now) := by
  intro reader
  by_cases mine : reader = thread
  · subst mine
    rw [Function.update_self, same]
    exact guards reader
  · rw [Function.update_of_ne mine]
    exact guards reader

/-- A thread enters while the mutex is free. -/
theorem Guards.take (guards : Guards inside none threads) (enters : inside now) :
    Guards inside (some thread) (Function.update threads thread now) := by
  intro reader
  by_cases mine : reader = thread
  · subst mine
    rw [Function.update_self]
    exact iff_of_true rfl enters
  · rw [Function.update_of_ne mine, Option.some.injEq]
    exact iff_of_false (fun same => mine same.symm) (guards.outside reader)

/-- The thread inside leaves. -/
theorem Guards.release (guards : Guards inside owner threads) (mine : inside (threads thread))
    (leaves : ¬inside now) : Guards inside none (Function.update threads thread now) := by
  intro reader
  by_cases same : reader = thread
  · subst same
    rw [Function.update_self]
    exact iff_of_false nofun leaves
  · rw [Function.update_of_ne same]
    exact iff_of_false nofun (guards.alone mine same)

end Guards

/-- Threads that wait only for locks of a higher rank than the locks they hold do not all wait for each other.
The chain of owners from any thread ends at a thread that waits for no lock or for a free one. -/
theorem exists_unblocked {owner : Lock → Option Thread} {wants : Thread → Option Lock} (rank : Lock → Nat)
    {bound : Nat} (bounded : ∀ lock, rank lock < bound)
    (ordered : ∀ lock thread wanted, owner lock = some thread → wants thread = some wanted →
      rank lock < rank wanted) (thread : Thread) :
    ∃ last, (last = thread ∨ ∃ lock, owner lock = some last) ∧
      ∀ lock, wants last = some lock → owner lock = none := by
  cases waits : wants thread with
  | none => exact ⟨thread, Or.inl rfl, fun lock wanted => by simp [waits] at wanted⟩
  | some lock =>
      induction distance : bound - rank lock using Nat.strongRecOn generalizing thread lock with
      | ind distance ih =>
          cases holder : owner lock with
          | none =>
              refine ⟨thread, Or.inl rfl, fun wanted same => ?_⟩
              rwa [← Option.some.inj (waits.symm.trans same)]
          | some other =>
              cases next : wants other with
              | none => exact ⟨other, Or.inr ⟨lock, holder⟩, fun wanted same => by simp [next] at same⟩
              | some wanted =>
                  have higher := ordered lock other wanted holder next
                  have below := bounded wanted
                  obtain ⟨last, reached, unblocked⟩ := ih (bound - rank wanted) (by omega) other wanted next rfl
                  refine ⟨last, Or.inr ?_, unblocked⟩
                  rcases reached with rfl | reached
                  · exact ⟨lock, holder⟩
                  · exact reached

end Ostep.Library.Mutex
