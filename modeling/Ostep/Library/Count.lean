import Mathlib.Algebra.Order.BigOperators.Group.Finset
import Mathlib.Data.Fintype.BigOperators

namespace Ostep.Library.Count

variable {Thread Local : Type} [Fintype Thread]

/-- The weights of all threads together. -/
def total (weight : Local → Nat) (threads : Thread → Local) : Nat := ∑ thread, weight (threads thread)

/-- One thread weighs no more than all together. -/
theorem le_total (weight : Local → Nat) (threads : Thread → Local) (thread : Thread) :
    weight (threads thread) ≤ total weight threads :=
  Finset.single_le_sum (f := fun other => weight (threads other)) (fun _ _ => Nat.zero_le _)
    (Finset.mem_univ thread)

/-- Threads that gain weight gain it together. -/
theorem total_mono {weight : Local → Nat} {before after : Thread → Local}
    (gains : ∀ thread, weight (before thread) ≤ weight (after thread)) : total weight before ≤ total weight after :=
  Finset.sum_le_sum fun thread _ => gains thread

/-- Threads of the same weight in two measures have the same total. -/
theorem total_congr {first second : Local → Nat} {threads : Thread → Local}
    (same : ∀ thread, first (threads thread) = second (threads thread)) : total first threads = total second threads :=
  Finset.sum_congr rfl fun thread _ => same thread

/-- Bounded weights bound their total. -/
theorem total_le {weight : Local → Nat} {threads : Thread → Local} {bound : Nat}
    (bounded : ∀ thread, weight (threads thread) ≤ bound) : total weight threads ≤ Fintype.card Thread * bound :=
  Finset.sum_le_card_nsmul Finset.univ (fun thread => weight (threads thread)) bound fun thread _ => bounded thread

/-- Bounded weights that reach the greatest total all reach the bound. -/
theorem eq_of_total_eq {weight : Local → Nat} {threads : Thread → Local} {bound : Nat}
    (bounded : ∀ thread, weight (threads thread) ≤ bound) (full : total weight threads = Fintype.card Thread * bound)
    (thread : Thread) : weight (threads thread) = bound := by
  have greatest : total weight threads = ∑ _ : Thread, bound := full.trans (Finset.sum_const bound).symm
  exact (Finset.sum_eq_sum_iff_of_le fun other _ => bounded other).mp greatest thread (Finset.mem_univ thread)

/-- Equal weights add up to a product. -/
theorem total_const {weight : Local → Nat} {threads : Thread → Local} {value : Nat}
    (same : ∀ thread, weight (threads thread) = value) : total weight threads = Fintype.card Thread * value :=
  (Finset.sum_congr rfl fun thread _ => same thread).trans (Finset.sum_const value)

/-- Threads without weight add up to nothing. -/
theorem total_eq_zero {weight : Local → Nat} {threads : Thread → Local}
    (weightless : ∀ thread, weight (threads thread) = 0) : total weight threads = 0 :=
  Finset.sum_eq_zero fun thread _ => weightless thread

/-- A positive total comes from a thread with weight. -/
theorem exists_of_total_pos {weight : Local → Nat} {threads : Thread → Local} (positive : 0 < total weight threads) :
    ∃ thread, 0 < weight (threads thread) := by
  obtain ⟨thread, -, weighs⟩ := Finset.sum_pos_iff.mp positive
  exact ⟨thread, weighs⟩

/-- Two threads weigh no more than all together. -/
theorem add_le_total (weight : Local → Nat) (threads : Thread → Local) {first second : Thread}
    (different : first ≠ second) :
    weight (threads first) + weight (threads second) ≤ total weight threads := by
  classical
  have pair := Finset.sum_pair (f := fun thread => weight (threads thread)) different
  rw [← pair]
  exact Finset.sum_le_sum_of_subset (Finset.subset_univ {first, second})

/-- The holder of the only permit is alone. -/
theorem permit_alone {weight : Local → Nat} {threads : Thread → Local} {free : Nat} {thread other : Thread}
    (permit : free + total weight threads = 1) (different : other ≠ thread) (holder : weight (threads thread) = 1) :
    weight (threads other) = 0 := by
  have both := add_le_total weight threads different
  omega

/-- The only permit is not free while a thread holds it. -/
theorem permit_taken {weight : Local → Nat} {threads : Thread → Local} {free : Nat} {thread : Thread}
    (permit : free + total weight threads = 1) (holder : weight (threads thread) = 1) : free = 0 := by
  have one := le_total weight threads thread
  omega

variable [DecidableEq Thread]

/-- An update of one index exchanges its summand. -/
theorem sum_update {M : Type} [AddCommMonoid M] (weight : Local → M) (threads : Thread → Local) (thread : Thread)
    (new : Local) :
    ∑ other, weight (Function.update threads thread new other) + weight (threads thread) =
      ∑ other, weight (threads other) + weight new := by
  have after : ∑ other, weight (Function.update threads thread new other) =
      ∑ other, Function.update (fun other => weight (threads other)) thread (weight new) other :=
    congrArg (fun weights : Thread → M => ∑ other, weights other)
      (Function.comp_update weight threads thread new)
  have before := Finset.add_sum_erase Finset.univ (fun other => weight (threads other)) (Finset.mem_univ thread)
  rw [after, Finset.sum_update_of_mem (Finset.mem_univ thread), Finset.sdiff_singleton_eq_erase, ← before,
    add_comm (weight new), add_assoc, add_comm (weight new), ← add_assoc, add_comm (weight (threads thread))]

/-- An update of one thread exchanges its weight. -/
theorem total_update (weight : Local → Nat) (threads : Thread → Local) (thread : Thread) (new : Local) :
    total weight (Function.update threads thread new) + weight (threads thread) =
      total weight threads + weight new :=
  sum_update weight threads thread new

/-- A thread that loses weight lowers the total. -/
theorem total_update_lt {weight : Local → Nat} {threads : Thread → Local} {thread : Thread} {new : Local}
    (loses : weight new < weight (threads thread)) :
    total weight (Function.update threads thread new) < total weight threads := by
  have exchanged := total_update weight threads thread new
  omega

end Ostep.Library.Count
