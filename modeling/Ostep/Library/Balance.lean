import Mathlib.Algebra.Order.BigOperators.Group.Finset

namespace Ostep.Library.Balance

variable {Account : Type} [DecidableEq Account]

/-- An amount moves from one account to another. -/
def move (balances : Account → Int) (source target : Account) (amount : Int) : Account → Int :=
  Function.update (Function.update balances source (balances source - amount)) target (balances target + amount)

/-- The greatest balance that moves from the other accounts can bring to an account. -/
def peak (accounts : Finset Account) (balances : Account → Int) (account : Account) : Int :=
  balances account + ∑ other ∈ accounts.erase account, max (balances other) 0

/-- What an account can contribute to the peak of another one or to its own. -/
def share (balances : Account → Int) (account other : Account) : Int :=
  if other = account then balances other else max (balances other) 0

variable {accounts : Finset Account} {balances : Account → Int} {source target account : Account} {amount : Int}

@[simp]
theorem move_target : move balances source target amount target = balances target + amount :=
  Function.update_self ..

theorem move_source (different : source ≠ target) :
    move balances source target amount source = balances source - amount := by
  rw [move, Function.update_of_ne different, Function.update_self]

theorem move_other (notSource : account ≠ source) (notTarget : account ≠ target) :
    move balances source target amount account = balances account := by
  rw [move, Function.update_of_ne notTarget, Function.update_of_ne notSource]

/-- The summands of two accounts stand before the others. -/
theorem sum_pair_first (weights : Account → Int) (different : source ≠ target) (left : source ∈ accounts)
    (right : target ∈ accounts) :
    ∑ account ∈ accounts, weights account =
      weights source + (weights target + ∑ account ∈ (accounts.erase source).erase target, weights account) := by
  rw [Finset.add_sum_erase _ _ (Finset.mem_erase.mpr ⟨different.symm, right⟩), Finset.add_sum_erase _ _ left]

/-- A change of two summands that does not raise them together does not raise the sum. -/
theorem sum_le_of_pair {before after : Account → Int} (different : source ≠ target) (left : source ∈ accounts)
    (right : target ∈ accounts) (pair : after source + after target ≤ before source + before target)
    (others : ∀ account, account ≠ source → account ≠ target → after account = before account) :
    ∑ account ∈ accounts, after account ≤ ∑ account ∈ accounts, before account := by
  have rest : ∑ account ∈ (accounts.erase source).erase target, after account =
      ∑ account ∈ (accounts.erase source).erase target, before account := by
    refine Finset.sum_congr rfl fun account member => ?_
    obtain ⟨notTarget, notSource, -⟩ := Finset.mem_erase.mp member |>.imp_right Finset.mem_erase.mp
    exact others account notSource notTarget
  rw [sum_pair_first after different left right, sum_pair_first before different left right, rest]
  omega

/-- A move keeps the total. -/
theorem sum_move (different : source ≠ target) (left : source ∈ accounts) (right : target ∈ accounts) :
    ∑ account ∈ accounts, move balances source target amount account = ∑ account ∈ accounts, balances account := by
  have pair : move balances source target amount source + move balances source target amount target =
      balances source + balances target := by
    rw [move_source different, move_target]
    omega
  apply le_antisymm
  · exact sum_le_of_pair different left right pair.le fun _ => move_other
  · exact sum_le_of_pair different left right pair.ge fun _ notSource notTarget => (move_other notSource notTarget).symm

theorem peak_eq_sum (member : account ∈ accounts) :
    peak accounts balances account = ∑ other ∈ accounts, share balances account other := by
  rw [peak, ← Finset.add_sum_erase _ _ member, share, if_pos rfl]
  congr 1
  refine Finset.sum_congr rfl fun other inside => ?_
  rw [share, if_neg (Finset.ne_of_mem_erase inside)]

/-- No account reaches more after a covered move than before it. -/
theorem peak_move_le (different : source ≠ target) (left : source ∈ accounts) (right : target ∈ accounts)
    (member : account ∈ accounts) (positive : 0 ≤ amount) (covered : amount ≤ balances source) :
    peak accounts (move balances source target amount) account ≤ peak accounts balances account := by
  rw [peak_eq_sum member, peak_eq_sum member]
  apply sum_le_of_pair different left right
  · rw [share, share, share, share, move_source different, move_target]
    split_ifs <;> omega
  · intro other notSource notTarget
    rw [share, share, move_other notSource notTarget]

/-- A covered move brings no more than the peak. -/
theorem add_le_peak (different : source ≠ target) (left : source ∈ accounts) (covered : amount ≤ balances source) :
    balances target + amount ≤ peak accounts balances target := by
  have one := Finset.single_le_sum (f := fun other => max (balances other) 0)
    (fun other _ => le_max_right (balances other) 0) (Finset.mem_erase.mpr ⟨different, left⟩)
  have most : amount ≤ max (balances source) 0 := covered.trans (le_max_left _ _)
  rw [peak]
  omega

/-- A covered move makes no account negative. -/
theorem move_nonneg (different : source ≠ target) (positive : 0 ≤ amount) (covered : amount ≤ balances source)
    (solvent : 0 ≤ balances account) : 0 ≤ move balances source target amount account := by
  by_cases isTarget : account = target
  · rw [isTarget] at solvent ⊢
    rw [move_target]
    omega
  by_cases isSource : account = source
  · rw [isSource, move_source different]
    omega
  · rwa [move_other isSource isTarget]

end Ostep.Library.Balance
