import Mathlib.Algebra.Ring.Int.Defs
import Ostep.Proof.Transfer.Serial

namespace Ostep.Transfer

open Library.Balance

variable {counters : Finset Addr} {values : Addr → Value} {call : Call} {calls : List Call}

/-- A call reaches its locks exactly when it names two different counters and a positive amount. -/
theorem earlyReturn_eq_none :
    earlyReturn call = none ↔
      call.source ≠ 0 ∧ call.target ≠ 0 ∧ 0 < call.amount.toInt ∧ call.source ≠ call.target := by
  have positive : call.amount.sle 0 = true ↔ ¬0 < call.amount.toInt := by
    rw [BitVec.sle_iff_toInt_le, not_lt]
    rfl
  rw [earlyReturn]
  split_ifs with null small same
  · exact iff_of_false nofun fun valid => null.elim valid.1 valid.2.1
  · exact iff_of_false nofun fun valid => positive.mp small valid.2.2.1
  · exact iff_of_false nofun fun valid => valid.2.2.2 same
  · exact iff_of_true rfl ⟨fun zero => null (Or.inl zero), fun zero => null (Or.inr zero),
      not_not.mp (positive.not.mp small), same⟩

theorem slt_eq_false {left right : Value} : left.slt right = false ↔ right.toInt ≤ left.toInt := by
  rw [Bool.eq_false_iff, ne_eq, BitVec.slt_iff_toInt_lt, not_lt]

/-- A call can leave the range only at the target. -/
theorem inRange_iff :
    InRange values call ↔ (earlyReturn call = none → call.amount.toInt ≤ signed values call.source →
      signed values call.target + call.amount.toInt < 2 ^ 63) := by
  rw [InRange]
  refine forall_congr' fun valid => ?_
  rw [slt_eq_false]
  refine forall_congr' fun covered => ?_
  have positive := (earlyReturn_eq_none.mp valid).2.2.1
  have low := (values call.target).le_toInt
  have high := (values call.source).toInt_lt
  simp only [BitVec.ssubOverflow, BitVec.saddOverflow, Bool.or_eq_false_iff, decide_eq_false_iff_not, signed]
    at low high ⊢
  omega

/-- A covered call in range moves its amount in the unbounded integers. -/
theorem signed_transferValue (valid : earlyReturn call = none) (covered : call.amount.toInt ≤ signed values call.source)
    (inRange : InRange values call) :
    signed (transferValue values call).2 = move (signed values) call.source call.target call.amount.toInt := by
  have test := slt_eq_false.mpr covered
  obtain ⟨lower, upper⟩ := inRange valid test
  have debit := BitVec.toInt_sub_of_not_ssubOverflow (Bool.eq_false_iff.mp lower)
  have credit := BitVec.toInt_add_of_not_saddOverflow (Bool.eq_false_iff.mp upper)
  rw [transferValue_covered valid test]
  change BitVec.toInt ∘ Function.update _ _ _ = _
  rw [Function.comp_update, Function.comp_update, debit, credit]
  rfl

/-- A call in range changes nothing or moves a covered amount between two counters. -/
theorem transferValue_cases (inRange : InRange values call) :
    (transferValue values call).2 = values ∨
      (call.source ≠ call.target ∧ 0 ≤ call.amount.toInt ∧ call.amount.toInt ≤ signed values call.source ∧
        signed (transferValue values call).2 = move (signed values) call.source call.target call.amount.toInt) := by
  cases valid : earlyReturn call with
  | some code =>
      left
      rw [transferValue_early valid]
  | none =>
      cases test : (values call.source).slt call.amount with
      | true =>
          left
          rw [transferValue_short valid test]
      | false =>
          right
          obtain ⟨-, -, positive, different⟩ := earlyReturn_eq_none.mp valid
          have covered := slt_eq_false.mp test
          exact ⟨different, positive.le, covered, signed_transferValue valid covered inRange⟩

/-- No counter can come to 2^63 by moves from the others. -/
def Bounded (counters : Finset Addr) (values : Addr → Value) : Prop :=
  ∀ counter ∈ counters, peak counters (signed values) counter < 2 ^ 63

/-- What a sequence of calls keeps. -/
structure Kept (counters : Finset Addr) (before after : Addr → Value) : Prop where
  bounded : Bounded counters after
  total : ∑ counter ∈ counters, signed after counter = ∑ counter ∈ counters, signed before counter
  nonneg : ∀ counter ∈ counters, 0 ≤ signed before counter → 0 ≤ signed after counter

/-- Below the peaks every call is in range. -/
theorem Bounded.inRange (bounded : Bounded counters values) (among : call.Among counters) : InRange values call := by
  rw [inRange_iff]
  intro valid covered
  exact (add_le_peak (source_ne_target valid) among.1 covered).trans_lt (bounded _ among.2)

/-- One call keeps the peaks bounded, the total and the signs. -/
theorem Bounded.transfer (bounded : Bounded counters values) (among : call.Among counters) :
    Kept counters values (transferValue values call).2 := by
  rcases transferValue_cases (bounded.inRange among) with same | ⟨different, positive, covered, moved⟩
  · rw [same]
    exact ⟨bounded, rfl, fun _ _ => id⟩
  · refine ⟨fun counter member => ?_, ?_, fun counter _ solvent => ?_⟩
    · rw [moved]
      exact (peak_move_le different among.1 among.2 member positive covered).trans_lt (bounded counter member)
    · rw [moved]
      exact sum_move different among.1 among.2
    · rw [moved]
      exact move_nonneg different positive covered solvent

/-- A sequence of calls keeps the peaks bounded, the total and the signs. -/
theorem Bounded.run (bounded : Bounded counters values) (among : ∀ call ∈ calls, call.Among counters) :
    Kept counters values (runSerial values calls).2 := by
  induction calls generalizing values with
  | nil => exact ⟨bounded, rfl, fun _ _ => id⟩
  | cons call rest ih =>
      have one := bounded.transfer (among call List.mem_cons_self)
      have others := ih one.bounded fun other member => among other (List.mem_cons_of_mem _ member)
      exact ⟨others.bounded, others.total.trans one.total,
        fun counter member solvent => others.nonneg counter member (one.nonneg counter member solvent)⟩

theorem Bounded.conserves (bounded : Bounded counters values) (among : ∀ call ∈ calls, call.Among counters) :
    Conserves counters values calls := by
  refine ⟨?_, (bounded.run among).total, ?_⟩
  · rintro before call after rfl
    have earlier := bounded.run fun other member => among other (List.mem_append_left _ member)
    exact earlier.bounded.inRange (among call (List.mem_append_right _ List.mem_cons_self))
  · rintro before ⟨after, rfl⟩
    exact (bounded.run fun other member => among other (List.mem_append_left _ member)).nonneg

/-- Every account of a list gives its whole balance to one target. -/
def gather (values : Addr → Value) (target : Addr) (others : List Addr) : List Call :=
  others.map fun other => ⟨other, target, values other⟩

/-- Gathering in range adds the balances up. -/
theorem signed_gather {target : Addr} {others : List Addr} (nonNull : target ≠ 0) (nodup : others.Nodup)
    (able : ∀ other ∈ others, other ≠ 0 ∧ other ≠ target ∧ 0 < signed values other)
    (inRange : ∀ before call after, gather values target others = before ++ call :: after →
      InRange (runSerial values before).2 call) :
    signed (runSerial values (gather values target others)).2 target =
      signed values target + (others.map (signed values)).sum := by
  induction others generalizing values with
  | nil => exact (Int.add_zero _).symm
  | cons other rest ih =>
      obtain ⟨present, different, positive⟩ := able other List.mem_cons_self
      obtain ⟨fresh, nodup⟩ := List.nodup_cons.mp nodup
      have valid : earlyReturn ⟨other, target, values other⟩ = none :=
        earlyReturn_eq_none.mpr ⟨present, nonNull, positive, different⟩
      have moved := signed_transferValue valid le_rfl (inRange [] _ _ rfl)
      set next := (transferValue values ⟨other, target, values other⟩).2
      have elsewhere (account : Addr) (member : account ∈ rest) : signed next account = signed values account := by
        have notOther : account ≠ other := fun same => fresh (same ▸ member)
        rw [moved]
        exact move_other notOther (able account (List.mem_cons_of_mem _ member)).2.1
      have same : gather values target rest = gather next target rest :=
        List.map_congr_left fun account member => by
          rw [BitVec.eq_of_toInt_eq (elsewhere account member)]
      have later : signed (runSerial next (gather next target rest)).2 target =
          signed next target + (rest.map (signed next)).sum := by
        refine ih nodup (fun account member => ?_) fun before call after split => ?_
        · rw [elsewhere account member]
          exact able account (List.mem_cons_of_mem _ member)
        · refine inRange (⟨other, target, values other⟩ :: before) call after ?_
          rw [List.cons_append, ← split, ← same]
          rfl
      calc signed (runSerial values (gather values target (other :: rest))).2 target
          = signed (runSerial next (gather values target rest)).2 target := rfl
        _ = signed next target + (rest.map (signed next)).sum := by rw [same, later]
        _ = signed values target + signed values other + (rest.map (signed values)).sum := by
            rw [List.map_congr_left elsewhere, moved, move_target]
            rfl
        _ = signed values target + ((other :: rest).map (signed values)).sum := by
            rw [List.map_cons, List.sum_cons, Int.add_assoc]

/-- Gathering the positive balances brings a counter to its peak. -/
theorem bounded_of_conserves (nonNull : 0 ∉ counters)
    (conserves : ∀ calls, (∀ call ∈ calls, call.Among counters) → Conserves counters values calls) :
    Bounded counters values := by
  intro counter member
  set others := (counters.erase counter).filter fun other => 0 < signed values other
  have able (other : Addr) (chosen : other ∈ others.toList) :
      other ∈ counters ∧ other ≠ counter ∧ 0 < signed values other := by
    obtain ⟨inside, positive⟩ := Finset.mem_filter.mp (Finset.mem_toList.mp chosen)
    exact ⟨Finset.mem_of_mem_erase inside, Finset.ne_of_mem_erase inside, positive⟩
  have kept := conserves (gather values counter others.toList) fun call made => by
    obtain ⟨other, chosen, rfl⟩ := List.mem_map.mp made
    exact ⟨(able other chosen).1, member⟩
  have reached := signed_gather (ne_of_mem_of_not_mem member nonNull) others.nodup_toList
    (fun other chosen => ⟨ne_of_mem_of_not_mem (able other chosen).1 nonNull, (able other chosen).2⟩) kept.inRange
  have total : ∑ other ∈ counters.erase counter, max (signed values other) 0 =
      (others.toList.map (signed values)).sum := by
    rw [Finset.sum_map_toList, Finset.sum_filter]
    refine Finset.sum_congr rfl fun other _ => ?_
    split_ifs <;> omega
  rw [peak, total, ← reached]
  exact BitVec.toInt_lt

/-- Every sequence of transfers among the counters stays in range, keeps their total and makes none of them negative
exactly when no counter can reach 2^63 by taking all positive balances of the others. -/
theorem transfers_conserve_iff (counters : Finset Addr) (nonNull : 0 ∉ counters) (values : Addr → Value) :
    (∀ calls, (∀ call ∈ calls, call.Among counters) → Conserves counters values calls) ↔
      ∀ counter ∈ counters,
        signed values counter + ∑ other ∈ counters.erase counter, max (signed values other) 0 < 2 ^ 63 :=
  ⟨bounded_of_conserves nonNull, fun bounded _ => Bounded.conserves bounded⟩

/-- Two counters of ten exchange amounts, and a call that is not covered changes nothing. -/
theorem transfers_conserve_ten : Conserves {1, 2} (fun _ => 10) [⟨1, 2, 10⟩, ⟨1, 2, 1⟩, ⟨2, 2, 5⟩, ⟨2, 1, 20⟩] := by
  refine (transfers_conserve_iff {1, 2} (by decide) fun _ => 10).mpr (fun counter member => ?_) _ ?_
  · have balance (other : Addr) : signed (fun _ => 10) other = 10 := rfl
    simp only [balance, Finset.sum_const, Finset.card_erase_of_mem member]
    decide
  · unfold Call.Among
    decide

/-- A transfer of one to the greatest int64 value leaves the range, and the wrapped sum is negative. -/
theorem transfer_overflows :
    ¬Conserves {1, 2} (Function.update (fun _ => 1) 2 (BitVec.intMax 64)) [⟨1, 2, 1⟩] ∧
    (transferValue (Function.update (fun _ => 1) 2 (BitVec.intMax 64)) ⟨1, 2, 1⟩).1 = 0 ∧
    signed (transferValue (Function.update (fun _ => 1) 2 (BitVec.intMax 64)) ⟨1, 2, 1⟩).2 2 = -2 ^ 63 := by
  refine ⟨fun conserves => ?_, by decide, by decide⟩
  have solvent := conserves.nonneg [⟨1, 2, 1⟩] List.prefix_rfl 2 (by decide) (by decide)
  revert solvent
  decide

end Ostep.Transfer
