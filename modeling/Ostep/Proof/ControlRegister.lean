import Mathlib.Algebra.Group.Nat.Defs
import Ostep.Construction.ControlRegister

namespace Ostep.ControlRegister

open Library BitField

variable {oversized : Word → Word → Word} {reg final : Word} {call : Call} {calls : List Call} {codes : List Int}
  {bit : Nat}

/-- A small value survives the truncation to its field. -/
theorem setWidth_setWidth_of_lt {count : Nat} {value : Word} (fits : value.toNat < 2 ^ count) :
    (value.setWidth count).setWidth 32 = value := by
  apply BitVec.eq_of_toNat_eq
  rw [BitVec.toNat_setWidth, BitVec.toNat_setWidth, Nat.mod_eq_of_lt fits, Nat.mod_eq_of_lt value.isLt]

/-- A setter leaves the register alone when it rejects its value. -/
theorem setField_rejected {limit mask amount value : Word} (large : ¬value ≤ limit) :
    setField oversized limit mask amount reg value = (-1, reg) := if_pos (BitVec.not_le.mp large)

theorem ctrlSetMode_accepted {mode : Word} (small : mode ≤ 7) :
    ctrlSetMode oversized reg mode = (0, write 4 reg (mode.setWidth 3)) := by
  have fits : mode.toNat < 2 ^ 3 := Nat.lt_succ_of_le (BitVec.le_def.mp small)
  have mask : ctrlModeMask = BitField.mask 32 4 3 := by decide
  have shifted : shiftLeft oversized mode ctrlModeShift = mode <<< 4 := if_pos (by decide)
  rw [ctrlSetMode, setField, if_neg (BitVec.not_lt.mpr small), mask, shifted, write, setWidth_setWidth_of_lt fits]

/-- An accepted timeout leaves what the machine makes of the shift by the mask. -/
theorem ctrlSetTimeout_accepted {timeout : Word} (small : timeout ≤ 255) :
    ctrlSetTimeout oversized reg timeout =
      (0, (reg &&& ~~~BitField.mask 32 8 8) ||| oversized timeout ctrlTimeoutMask) := by
  have mask : ctrlTimeoutMask = BitField.mask 32 8 8 := by decide
  have shifted : shiftLeft oversized timeout ctrlTimeoutMask = oversized timeout ctrlTimeoutMask := if_neg (by decide)
  rw [ctrlSetTimeout, setField, if_neg (BitVec.not_lt.mpr small), shifted]
  nth_rewrite 1 [mask]
  rfl

theorem modeField_ctrlSetMode {mode : Word} (small : mode ≤ 7) :
    modeField (ctrlSetMode oversized reg mode).2 = mode := by
  have fits : mode.toNat < 2 ^ 3 := Nat.lt_succ_of_le (BitVec.le_def.mp small)
  rw [ctrlSetMode_accepted small, modeField, read_write (by decide), setWidth_setWidth_of_lt fits]

theorem lenses_mode {mode : Word} (small : mode ≤ 7) :
    Lenses reg [.setMode mode] (ctrlSetMode oversized reg mode).2 [0] := by
  have accepted : (Call.setMode mode).mode? = some mode := if_pos small
  refine ⟨?_, ?_, fun bit notMode _ => ?_, by simp [Call.code, accepted]⟩
  · rw [modeField_ctrlSetMode small]
    simp [accepted]
  · rw [ctrlSetMode_accepted small]
    exact congrArg (BitVec.setWidth 32) (read_write_other (by decide) (by decide))
  · rw [ctrlSetMode_accepted small]
    exact getLsbD_write_other notMode

theorem lenses_rejected (noMode : call.mode? = none) (noTimeout : call.timeout? = none) :
    Lenses reg [call] reg [-1] where
  mode := by simp [noMode]
  timeout := by simp [noTimeout]
  others _ _ _ := rfl
  codes := by simp [Call.code, noMode, noTimeout]

/-- One call without an accepted timeout sets its own field and keeps every other bit. -/
theorem perform_lenses (rejected : call.timeout? = none) :
    Lenses reg [call] (call.perform oversized reg).2 [(call.perform oversized reg).1] := by
  cases call with
  | setMode mode =>
      by_cases small : mode ≤ 7
      · have returned : (ctrlSetMode oversized reg mode).1 = 0 := by rw [ctrlSetMode_accepted small]
        rw [Call.perform, returned]
        exact lenses_mode small
      · rw [Call.perform, ctrlSetMode, setField_rejected small]
        exact lenses_rejected (if_neg small) rfl
  | setTimeout timeout =>
      have large : ¬timeout ≤ 255 := fun small => Option.some_ne_none timeout ((if_pos small).symm.trans rejected)
      rw [Call.perform, ctrlSetTimeout, setField_rejected large]
      exact lenses_rejected rfl rejected

/-- Later calls go on with the fields that earlier calls left. -/
theorem Lenses.append {middle : Word} {first second : List Call} {early late : List Int}
    (began : Lenses reg first middle early) (continued : Lenses middle second final late) :
    Lenses reg (first ++ second) final (early ++ late) where
  mode := by rw [List.filterMap_append, List.getLast?_append, Option.getD_or, ← began.mode, continued.mode]
  timeout := by rw [List.filterMap_append, List.getLast?_append, Option.getD_or, ← began.timeout, continued.timeout]
  others bit notMode notTimeout :=
    (continued.others bit notMode notTimeout).trans (began.others bit notMode notTimeout)
  codes := by rw [began.codes, continued.codes, List.map_append]

/-- A sequence of calls without an accepted timeout acts on the fields as lenses. -/
theorem run_lensed (rejected : ∀ call ∈ calls, call.timeout? = none) : Lensed oversized reg calls := by
  induction calls generalizing reg with
  | nil => exact ⟨reg, [], rfl, rfl, rfl, fun _ _ _ => rfl, rfl⟩
  | cons call rest ih =>
      obtain ⟨first, later⟩ := List.forall_mem_cons.mp rejected
      obtain ⟨final, codes, ran, others⟩ := @ih (call.perform oversized reg).2 later
      exact ⟨final, _, (machine oversized).run_cons_eq_some.mpr ⟨_, _, codes, rfl, ran, rfl⟩,
        (perform_lenses first).append others⟩

/-- A bit of a field is a bit of the register. -/
theorem getLsbD_eq_of_field (low count : Nat) {left right : Word} (narrow : count ≤ 32)
    (same : (read low count left).setWidth 32 = (read low count right).setWidth 32)
    (field : low ≤ bit ∧ bit < low + count) : left.getLsbD bit = right.getLsbD bit := by
  have bits := congrArg (fun word : Word => word.getLsbD (bit - low)) same
  have inside : bit - low < 32 := by omega
  have counted : bit - low < count := by omega
  simpa [BitField.read, inside, counted, Nat.add_sub_cancel' field.1] using bits

/-- The law leaves one register only. -/
theorem Lenses.unique {other : Word} {answers : List Int} (first : Lenses reg calls final codes)
    (second : Lenses reg calls other answers) : final = other := by
  apply BitVec.eq_of_getLsbD_eq
  intro bit _
  by_cases inMode : 4 ≤ bit ∧ bit < 7
  · exact getLsbD_eq_of_field 4 3 (by decide) (first.mode.trans second.mode.symm) inMode
  by_cases inTimeout : 8 ≤ bit ∧ bit < 16
  · exact getLsbD_eq_of_field 8 8 (by decide) (first.timeout.trans second.timeout.symm) inTimeout
  · exact (first.others bit inMode inTimeout).trans (second.others bit inMode inTimeout).symm

/-- A bit of the timeout field is what the machine makes of the shift as soon as a timeout is accepted. -/
theorem getLsbD_perform (shifted : Word) (field : 8 ≤ bit ∧ bit < 16) :
    (call.perform (fun _ _ => shifted) reg).2.getLsbD bit =
      if call.timeout?.isSome then shifted.getLsbD bit else reg.getLsbD bit := by
  cases call with
  | setMode mode =>
      by_cases small : mode ≤ 7
      · rw [Call.perform, ctrlSetMode_accepted small]
        exact getLsbD_write_other (by omega)
      · rw [Call.perform, ctrlSetMode, setField_rejected small]
        rfl
  | setTimeout timeout =>
      by_cases small : timeout ≤ 255
      · have cleared : (BitField.mask 32 8 8).getLsbD bit = true := by
          rw [getLsbD_mask]
          exact decide_eq_true (by omega)
        have accepted : (Call.setTimeout timeout).timeout? = some timeout := if_pos small
        rw [Call.perform, ctrlSetTimeout_accepted small, accepted]
        simp [cleared]
      · have rejected : (Call.setTimeout timeout).timeout? = none := if_neg small
        rw [Call.perform, ctrlSetTimeout, setField_rejected small, rejected]
        rfl

theorem run_getLsbD {shifted : Word} (ran : (machine fun _ _ => shifted).run reg calls = some (final, codes))
    (field : 8 ≤ bit ∧ bit < 16) :
    final.getLsbD bit = if calls.any (·.timeout?.isSome) then shifted.getLsbD bit else reg.getLsbD bit := by
  refine (machine fun _ _ => shifted).run_invariant_along (fun _ _ => True)
    (fun past _ state => state.getLsbD bit =
      if past.any (·.timeout?.isSome) then shifted.getLsbD bit else reg.getLsbD bit)
    (fun past _ state call next events holds _ stepped => ?_) rfl (Machine.along_true _ _ _) ran
  cases stepped
  rw [getLsbD_perform shifted field, holds, List.any_append, List.any_cons, List.any_nil, Bool.or_false]
  cases past.any (·.timeout?.isSome) <;> cases call.timeout?.isSome <;> rfl

/-- Two machines that shift differently leave different registers after an accepted timeout. -/
theorem rejected_of_lensed (lensed : ∀ oversized, Lensed oversized reg calls) :
    ∀ call ∈ calls, call.timeout? = none := by
  intro call member
  by_contra accepted
  have any : calls.any (·.timeout?.isSome) = true :=
    List.any_eq_true.mpr ⟨call, member, Option.isSome_iff_ne_none.mpr accepted⟩
  obtain ⟨clear, _, ranClear, first⟩ := lensed fun _ _ => 0
  obtain ⟨set, _, ranSet, second⟩ := lensed fun _ _ => BitVec.allOnes 32
  have low := run_getLsbD ranClear (show 8 ≤ 8 ∧ 8 < 16 by decide)
  have high := run_getLsbD ranSet (show 8 ≤ 8 ∧ 8 < 16 by decide)
  rw [if_pos any] at low high
  rw [first.unique second, high] at low
  exact absurd low (by decide)

theorem timeout?_eq_none_iff {timeout : Word} : (Call.setTimeout timeout).timeout? = none ↔ 255 < timeout := by
  rw [Call.timeout?, ite_eq_right_iff, ← BitVec.not_le]
  exact ⟨fun none small => Option.some_ne_none timeout (none small), fun large small => absurd small large⟩

/-- No timeout is accepted when every call that sets the timeout is rejected. -/
theorem rejected_iff :
    (∀ call ∈ calls, call.timeout? = none) ↔ ∀ timeout, .setTimeout timeout ∈ calls → 255 < timeout := by
  constructor
  · intro rejected timeout called
    exact timeout?_eq_none_iff.mp (rejected _ called)
  · intro large call member
    cases call with
    | setMode mode => rfl
    | setTimeout timeout => exact timeout?_eq_none_iff.mpr (large timeout member)

/-- A machine may shift an accepted timeout into the field of the mode. -/
theorem large_of_commutes {timeout : Word} (commutes : ∀ oversized mode, Commutes oversized reg mode timeout) :
    255 < timeout := by
  by_contra small
  have both := congrArg modeField (commutes (fun _ _ => ctrlModeMask) 0)
  rw [modeField_ctrlSetMode (by decide), ctrlSetTimeout_accepted (BitVec.not_lt.mp small)] at both
  have bits := congrArg (BitVec.getLsbD · 0) both
  simp [modeField, BitField.read, ctrlModeMask] at bits

/-- A sequence of calls acts on the two fields as lenses on every machine exactly when it has no accepted timeout.
A timeout commutes with every mode on every machine exactly when it is rejected. A rejected call changes nothing. -/
theorem ctrlReg_lenses_iff (reg : Word) :
    (∀ calls, (∀ oversized, Lensed oversized reg calls) ↔
      ∀ timeout, .setTimeout timeout ∈ calls → 255 < timeout) ∧
    (∀ timeout, (∀ oversized mode, Commutes oversized reg mode timeout) ↔ 255 < timeout) ∧
    (∀ oversized mode, 7 < mode → ctrlSetMode oversized reg mode = (-1, reg)) ∧
    ∀ oversized timeout, 255 < timeout → ctrlSetTimeout oversized reg timeout = (-1, reg) := by
  have rejects (oversized : Word → Word → Word) (reg timeout : Word) (large : 255 < timeout) :
      ctrlSetTimeout oversized reg timeout = (-1, reg) := setField_rejected (BitVec.not_le.mpr large)
  refine ⟨fun calls => ⟨?_, ?_⟩, fun timeout => ⟨large_of_commutes, ?_⟩, ?_, fun oversized => rejects oversized reg⟩
  · intro lensed
    exact rejected_iff.mp (rejected_of_lensed lensed)
  · intro large oversized
    exact run_lensed (rejected_iff.mpr large)
  · intro large oversized mode
    rw [Commutes, rejects oversized _ timeout large, rejects oversized _ timeout large]
  · exact fun oversized mode large => setField_rejected (BitVec.not_le.mpr large)

/-- Two modes and a rejected timeout act as lenses on a machine that shifts by the amount modulo 32. -/
theorem ctrlReg_sets_mode :
    Lensed (fun value amount => value <<< (amount % 32)) 0xFFFFFFFF [.setMode 5, .setTimeout 256, .setMode 2] := by
  refine ((ctrlReg_lenses_iff 0xFFFFFFFF).1 _).mpr (fun timeout called => ?_) _
  obtain rfl : timeout = 256 := by simpa using called
  decide

/-- A timeout of five never reaches its field, whether the machine shifts by the amount modulo 32,
which puts it into the lowest bits, or shifts every bit out. -/
theorem ctrlReg_loses_timeout :
    ctrlSetTimeout (fun value amount => value <<< (amount % 32)) 0 5 = (0, 5) ∧
    ¬Lensed (fun value amount => value <<< (amount % 32)) 0 [.setTimeout 5] ∧
    ctrlSetTimeout (fun _ _ => 0) 0 5 = (0, 0) ∧
    ¬Lensed (fun _ _ => 0) 0 [.setTimeout 5] := by
  refine ⟨by decide, ?_, by decide, ?_⟩
  · rintro ⟨final, codes, ran, lenses⟩
    obtain rfl : 5 = final := congrArg Prod.fst (Option.some.inj ran)
    exact absurd lenses.timeout (by decide)
  · rintro ⟨final, codes, ran, lenses⟩
    obtain rfl : 0 = final := congrArg Prod.fst (Option.some.inj ran)
    exact absurd lenses.timeout (by decide)

end Ostep.ControlRegister
