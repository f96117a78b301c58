import Mathlib.Data.List.Induction
import Ostep.Library.BitField
import Ostep.Library.Count
import Ostep.Construction.Counter

namespace Ostep.Counter

open Library Library.Count

variable {n : Nat}

theorem threshold_toNat : threshold.toNat = 10000 := by decide

/-- The threshold test on a number that has not overflowed. -/
theorem threshold_sle_ofNat {value : Nat} (small : value < 2 ^ 31) :
    threshold.sle (BitVec.ofNat 32 value) = decide (10000 ≤ value) := by
  have signed : threshold.toInt = 10000 := by decide
  rw [BitVec.sle, BitField.toInt_ofNat (by omega), signed]
  exact decide_eq_decide.mpr Int.ofNat_le

/-- The simple counter counts the calls. -/
theorem simple_foldl (ids : List (Fin n)) :
    simpleGet (ids.foldl simpleIncrement simpleInit) = BitVec.ofNat 32 ids.length := by
  induction ids using List.reverseRecOn with
  | nil => rfl
  | append_singleton past id ih =>
      rw [List.foldl_append, List.length_append, BitVec.ofNat_add, ← ih]
      rfl

section Increment

variable {Id : Type} [DecidableEq Id] {counter : Approx Id} {id : Id}

/-- Below the threshold an increment stays in the local value. -/
theorem counterIncrement_quiet (quiet : threshold.sle (counter.localValue id + 1) = false) :
    counterIncrement counter id =
      ⟨counter.value, Function.update counter.localValue id (counter.localValue id + 1)⟩ := by
  simp only [counterIncrement, Function.update_self, quiet, Bool.false_eq_true, if_false]

/-- At the threshold an increment flushes the local value. -/
theorem counterIncrement_flush (reached : threshold.sle (counter.localValue id + 1) = true) :
    counterIncrement counter id =
      ⟨counter.value + (counter.localValue id + 1), Function.update counter.localValue id 0⟩ := by
  simp only [counterIncrement, Function.update_self, reached, if_true, Function.update_idem]

variable {Thread : Type} [DecidableEq Thread] {thread : Thread}

/-- A thread makes its next access in a state that the other threads do not change. -/
theorem go_step {before after : Approx Id} {owner released : Lock Id → Option Thread} {pc next : Pc Id}
    {events : List (Event Thread)}
    (accessed : access before owner thread true pc = some (after, released, next, events))
    (threads : Thread → Pc Id) (current : threads thread = pc) :
    machine.step ⟨before, owner, threads⟩ (.go thread true) =
      some (⟨after, released, Function.update threads thread next⟩, events) := by
  simp only [machine, current, accessed, Option.map_some]

/-- A thread that finds its locks free and runs alone makes the increment of the sequential counter. -/
theorem increment_alone (state : State Id Thread) (thread : Thread) (id : Id)
    (outside : state.threads thread = .outside) (localFree : state.owner (.llock id) = none)
    (globalFree : state.owner .glock = none) :
    ∃ steps trace, machine.run state (.increment thread id :: List.replicate steps (.go thread true)) =
      some ({ state with counter := counterIncrement state.counter id }, trace) := by
  obtain ⟨counter, owner, threads⟩ := state
  dsimp only at outside localFree globalFree ⊢
  have entered : machine.step ⟨counter, owner, threads⟩ (.increment thread id) =
      some (⟨counter, owner, Function.update threads thread (.lockLocal id)⟩, []) := if_pos outside
  have back : Function.update threads thread .outside = threads := by rw [← outside, Function.update_eq_self]
  have unlocked : Function.update (Function.update owner (.llock id) (some thread)) (.llock id) none = owner := by
    rw [Function.update_idem, ← localFree, Function.update_eq_self]
  have globalStays : Function.update owner (.llock id) (some thread) .glock = none := by
    rw [Function.update_of_ne (by simp), globalFree]
  have globalUnlocked : Function.update (Function.update (Function.update owner (.llock id) (some thread)) .glock
      (some thread)) .glock none = Function.update owner (.llock id) (some thread) := by
    rw [Function.update_idem, ← globalStays, Function.update_eq_self]
  have increased : Function.update counter.localValue id (counter.localValue id + 1) id = counter.localValue id + 1 :=
    Function.update_self ..
  cases test : threshold.sle (counter.localValue id + 1) with
  | false =>
      have quiet : ¬threshold.sle (Function.update counter.localValue id (counter.localValue id + 1) id) = true := by
        rw [increased, test]
        exact Bool.false_ne_true
      have ran : machine.run ⟨counter, owner, Function.update threads thread (.lockLocal id)⟩
          (List.replicate 5 (.go thread true)) = some (_, _) :=
        machine.run_update (go_step (if_pos localFree)) <| machine.run_update (go_step rfl) <|
          machine.run_update (go_step rfl) <| machine.run_update (go_step (if_neg quiet)) <|
          machine.run_update (go_step rfl) <| machine.run_nil _
      rw [unlocked, back] at ran
      rw [counterIncrement_quiet test]
      exact ⟨5, _, machine.run_cons_eq_some.mpr ⟨_, _, _, entered, ran, rfl⟩⟩
  | true =>
      have reached : threshold.sle (Function.update counter.localValue id (counter.localValue id + 1) id) = true := by
        rw [increased, test]
      have ran : machine.run ⟨counter, owner, Function.update threads thread (.lockLocal id)⟩
          (List.replicate 11 (.go thread true)) = some (_, _) :=
        machine.run_update (go_step (if_pos localFree)) <| machine.run_update (go_step rfl) <|
          machine.run_update (go_step rfl) <| machine.run_update (go_step (if_pos reached)) <|
          machine.run_update (go_step (if_pos globalStays)) <| machine.run_update (go_step rfl) <|
          machine.run_update (go_step rfl) <| machine.run_update (go_step rfl) <|
          machine.run_update (go_step rfl) <| machine.run_update (go_step rfl) <|
          machine.run_update (go_step rfl) <| machine.run_nil _
      dsimp only at ran
      rw [globalUnlocked, unlocked, back, increased, Function.update_idem] at ran
      rw [counterIncrement_flush test]
      exact ⟨11, _, machine.run_cons_eq_some.mpr ⟨_, _, _, entered, ran, rfl⟩⟩

/-- The calls of one thread alone fold the increment of the sequential counter. -/
theorem increments_alone (thread : Thread) (counter : Approx Id) (ids : List Id) :
    ∃ schedule trace, machine.run (initial counter : State Id Thread) schedule =
      some (initial (ids.foldl counterIncrement counter), trace) := by
  induction ids generalizing counter with
  | nil => exact ⟨[], [], rfl⟩
  | cons id rest ih =>
      obtain ⟨steps, early, began⟩ := increment_alone (initial counter) thread id rfl rfl rfl
      obtain ⟨schedule, late, continued⟩ := ih (counterIncrement counter id)
      exact ⟨_, early ++ late, machine.run_append began continued⟩

/-- Increments of one id stay in its local value while the threshold is not reached. -/
theorem foldl_quiet (counter : Approx Id) (id : Id) {count : Nat}
    (quiet : ∀ earlier < count, threshold.sle (counter.localValue id + BitVec.ofNat 32 (earlier + 1)) = false) :
    (List.replicate count id).foldl counterIncrement counter =
      ⟨counter.value, Function.update counter.localValue id (counter.localValue id + BitVec.ofNat 32 count)⟩ := by
  induction count with
  | zero => simp
  | succ count ih =>
      have next : counter.localValue id + BitVec.ofNat 32 count + 1 =
          counter.localValue id + BitVec.ofNat 32 (count + 1) := by
        rw [BitVec.ofNat_add, ← BitVec.add_assoc]
        rfl
      have before := ih fun earlier below => quiet earlier (below.trans (Nat.lt_succ_self _))
      rw [List.replicate_succ', List.foldl_append, before, List.foldl_cons, List.foldl_nil, counterIncrement_quiet]
      · dsimp only
        rw [Function.update_self, Function.update_idem, next]
      · dsimp only
        rw [Function.update_self, next]
        exact quiet count (Nat.lt_succ_self count)

end Increment

/-- What the calls leave of the counter when the local values start at zero. -/
structure Counted (ids : List (Fin n)) (counter : Approx (Fin n)) : Prop where
  residues : ∀ id, counter.localValue id = BitVec.ofNat 32 (ids.count id % 10000)
  batches : counter.value = BitVec.ofNat 32 (∑ id, ids.count id / 10000 * 10000)

theorem count_concat (ids : List (Fin n)) (id : Fin n) :
    (fun other => (ids ++ [id]).count other) =
      Function.update (fun other => ids.count other) id (ids.count id + 1) := by
  funext other
  by_cases same : other = id
  · subst same
    rw [Function.update_self, List.count_append, List.count_singleton_self]
  · rw [Function.update_of_ne same, List.count_append, List.count_singleton, if_neg (by simpa using Ne.symm same)]
    rfl

/-- The sum of the batches after one more call. -/
theorem batches_concat (ids : List (Fin n)) (id : Fin n) :
    ∑ other, (ids ++ [id]).count other / 10000 * 10000 + ids.count id / 10000 * 10000 =
      ∑ other, ids.count other / 10000 * 10000 + (ids.count id + 1) / 10000 * 10000 := by
  have exchange :=
    sum_update (fun count : Nat => count / 10000 * 10000) (fun other => ids.count other) id (ids.count id + 1)
  rw [← count_concat] at exchange
  exact exchange

/-- A call changes one residue. -/
theorem Counted.residues_update {ids : List (Fin n)} {counter : Approx (Fin n)} (counted : Counted ids counter)
    {id : Fin n} {residue : Word} (mine : residue = BitVec.ofNat 32 ((ids.count id + 1) % 10000)) (other : Fin n) :
    Function.update counter.localValue id residue other = BitVec.ofNat 32 ((ids ++ [id]).count other % 10000) := by
  have counts : (ids ++ [id]).count other = _ := congrFun (count_concat ids id) other
  rw [counts]
  by_cases same : other = id
  · subst same
    rw [Function.update_self, Function.update_self]
    exact mine
  · rw [Function.update_of_ne same, Function.update_of_ne same]
    exact counted.residues other

/-- Each call keeps the residues below the threshold. -/
theorem Counted.increment {ids : List (Fin n)} {counter : Approx (Fin n)} (counted : Counted ids counter) (id : Fin n) :
    Counted (ids ++ [id]) (counterIncrement counter id) := by
  have next : counter.localValue id + 1 = BitVec.ofNat 32 (ids.count id % 10000 + 1) := by
    rw [counted.residues id, BitVec.ofNat_add]
    rfl
  have small : ids.count id % 10000 + 1 < 2 ^ 31 := by omega
  have test := threshold_sle_ofNat small
  rw [← next] at test
  have batches := batches_concat ids id
  by_cases full : 10000 ≤ ids.count id % 10000 + 1
  · have whole : ids.count id % 10000 + 1 = 10000 := by omega
    have reset : (ids.count id + 1) % 10000 = 0 := by omega
    have grown : ∑ other, (ids ++ [id]).count other / 10000 * 10000 =
        ∑ other, ids.count other / 10000 * 10000 + 10000 := by omega
    rw [counterIncrement_flush (test.trans (decide_eq_true full))]
    refine ⟨counted.residues_update (by rw [reset]; rfl), ?_⟩
    rw [grown, BitVec.ofNat_add, ← counted.batches, next, whole]
  · have kept : (ids.count id + 1) % 10000 = ids.count id % 10000 + 1 := by omega
    have same : ∑ other, (ids ++ [id]).count other / 10000 * 10000 = ∑ other, ids.count other / 10000 * 10000 := by
      omega
    rw [counterIncrement_quiet (test.trans (decide_eq_false full))]
    refine ⟨counted.residues_update (by rw [kept, next]), ?_⟩
    rw [same]
    exact counted.batches

/-- Zeroed local values count every sequence of calls. -/
theorem counted_foldl {memory : Fin n → Word} (zeroed : ∀ id, memory id = 0) (ids : List (Fin n)) :
    Counted ids (ids.foldl counterIncrement (counterInit memory)) := by
  induction ids using List.reverseRecOn with
  | nil => exact ⟨zeroed, by simp [counterInit]⟩
  | append_singleton past id ih =>
      rw [List.foldl_append]
      exact ih.increment id

/-- The calls are the sum of the flushed batches and the residues. -/
theorem batches_add_residues (ids : List (Fin n)) :
    ∑ id, ids.count id / 10000 * 10000 + ∑ id, ids.count id % 10000 = ids.length := by
  have calls := Multiset.sum_count_eq_card (s := Finset.univ) (m := (ids : Multiset (Fin n)))
    fun id _ => Finset.mem_univ id
  simp only [Multiset.coe_count, Multiset.coe_card] at calls
  rw [← calls, ← Finset.sum_add_distrib]
  exact Finset.sum_congr rfl fun id _ => Nat.div_add_mod' _ _

/-- Zeroed local values track the simple counter. -/
theorem tracks_of_zeroed {memory : Fin n → Word} (zeroed : ∀ id, memory id = 0) : Tracks memory := by
  intro ids short
  have batches := (counted_foldl zeroed ids).batches
  have split := batches_add_residues ids
  have residues : ∑ id, ids.count id % 10000 ≤ n * 9999 := by
    have bounded : ∀ id ∈ Finset.univ, ids.count id % 10000 ≤ 9999 := fun id _ => by omega
    have sum := Finset.sum_le_card_nsmul Finset.univ (fun id => ids.count id % 10000) 9999 bounded
    rwa [Finset.card_univ, Fintype.card_fin] at sum
  have signed : threshold.toInt = 10000 := by decide
  rw [counterGet, batches, simple_foldl, BitField.toInt_ofNat (by omega), BitField.toInt_ofNat (by omega), signed]
  refine ⟨by omega, by omega, fun whole => ?_⟩
  have none : ∑ id, ids.count id % 10000 = 0 :=
    Finset.sum_eq_zero fun id _ => Nat.mod_eq_zero_of_dvd (threshold_toNat ▸ whole id)
  rw [← split, none, Nat.add_zero]

/-- A positive local value is flushed before that many calls were made. -/
theorem not_tracks_of_positive {memory : Fin n → Word} (id : Fin n) (positive : 0 < (memory id).toNat)
    (fits : (memory id).toNat + 1 < 2 ^ 31) : ¬Tracks memory := by
  intro tracks
  obtain ⟨start, same⟩ : ∃ start, (memory id).toNat = start := ⟨_, rfl⟩
  -- The call after these is the first one that flushes.
  obtain ⟨count, quiet, least, bounded⟩ : ∃ count, (∀ earlier < count, start + (earlier + 1) < 10000) ∧
      10000 ≤ start + (count + 1) ∧ start + (count + 1) < 2 ^ 31 :=
    ⟨9999 - start, fun _ _ => by omega, by omega, by omega⟩
  have contents (calls : Nat) : memory id + BitVec.ofNat 32 calls = BitVec.ofNat 32 (start + calls) := by
    rw [BitVec.ofNat_add, ← same, BitVec.ofNat_toNat, BitVec.setWidth_eq]
  have last : memory id + BitVec.ofNat 32 count + 1 = BitVec.ofNat 32 (start + (count + 1)) := by
    rw [← contents, BitVec.ofNat_add, ← BitVec.add_assoc]
    rfl
  have stays (earlier : Nat) (below : earlier < count) :
      threshold.sle (memory id + BitVec.ofNat 32 (earlier + 1)) = false := by
    have bound := quiet earlier below
    rw [contents, threshold_sle_ofNat (by omega)]
    exact decide_eq_false (by omega)
  have flushed : counterGet ((List.replicate count id ++ [id]).foldl counterIncrement (counterInit memory)) =
      BitVec.ofNat 32 (start + (count + 1)) := by
    rw [List.foldl_append, foldl_quiet (counterInit memory) id stays, List.foldl_cons, List.foldl_nil,
      counterIncrement_flush]
    · change 0 + (Function.update memory id (memory id + BitVec.ofNat 32 count) id + 1) = _
      rw [Function.update_self, last, zero_add]
    · change threshold.sle (Function.update memory id (memory id + BitVec.ofNat 32 count) id + 1) = true
      rw [Function.update_self, last, threshold_sle_ofNat bounded]
      exact decide_eq_true least
  have length : (List.replicate count id ++ [id]).length = count + 1 := by
    rw [List.length_append, List.length_replicate, List.length_singleton]
  have behind := (tracks (List.replicate count id ++ [id]) (by omega)).1
  rw [flushed, simple_foldl, length, BitField.toInt_ofNat (by omega), BitField.toInt_ofNat (by omega)] at behind
  omega

/-- A negative number stays below the threshold for ten thousand steps. -/
theorem threshold_sle_negative {value : Word} (large : 2 ^ 31 ≤ value.toNat + 1) {steps : Nat} (few : steps < 10000) :
    threshold.sle (value + BitVec.ofNat 32 (steps + 1)) = false := by
  have signed : threshold.toInt = 10000 := by decide
  have bound := value.isLt
  rw [BitVec.sle, signed, BitVec.toInt_eq_toNat_cond, BitVec.toNat_add, BitVec.toNat_ofNat]
  apply decide_eq_false
  split <;> omega

/-- A negative local value swallows ten thousand calls. -/
theorem not_tracks_of_negative {memory : Fin n → Word} (id : Fin n) (large : 2 ^ 31 ≤ (memory id).toNat + 1) :
    ¬Tracks memory := by
  intro tracks
  obtain ⟨count, enough⟩ : ∃ count, count = 10000 := ⟨_, rfl⟩
  have short : (List.replicate count id).length < 2 ^ 31 := by
    rw [List.length_replicate]
    omega
  have whole (other : Fin n) : threshold.toNat ∣ (List.replicate count id).count other := by
    rw [threshold_toNat, List.count_replicate, enough]
    split
    · exact dvd_rfl
    · exact dvd_zero _
  have equal := (tracks (List.replicate count id) short).2.2 whole
  rw [foldl_quiet (counterInit memory) id fun earlier below => threshold_sle_negative large (by omega), simple_foldl,
    List.length_replicate, enough] at equal
  have wrong : (0 : Word) = BitVec.ofNat 32 10000 := equal
  exact absurd wrong (by decide)

/-- The approximate counter tracks the simple one exactly when `malloc` returns zeroed local values. -/
theorem approxCounter_tracks_iff (n : Nat) (memory : Fin n → Word) : Tracks memory ↔ ∀ id, memory id = 0 := by
  refine ⟨fun tracks id => ?_, tracks_of_zeroed⟩
  by_contra nonzero
  have positive : 0 < (memory id).toNat := Nat.pos_of_ne_zero fun zero => nonzero (BitVec.eq_of_toNat_eq zero)
  rcases Nat.lt_or_ge ((memory id).toNat + 1) (2 ^ 31) with fits | large
  · exact not_tracks_of_positive id positive fits tracks
  · exact not_tracks_of_negative id large tracks

/-- One increment of a counter whose local value was never set gives 10001. -/
theorem approxCounter_overtakes :
    counterGet ([0].foldl counterIncrement (counterInit fun _ : Fin 1 => 10000)) = 10001 ∧
    simpleGet ([(0 : Fin 1)].foldl simpleIncrement simpleInit) = 1 ∧ ¬Tracks fun _ : Fin 1 => (10000 : Word) := by
  exact ⟨by decide, by decide, not_tracks_of_positive 0 (by decide) (by decide)⟩

end Ostep.Counter
