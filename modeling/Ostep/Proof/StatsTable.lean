import Ostep.Construction.StatsTable

namespace Ostep.StatsTable

open Library RwLock Linear

/-- The sum stays at the greatest value. -/
def saturate (value delta : Counter) : Counter := if delta > uint64Max - value then uint64Max else value + delta

/-- Each call in one step. -/
def apply (call : Call) (counters : Counters) : Answer × Counters :=
  match start call with
  | .error refused => (refused, counters)
  | .ok _ =>
      match call with
      | .statsRead _ idx _ => (⟨0, [counters idx.toNat]⟩, counters)
      | .statsAdd _ idx delta =>
          (⟨0, []⟩, Function.update counters idx.toNat (saturate (counters idx.toNat) delta))
      | .statsSnapshot _ _ _ => (⟨0, (List.range statCount).map counters⟩, counters)
      | .statsResetAll _ => (⟨0, []⟩, fun i => if i < statCount then 0 else counters i)

/-- The accesses of the readers. -/
def Act.Quiet : Act → Prop
  | .load _ | .copy _ _ => True
  | _ => False

theorem compare_ends (idx : Nat) (delta : Counter) (counters : Counters) :
    statsTable.Ends (.compare idx delta) counters
      (⟨0, []⟩, Function.update counters idx (saturate (counters idx) delta)) := by
  by_cases beyond : delta > uint64Max - counters idx
  · have stores : statsTable.perform (.compare idx delta) counters = (counters, .more (.store idx uint64Max)) :=
      if_pos beyond
    rw [saturate, if_pos beyond]
    exact .more stores (.done rfl)
  · have reloads : statsTable.perform (.compare idx delta) counters = (counters, .more (.reload idx delta)) :=
      if_neg beyond
    rw [saturate, if_neg beyond]
    exact .more reloads (.more rfl (.done rfl))

/-- The loop of the snapshot copies the counters that are left. -/
theorem copy_ends {i left : Nat} (bound : i + left = statCount) (out : List Counter) (counters : Counters) :
    statsTable.Ends (.copy i out) counters (⟨0, out ++ (List.range' i left).map counters⟩, counters) := by
  induction left generalizing i out with
  | zero =>
      have last : statsTable.perform (.copy i out) counters = (counters, .done ⟨0, out⟩) := if_neg (by omega)
      simpa using Program.Ends.done last
  | succ left ih =>
      have copied : statsTable.perform (.copy i out) counters =
          (counters, .more (.copy (i + 1) (out ++ [counters i]))) := if_pos (by omega)
      have later : i + 1 + left = statCount := by omega
      have rest := ih later (out ++ [counters i])
      rw [List.append_assoc] at rest
      exact .more copied rest

/-- The loop of the reset clears the counters that are left. -/
theorem zero_ends {i left : Nat} (bound : i + left = statCount) (counters : Counters) :
    statsTable.Ends (.zero i) counters (⟨0, []⟩, fun j => if i ≤ j ∧ j < statCount then 0 else counters j) := by
  induction left generalizing i counters with
  | zero =>
      have last : statsTable.perform (.zero i) counters = (counters, .done ⟨0, []⟩) := if_neg (by omega)
      have same : (fun j => if i ≤ j ∧ j < statCount then 0 else counters j) = counters := by
        funext j
        exact if_neg (by omega)
      rw [same]
      exact .done last
  | succ left ih =>
      have cleared : statsTable.perform (.zero i) counters = (Function.update counters i 0, .more (.zero (i + 1))) :=
        if_pos (by omega)
      have later : i + 1 + left = statCount := by omega
      have rest := ih later (Function.update counters i 0)
      have same : (fun j => if i + 1 ≤ j ∧ j < statCount then 0 else Function.update counters i 0 j) =
          fun j => if i ≤ j ∧ j < statCount then 0 else counters j := by
        funext j
        by_cases here : j = i
        · subst here
          simp only [Function.update_self, ite_self, Nat.le_refl, true_and]
          exact (if_pos (by omega)).symm
        · simp only [Function.update_of_ne here]
          exact if_congr (by omega) rfl rfl
      rw [same] at rest
      exact .more cleared rest

/-- The table gives each call its meaning. -/
theorem refines : Refines statsTable apply Act.Quiet where
  refused call result counters refused := by
    change start call = .error result at refused
    simp only [apply, refused]
  ends call mode act counters started := by
    change start call = .ok (mode, act) at started
    simp only [apply, started]
    cases call with
    | statsRead t idx out =>
        simp only [start] at started
        split at started
        · cases started
        · cases started
          exact .done rfl
    | statsAdd t idx delta =>
        simp only [start] at started
        split at started
        · cases started
        · cases started
          exact compare_ends _ _ _
    | statsSnapshot t out outCount =>
        simp only [start] at started
        split at started
        · cases started
        · cases started
          simpa [List.range_eq_range'] using copy_ends (Nat.zero_add statCount) [] counters
    | statsResetAll t =>
        simp only [start] at started
        split at started
        · cases started
        · cases started
          simpa using zero_ends (Nat.zero_add statCount) counters
  reads call act started := by
    change start call = .ok (.read, act) at started
    cases call with
    | statsRead t idx out | statsSnapshot t out outCount =>
        simp only [start] at started
        split at started <;> cases started
        trivial
    | statsAdd t idx delta | statsResetAll t =>
        simp only [start] at started
        split at started <;> cases started
  goes act counters after next quiet performed := by
    cases act with
    | load idx =>
        cases performed
        exact ⟨rfl, fun act same => by cases same⟩
    | copy i out =>
        change perform (.copy i out) counters = (after, next) at performed
        simp only [perform] at performed
        split at performed
        · cases performed
          refine ⟨rfl, fun act same => ?_⟩
          cases same
          trivial
        · cases performed
          exact ⟨rfl, fun act same => by cases same⟩
    | _ => exact quiet.elim

theorem saturate_toNat (value delta : Counter) :
    (saturate value delta).toNat = min uint64Max.toNat (value.toNat + delta.toNat) := by
  have most : uint64Max.toNat = 2 ^ 64 - 1 := rfl
  have room : (uint64Max - value).toNat = 2 ^ 64 - 1 - value.toNat := by
    have bound := value.isLt
    rw [BitVec.toNat_sub, most]
    omega
  have bound := value.isLt
  by_cases beyond : delta > uint64Max - value
  · have above := BitVec.lt_def.mp beyond
    rw [saturate, if_pos beyond]
    omega
  · have within := BitVec.not_lt.mp beyond
    rw [BitVec.le_def] at within
    rw [saturate, if_neg beyond, BitVec.toNat_add]
    omega

theorem apply_statsRead (t out : Bool) (idx : BitVec 64) (counters : Counters) :
    apply (.statsRead t idx out) counters =
      if t ∧ idx.toNat < statCount ∧ out then (⟨0, [counters idx.toNat]⟩, counters) else (⟨-1, []⟩, counters) := by
  rcases Nat.lt_or_ge idx.toNat statCount with inside | beyond
  · cases t <;> cases out <;> simp [apply, start, inside, Nat.not_le.mpr inside]
  · cases t <;> cases out <;> simp [apply, start, beyond, Nat.not_lt.mpr beyond]

theorem apply_statsAdd (t : Bool) (idx delta : BitVec 64) (counters : Counters) :
    apply (.statsAdd t idx delta) counters =
      if t ∧ idx.toNat < statCount then
        (⟨0, []⟩, Function.update counters idx.toNat (saturate (counters idx.toNat) delta))
      else (⟨-1, []⟩, counters) := by
  rcases Nat.lt_or_ge idx.toNat statCount with inside | beyond
  · cases t <;> simp [apply, start, inside, Nat.not_le.mpr inside]
  · cases t <;> simp [apply, start, beyond, Nat.not_lt.mpr beyond]

theorem apply_statsSnapshot (t out : Bool) (outCount : BitVec 64) (counters : Counters) :
    apply (.statsSnapshot t out outCount) counters =
      if t ∧ out ∧ statCount ≤ outCount.toNat then (⟨0, (List.range statCount).map counters⟩, counters)
      else (⟨-1, []⟩, counters) := by
  rcases Nat.lt_or_ge outCount.toNat statCount with short | enough
  · cases t <;> cases out <;> simp [apply, start, short, Nat.not_le.mpr short]
  · cases t <;> cases out <;> simp [apply, start, enough, Nat.not_lt.mpr enough]

theorem apply_statsResetAll (t : Bool) (counters : Counters) :
    apply (.statsResetAll t) counters =
      if t then (⟨0, []⟩, fun i => if i < statCount then 0 else counters i) else (⟨-1, []⟩, counters) := by
  cases t <;> rfl

/-- Each call in one step adds to a counter up to the greatest value. -/
theorem apply_toNat (call : Call) (counters : Counters) {i : Nat} (inside : i < statCount) :
    ((apply call counters).2 i).toNat = min uint64Max.toNat (total i (counters i).toNat call) := by
  have kept : (counters i).toNat = min uint64Max.toNat (counters i).toNat :=
    (Nat.min_eq_right (Nat.le_sub_one_of_lt (counters i).isLt)).symm
  cases call with
  | statsRead t idx out =>
      rw [apply_statsRead]
      split <;> exact kept
  | statsAdd t idx delta =>
      rw [apply_statsAdd, total]
      by_cases accepted : t ∧ idx.toNat < statCount
      · rw [if_pos accepted]
        by_cases here : idx.toNat = i
        · subst here
          simp only [accepted, and_self, if_true, Function.update_self, saturate_toNat]
        · simp only [here, and_false, if_false, Function.update_of_ne (Ne.symm here)]
          exact kept
      · rw [if_neg accepted, if_neg fun all => accepted ⟨all.1, all.2.1⟩]
        exact kept
  | statsSnapshot t out outCount =>
      rw [apply_statsSnapshot]
      split <;> exact kept
  | statsResetAll t =>
      rw [apply_statsResetAll, total]
      split
      · simp only [inside, if_true]
        rfl
      · exact kept

/-- Only the shown part of a counter counts for what is added to it. -/
theorem total_congr {i first second : Nat} (same : min uint64Max.toNat first = min uint64Max.toNat second)
    (calls : List Call) :
    min uint64Max.toNat (calls.foldl (total i) first) = min uint64Max.toNat (calls.foldl (total i) second) := by
  induction calls generalizing first second with
  | nil => exact same
  | cons call rest ih =>
      refine ih ?_
      cases call with
      | statsAdd t idx delta =>
          simp only [total]
          split
          · omega
          · exact same
      | statsResetAll t =>
          simp only [total]
          split
          · rfl
          · exact same
      | _ => exact same

/-- The counters after calls in one step each. -/
theorem replay_shown (calls : List Call) (counters : Counters) {i : Nat} (inside : i < statCount) :
    (replay apply counters calls).2 i = shown counters calls i := by
  induction calls generalizing counters with
  | nil =>
      apply BitVec.eq_of_toNat_eq
      have most := (counters i).isLt
      simp only [replay, shown, List.foldl_nil, BitVec.toNat_ofNat]
      have bound : uint64Max.toNat = 2 ^ 64 - 1 := rfl
      omega
  | cons call rest ih =>
      have first : min uint64Max.toNat ((apply call counters).2 i).toNat =
          min uint64Max.toNat (total i (counters i).toNat call) := by
        rw [apply_toNat call counters inside, ← Nat.min_assoc, Nat.min_self]
      calc (replay apply counters (call :: rest)).2 i
          = shown (apply call counters).2 rest i := ih (apply call counters).2
        _ = shown counters (call :: rest) i := congrArg (BitVec.ofNat 64) (total_congr first rest)

/-- A call in one step answers as the abstract counters do. -/
theorem apply_answer (call : Call) (calls : List Call) (counters : Counters) :
    (apply call (replay apply counters calls).2).1 = answer counters calls call := by
  cases call with
  | statsRead t idx out =>
      rw [apply_statsRead, answer]
      split
      next accepted => rw [replay_shown calls counters accepted.2.1]
      next => rfl
  | statsAdd t idx delta =>
      rw [apply_statsAdd, answer]
      split <;> rfl
  | statsSnapshot t out outCount =>
      rw [apply_statsSnapshot, answer]
      split
      · exact congrArg (Answer.mk 0)
          (List.map_congr_left fun i member => replay_shown calls counters (List.mem_range.mp member))
      · rfl
  | statsResetAll t =>
      rw [apply_statsResetAll, answer]
      split <;> rfl

variable {Thread : Type} [DecidableEq Thread] [Fintype Thread]

/-- Interleaved calls on the table are linearisable: each takes effect at one point between its start and its return,
and answers with the sums since the last reset, up to the greatest value, at this point. A table without a writer
shows the same sums. When no thread can go on, all calls have returned. -/
theorem stats_table_linearisable (counters : Counters) (calls : Thread → List Call) (schedule : List Thread)
    (state : State Thread Call Act Counters Answer) (trace : List (Event Thread Call Answer))
    (ran : (machine statsTable).run (initial counters calls) schedule = some (state, trace)) :
    (∃ points : List (Point Thread Call Answer),
      observed points = trace ∧ (∀ thread, ∃ phase, Story thread points phase) ∧
      (∀ before call result after, commits points = before ++ (call, result) :: after →
        result = answer counters (before.map Prod.fst) call) ∧
      (state.writer = none → ∀ i < statCount,
        state.memory i = shown counters ((commits points).map Prod.fst) i)) ∧
    ((∀ thread, ¬(machine statsTable).Enabled state thread) →
      ∀ thread, (state.workers thread).Finished ∧ started thread trace = calls thread) := by
  obtain ⟨points, logical, linear⟩ := run_linear refines ran
  refine ⟨⟨points, linear.linear.observed_eq, fun thread => ⟨_, linear.stories thread⟩,
    fun before call result after place => ?_, fun free i inside => ?_⟩, fun stopped thread => ?_⟩
  · rw [linear.linear.result_eq place, apply_answer]
  · have last : (replay apply counters ((commits points).map Prod.fst)).2 = logical :=
      congrArg Prod.snd linear.linear.replayed
    rw [linear.memory_eq free, ← last, replay_shown _ counters inside]
  · have finished := linear.held.finished_of_stopped stopped thread
    have all := linear.calls_eq thread
    rw [finished.2, List.append_nil] at all
    exact ⟨finished, all⟩

/-- One thread adds and another one reads. -/
def oneAdd (thread : Bool) : List Call := if thread then [.statsAdd true 3 5] else [.statsRead true 3 true]

/-- The reader waits for the writer and reads the sum. -/
theorem stats_table_linearisable_add :
    ∃ state trace,
      (machine statsTable).run (initial (fun _ => 0) oneAdd)
        [true, false, true, true, true, true, true, false, true, false, false, false] = some (state, trace) ∧
      (∃ points : List (Point Bool Call Answer), observed points = trace ∧
        ∀ before call result after, commits points = before ++ (call, result) :: after →
          result = answer (fun _ => 0) (before.map Prod.fst) call) ∧
      .ret false (.statsRead true 3 true) ⟨0, [5]⟩ ∈ trace := by
  have seen : ((machine statsTable).run (initial (fun _ => 0) oneAdd)
      [true, false, true, true, true, true, true, false, true, false, false, false]).map Prod.snd =
        some [.start true (.statsAdd true 3 5), .start false (.statsRead true 3 true),
          .ret true (.statsAdd true 3 5) ⟨0, []⟩, .ret false (.statsRead true 3 true) ⟨0, [5]⟩] := by
    decide +kernel
  obtain ⟨⟨state, trace⟩, ran, rfl⟩ := Option.map_eq_some_iff.mp seen
  obtain ⟨⟨points, observes, -, answers, -⟩, -⟩ := stats_table_linearisable _ _ _ state _ ran
  exact ⟨state, _, ran, ⟨points, observes, answers⟩, by simp⟩

end Ostep.StatsTable
