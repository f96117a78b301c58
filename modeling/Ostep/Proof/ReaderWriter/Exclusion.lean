import Ostep.Proof.ReaderWriter.Accounts

namespace Ostep.ReaderWriter

open Library Library.Count

/-- A reader that uses the lock is counted and does not hold the inner lock. -/
theorem ReaderState.Critical.counted {reader : ReaderState} (critical : reader.Critical) :
    reader.counted = 1 ∧ reader.inner = 0 := by
  rcases reader with ⟨pc, i⟩
  rcases critical with inside | leaving
  · cases inside
    exact ⟨rfl, rfl⟩
  · cases leaving
    exact ⟨rfl, rfl⟩

/-- A writer that uses the lock holds its permit. -/
theorem WriterState.Critical.holds {writer : WriterState} (critical : writer.Critical) : writer.holds = 1 := by
  rcases writer with ⟨pc, i⟩
  cases pc with
  | readValue => rfl
  | writeValue value => rfl
  | printing => rfl
  | postWriteLock => rfl
  | _ => cases critical

/-- A reader counts for one. -/
theorem ReaderState.counted_le_one (reader : ReaderState) : reader.counted ≤ 1 := by
  unfold ReaderState.counted
  split <;> decide

/-- While another reader is counted, the holder of the inner lock finds the readers' share taken. -/
theorem ReaderState.Sound.share_eq_one {reader : ReaderState} {numReaders : Int} {share : Nat}
    (sound : reader.Sound numReaders share) (inside : 0 < reader.inner)
    (another : (reader.counted : Int) + 1 ≤ numReaders) : share = 1 := by
  have positive : held numReaders = 1 := if_pos (by omega)
  rcases reader with ⟨pc, i⟩
  cases pc with
  | readCount half => exact Eq.trans sound positive
  | writeCount half count => exact Eq.trans sound.2 positive
  | postLock half => exact Eq.trans sound positive
  | testCount half =>
      have before : held (numReaders - half.change) = 1 := by
        cases half with
        | acquire => exact if_pos (by simp only [ReaderState.counted, Half.change] at another ⊢; omega)
        | release => exact if_pos (by simp only [ReaderState.counted, Half.change] at another ⊢; omega)
      exact Eq.trans sound before
  | changeWriteLock half =>
      -- At the edge the holder of the inner lock is the only counted reader, or none is.
      obtain ⟨edge, -⟩ := sound
      cases half with
      | acquire =>
          simp only [ReaderState.counted, Half.edge] at another edge
          omega
      | release =>
          simp only [ReaderState.counted, Half.edge] at another edge
          omega
  | loop => cases inside
  | waitLock half => cases inside
  | reading => cases inside
  | done => cases inside

variable {Reader Writer : Type} [Fintype Reader] [Fintype Writer]
variable {loops : Nat} {state : State Reader Writer} {share : Nat}

/-- The readers have the write lock while one of them uses it. -/
theorem Holds.share_eq_one (holds : Holds loops state share) {reader : Reader}
    (critical : (state.readers reader).Critical) : share = 1 := by
  obtain ⟨counted, outside⟩ := critical.counted
  have permit := holds.inner
  have least := holds.counted_le reader
  have count := holds.counted
  by_cases free : state.lock = 1
  · exact (holds.rest free).trans (if_pos (by omega))
  · -- Another reader has the inner lock and knows that this one is counted.
    obtain ⟨holder, inside⟩ := exists_of_total_pos (show 0 < total ReaderState.inner state.readers by omega)
    have different : holder ≠ reader := by
      rintro rfl
      omega
    have both := add_le_total ReaderState.counted state.readers different
    exact ReaderState.Sound.share_eq_one (holds.readers holder) inside (by omega)

/-- A writer that uses the lock excludes everyone else. -/
theorem Holds.excludes (holds : Holds loops state share) {writer : Writer}
    (critical : (state.writers writer).Critical) :
    (∀ other, other ≠ writer → ¬(state.writers other).Critical) ∧
      ∀ reader, ¬(state.readers reader).Critical := by
  constructor
  · intro other different inside
    have outside := holds.exclusive different critical.holds
    rw [inside.holds] at outside
    cases outside
  · intro reader inside
    have shared := holds.share_eq_one inside
    have held := le_total WriterState.holds state.writers writer
    rw [critical.holds] at held
    have permit := holds.outer
    omega

/-- The count of readers stays between zero and their number. -/
theorem Holds.numReaders_bounds (holds : Holds loops state share) :
    0 ≤ state.numReaders ∧ state.numReaders ≤ Fintype.card Reader := by
  have count := holds.counted
  have most := total_le fun reader => ReaderState.counted_le_one (state.readers reader)
  omega

/-- The value stays between zero and the number of all increments. -/
theorem Holds.value_bounds (holds : Holds loops state share) :
    0 ≤ state.value ∧ state.value ≤ (Fintype.card Writer * loops : Nat) := by
  have sum := holds.sum
  have most := total_le fun writer => WriterState.written_le (holds.writers writer)
  omega

/-- The finished writers have stored all their increments. -/
theorem Holds.value_of_finished (holds : Holds loops state share) (finished : state.Finished) :
    state.value = (Fintype.card Writer * loops : Nat) := by
  have written (writer : Writer) : (state.writers writer).written = loops := by
    have sound := holds.writers writer
    simp only [WriterState.Sound, WriterState.written, finished.2 writer] at sound ⊢
    exact sound
  rw [holds.sum, total_const written]

variable [DecidableEq Reader] [DecidableEq Writer]

/-- In every interleaving a writer that uses the lock excludes every other thread. The count of readers is never
negative, and no increment of the value overflows or is lost. -/
theorem rwlock_exclusion (schedule : List (Action Reader Writer)) (trace : List (Event Reader Writer))
    (ran : (machine loops).run rwlockInit schedule = some (state, trace)) :
    (∀ writer, (state.writers writer).Critical →
      (∀ other, other ≠ writer → ¬(state.writers other).Critical) ∧
        ∀ reader, ¬(state.readers reader).Critical) ∧
    (0 ≤ state.numReaders ∧ state.numReaders ≤ Fintype.card Reader) ∧
    (Fintype.card Writer * loops < 2 ^ 31 →
      (0 ≤ state.value ∧ state.value < 2 ^ 31) ∧
        (state.Finished → state.value = (Fintype.card Writer * loops : Nat))) := by
  obtain ⟨share, holds⟩ := Holds.run ran
  refine ⟨fun writer => holds.excludes, holds.numReaders_bounds, fun small => ⟨?_, holds.value_of_finished⟩⟩
  have bounds := holds.value_bounds
  omega

/-- A writer takes the lock, and then a reader blocks on it with the inner lock held. -/
def readerBlocks : List (Action Unit Unit) :=
  List.replicate 2 (Action.writer ()) ++ List.replicate 5 (Action.reader ())

/-- The writer releases the lock, and both threads finish. -/
def bothFinish : List (Action Unit Unit) :=
  readerBlocks ++ List.replicate 5 (Action.writer ()) ++ List.replicate 10 (Action.reader ())

theorem exists_readerBlocks : ∃ state trace, (machine 1).run rwlockInit readerBlocks = some (state, trace) ∧
    (state.writers ()).pc = .readValue := by
  have blocked : ((machine 1).run rwlockInit readerBlocks).map (fun result => (result.1.writers ()).pc) =
      some .readValue := by decide
  obtain ⟨⟨state, trace⟩, ran, inside⟩ := Option.map_eq_some_iff.mp blocked
  exact ⟨state, trace, ran, inside⟩

theorem exists_bothFinish : ∃ state trace, (machine 1).run rwlockInit bothFinish = some (state, trace) ∧
    state.Finished := by
  have complete : ((machine 1).run rwlockInit bothFinish).map
      (fun result => ((result.1.readers ()).pc, (result.1.writers ()).pc)) = some (.done, .done) := by decide
  obtain ⟨⟨state, trace⟩, ran, ended⟩ := Option.map_eq_some_iff.mp complete
  obtain ⟨reader, writer⟩ := Prod.mk.inj ended
  exact ⟨state, trace, ran, fun _ => reader, fun _ => writer⟩

/-- The blocked reader is excluded, and one increment is the final value. -/
theorem rwlock_reader_blocks :
    (∃ state trace, (machine 1).run rwlockInit readerBlocks = some (state, trace) ∧
      (state.writers ()).Critical ∧ ¬(state.readers ()).Critical) ∧
    ∃ state trace, (machine 1).run rwlockInit bothFinish = some (state, trace) ∧
      state.Finished ∧ state.value = 1 := by
  constructor
  · obtain ⟨state, trace, ran, inside⟩ := exists_readerBlocks
    have critical : (state.writers ()).Critical := by
      rw [WriterState.Critical, inside]
      trivial
    exact ⟨state, trace, ran, critical, ((rwlock_exclusion _ _ ran).1 () critical).2 ()⟩
  · obtain ⟨state, trace, ran, finished⟩ := exists_bothFinish
    exact ⟨state, trace, ran, finished, ((rwlock_exclusion _ _ ran).2.2 (by decide)).2 finished⟩

end Ostep.ReaderWriter
