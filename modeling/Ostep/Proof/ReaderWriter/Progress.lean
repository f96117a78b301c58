import Ostep.Proof.ReaderWriter.Exclusion

namespace Ostep.ReaderWriter

open Library Library.Count

variable {Reader Writer : Type}

section Blocked

variable {loops : Nat} {state : State Reader Writer}

/-- A reader that cannot step has finished or waits for a semaphore at zero. -/
theorem blocked_of_readerStep [DecidableEq Reader] {reader : Reader}
    (stuck : readerStep loops state reader = none) :
    (state.readers reader).pc = .done ∨ (∃ half, (state.readers reader).pc = .waitLock half) ∧ state.lock = 0 ∨
      (state.readers reader).pc = .changeWriteLock .acquire ∧ state.writeLock = 0 := by
  rcases current : state.readers reader with ⟨pc, i⟩
  simp only [readerStep, current] at stuck
  cases pc with
  | waitLock half =>
      rw [ite_eq_right_iff] at stuck
      refine Or.inr (Or.inl ⟨⟨half, rfl⟩, ?_⟩)
      by_contra free
      cases stuck (Nat.pos_of_ne_zero free)
  | changeWriteLock half =>
      cases half with
      | acquire =>
          rw [ite_eq_right_iff] at stuck
          refine Or.inr (Or.inr ⟨rfl, ?_⟩)
          by_contra free
          cases stuck (Nat.pos_of_ne_zero free)
      | release => cases stuck
  | postLock half =>
      cases half with
      | acquire => cases stuck
      | release => cases stuck
  | done => exact Or.inl rfl
  | _ => cases stuck

/-- A writer that cannot step has finished or waits for the write lock. -/
theorem blocked_of_writerStep [DecidableEq Writer] {writer : Writer}
    (stuck : writerStep loops state writer = none) :
    (state.writers writer).pc = .done ∨
      (state.writers writer).pc = .waitWriteLock ∧ state.writeLock = 0 := by
  rcases current : state.writers writer with ⟨pc, i⟩
  simp only [writerStep, current] at stuck
  cases pc with
  | waitWriteLock =>
      rw [ite_eq_right_iff] at stuck
      refine Or.inr ⟨rfl, ?_⟩
      by_contra free
      cases stuck (Nat.pos_of_ne_zero free)
  | done => exact Or.inl rfl
  | _ => cases stuck

end Blocked

/-- No writer that is stuck holds the write lock. -/
theorem total_holds_eq_zero [Fintype Writer] {writers : Writer → WriterState}
    (stuck : ∀ writer, (writers writer).pc = .done ∨ (writers writer).pc = .waitWriteLock) :
    total WriterState.holds writers = 0 := by
  apply total_eq_zero
  intro writer
  rcases stuck writer with done | waits
  · simp only [WriterState.holds, done]
  · simp only [WriterState.holds, waits]

variable [Fintype Reader] [Fintype Writer] {loops : Nat} {state : State Reader Writer} {share : Nat}

/-- The readers have given everything back when they have finished. -/
theorem Holds.readers_done (holds : Holds loops state share)
    (finished : ∀ reader, (state.readers reader).pc = .done) :
    state.lock = 1 ∧ state.numReaders = 0 ∧ share = 0 := by
  have inner : total ReaderState.inner state.readers = 0 :=
    total_eq_zero fun reader => by simp only [ReaderState.inner, finished reader]
  have counted : total ReaderState.counted state.readers = 0 :=
    total_eq_zero fun reader => by simp only [ReaderState.counted, finished reader]
  have permit := holds.inner
  have count := holds.counted
  have free : state.lock = 1 := by omega
  have nobody : state.numReaders = 0 := by omega
  refine ⟨free, nobody, ?_⟩
  rw [holds.rest free, nobody]
  rfl

variable [DecidableEq Reader] [DecidableEq Writer]

/-- A state in which no thread can step is the end of all threads. -/
theorem Holds.finished_of_stuck (holds : Holds loops state share)
    (stuck : ∀ action, (machine loops).step state action = none) : state.Finished := by
  have writerStuck (writer : Writer) := blocked_of_writerStep (stuck (.writer writer))
  have readerStuck (reader : Reader) := blocked_of_readerStep (stuck (.reader reader))
  have unheld := total_holds_eq_zero fun writer => (writerStuck writer).imp_right And.left
  have writePermit := holds.outer
  -- A first reader waits for the write lock only while a writer has it.
  have notFirst (reader : Reader) :
      ¬((state.readers reader).pc = .changeWriteLock .acquire ∧ state.writeLock = 0) := by
    rintro ⟨first, taken⟩
    have sound := holds.readers reader
    simp only [ReaderState.Sound, first] at sound
    obtain ⟨edge, shared⟩ := sound
    rw [edge] at shared
    change share = 0 at shared
    omega
  have outside (reader : Reader) : (state.readers reader).inner = 0 := by
    rcases readerStuck reader with done | ⟨⟨half, waits⟩, -⟩ | first
    · simp only [ReaderState.inner, done]
    · simp only [ReaderState.inner, waits]
    · exact absurd first (notFirst reader)
  have free : state.lock = 1 := by
    have permit := holds.inner
    rw [total_eq_zero outside] at permit
    exact permit
  have readersDone (reader : Reader) : (state.readers reader).pc = .done := by
    rcases readerStuck reader with done | ⟨-, taken⟩ | first
    · exact done
    · omega
    · exact absurd first (notFirst reader)
  obtain ⟨-, -, given⟩ := holds.readers_done readersDone
  refine ⟨readersDone, fun writer => ?_⟩
  rcases writerStuck writer with done | ⟨-, taken⟩
  · exact done
  · omega

/-- In every interleaving the threads have finished or one of them can step. Afterwards the lock is free. -/
theorem rwlock_never_stuck (schedule : List (Action Reader Writer)) (trace : List (Event Reader Writer))
    (ran : (machine loops).run rwlockInit schedule = some (state, trace)) :
    (state.Finished ∨ ∃ action, (machine loops).Enabled state action) ∧
    (state.Finished → state.lock = 1 ∧ state.writeLock = 1 ∧ state.numReaders = 0) := by
  obtain ⟨share, holds⟩ := Holds.run ran
  constructor
  · by_contra neither
    rw [not_or, not_exists] at neither
    obtain ⟨unfinished, disabled⟩ := neither
    apply unfinished
    apply holds.finished_of_stuck
    intro action
    exact Option.not_isSome_iff_eq_none.mp (disabled action)
  · intro finished
    obtain ⟨free, nobody, given⟩ := holds.readers_done finished.1
    have unheld := total_holds_eq_zero fun writer => Or.inl (finished.2 writer)
    have writePermit := holds.outer
    exact ⟨free, by omega, nobody⟩

/-- A blocked reader waits for a writer that can step. Both threads finish later, and both semaphores are free. -/
theorem rwlock_writer_steps :
    (∃ state trace, (machine 1).run rwlockInit readerBlocks = some (state, trace) ∧
      ∃ action, (machine 1).Enabled state action) ∧
    ∃ state trace, (machine 1).run rwlockInit bothFinish = some (state, trace) ∧ state.Finished ∧
      state.lock = 1 ∧ state.writeLock = 1 ∧ state.numReaders = 0 := by
  constructor
  · obtain ⟨state, trace, ran, inside⟩ := exists_readerBlocks
    refine ⟨state, trace, ran, (rwlock_never_stuck _ _ ran).1.resolve_left fun finished => ?_⟩
    rw [finished.2 ()] at inside
    cases inside
  · obtain ⟨state, trace, ran, finished⟩ := exists_bothFinish
    exact ⟨state, trace, ran, finished, (rwlock_never_stuck _ _ ran).2 finished⟩

end Ostep.ReaderWriter
