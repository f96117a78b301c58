import Ostep.Library.Count
import Ostep.Construction.ReaderWriter

namespace Ostep.ReaderWriter

open Library Library.Count

/-- The readers' share of the write lock while nobody changes the count. -/
def held (numReaders : Int) : Nat := if 0 < numReaders then 1 else 0

/-- Away from the edge a change of the count leaves the readers' share as it was. -/
theorem held_sub_change {half : Half} {numReaders : Int} (least : half.edge ≤ numReaders)
    (away : numReaders ≠ half.edge) : held (numReaders - half.change) = held numReaders := by
  cases half with
  | acquire =>
      simp only [Half.edge] at least away
      rw [held, held, if_pos (by simp only [Half.change]; omega), if_pos (by omega)]
  | release =>
      simp only [Half.edge] at least away
      rw [held, held, if_pos (by simp only [Half.change]; omega), if_pos (by omega)]

/-- The reader holds the inner lock. -/
def ReaderState.inner (reader : ReaderState) : Nat := match reader.pc with
  | .readCount _ | .writeCount _ _ | .testCount _ | .changeWriteLock _ | .postLock _ => 1
  | _ => 0

/-- The reader is counted in `num_readers`. -/
def ReaderState.counted (reader : ReaderState) : Nat := match reader.pc with
  | .testCount .acquire | .changeWriteLock .acquire | .postLock .acquire | .reading
  | .waitLock .release | .readCount .release | .writeCount .release _ => 1
  | _ => 0

/-- What the holder of the inner lock knows about the count and about the readers' share of the write lock. -/
def ReaderState.Sound (numReaders : Int) (share : Nat) (reader : ReaderState) : Prop := match reader.pc with
  | .readCount _ | .postLock _ => share = held numReaders
  | .writeCount _ count => count = numReaders ∧ share = held numReaders
  | .testCount half => share = held (numReaders - half.change)
  | .changeWriteLock half => numReaders = half.edge ∧ share = held (numReaders - half.change)
  | _ => True

/-- The writer holds the write lock. -/
def WriterState.holds (writer : WriterState) : Nat := match writer.pc with
  | .readValue | .writeValue _ | .printing | .postWriteLock => 1
  | _ => 0

/-- The increments that the writer has stored. -/
def WriterState.written (writer : WriterState) : Nat := match writer.pc with
  | .printing | .postWriteLock => writer.i + 1
  | _ => writer.i

/-- The value that a writer has read is still there, and the writer is inside its loop. -/
def WriterState.Sound (loops : Nat) (value : Int) (writer : WriterState) : Prop := match writer.pc with
  | .loop => writer.i ≤ loops
  | .writeValue read => read = value ∧ writer.i < loops
  | .done => writer.i = loops
  | _ => writer.i < loops

/-- A reader without the inner lock knows nothing. -/
theorem ReaderState.sound_of_inner {reader : ReaderState} (outside : reader.inner = 0) (numReaders : Int)
    (share : Nat) : reader.Sound numReaders share := by
  rcases reader with ⟨pc, i⟩
  cases pc with
  | readCount half => cases outside
  | writeCount half count => cases outside
  | testCount half => cases outside
  | changeWriteLock half => cases outside
  | postLock half => cases outside
  | _ => trivial

/-- A writer without the write lock knows nothing about the value. -/
theorem WriterState.sound_of_holds {writer : WriterState} {loops : Nat} {value : Int}
    (sound : writer.Sound loops value) (outside : writer.holds = 0) (other : Int) :
    writer.Sound loops other := by
  rcases writer with ⟨pc, i⟩
  cases pc with
  | writeValue read => cases outside
  | _ => exact sound

/-- A writer stores at most one increment for each iteration. -/
theorem WriterState.written_le {writer : WriterState} {loops : Nat} {value : Int}
    (sound : writer.Sound loops value) : writer.written ≤ loops := by
  rcases writer with ⟨pc, i⟩
  cases pc with
  | loop => exact sound
  | writeValue read => exact Nat.le_of_lt sound.2
  | done => exact Nat.le_of_eq sound
  | waitWriteLock => exact Nat.le_of_lt sound
  | readValue => exact Nat.le_of_lt sound
  | printing => exact sound
  | postWriteLock => exact sound

variable {Reader Writer : Type} [Fintype Reader] [Fintype Writer]

/-- One permit of each semaphore is always accounted for: it is free, or one writer has it,
or the readers share it. The variables agree with the positions of the threads. -/
structure Holds (loops : Nat) (state : State Reader Writer) (share : Nat) : Prop where
  inner : state.lock + total ReaderState.inner state.readers = 1
  counted : state.numReaders = total ReaderState.counted state.readers
  readers : ∀ reader, (state.readers reader).Sound state.numReaders share
  rest : state.lock = 1 → share = held state.numReaders
  outer : state.writeLock + total WriterState.holds state.writers + share = 1
  sum : state.value = total WriterState.written state.writers
  writers : ∀ writer, (state.writers writer).Sound loops state.value

variable {loops : Nat} {state : State Reader Writer} {share : Nat}

/-- No other writer holds the write lock. -/
theorem Holds.exclusive (holds : Holds loops state share) {writer other : Writer} (different : other ≠ writer)
    (holder : (state.writers writer).holds = 1) : (state.writers other).holds = 0 :=
  permit_alone ((Nat.add_right_comm ..).trans holds.outer) different holder

/-- A counted reader makes the count positive. -/
theorem Holds.counted_le (holds : Holds loops state share) (reader : Reader) :
    ((state.readers reader).counted : Int) ≤ state.numReaders := by
  have one := le_total ReaderState.counted state.readers reader
  have count := holds.counted
  omega

section Readers

variable [DecidableEq Reader]

/-- A reader changes the count and the share only while it holds the inner lock. -/
theorem Holds.setReader (holds : Holds loops state share) {reader : Reader} {old : ReaderState}
    (current : state.readers reader = old) (next : ReaderState) {lock writeLock : Nat} {numReaders : Int}
    (share' : Nat) (inner : lock + next.inner = state.lock + old.inner)
    (counted : numReaders + old.counted = state.numReaders + next.counted) (sound : next.Sound numReaders share')
    (others : numReaders = state.numReaders ∧ share' = share ∨ old.inner = 1)
    (rest : lock = 1 → share' = held numReaders) (outer : writeLock + share' = state.writeLock + share) :
    Holds loops ⟨lock, writeLock, numReaders, state.value, Function.update state.readers reader next,
      state.writers⟩ share' := by
  subst current
  have innerTotal := total_update ReaderState.inner state.readers reader next
  have countedTotal := total_update ReaderState.counted state.readers reader next
  have permit := holds.inner
  have count := holds.counted
  have writePermit := holds.outer
  refine ⟨?_, ?_, ?_, rest, ?_, holds.sum, holds.writers⟩
  · dsimp only
    omega
  · dsimp only
    omega
  · refine (Function.forall_update_iff state.readers fun _ reader => reader.Sound numReaders share').mpr
      ⟨sound, fun other different => ?_⟩
    rcases others with ⟨rfl, rfl⟩ | holder
    · exact holds.readers other
    · exact ReaderState.sound_of_inner (permit_alone holds.inner different holder) numReaders share'
  · dsimp only
    omega

/-- Most accesses of a reader leave the count and the write lock alone. -/
theorem Holds.passReader (holds : Holds loops state share) {reader : Reader} {old : ReaderState}
    (current : state.readers reader = old) (next : ReaderState) (inner : next.inner = old.inner)
    (counted : next.counted = old.counted) (sound : next.Sound state.numReaders share) :
    Holds loops (state.setReader reader next) share :=
  holds.setReader current next share (by rw [inner]) (by rw [counted]) sound (Or.inl ⟨rfl, rfl⟩) holds.rest rfl

/-- Each access of a reader keeps the accounts. -/
theorem Holds.reader (holds : Holds loops state share) {reader : Reader} {next : State Reader Writer}
    {events : List (Event Reader Writer)} (stepped : readerStep loops state reader = some (next, events)) :
    ∃ share', Holds loops next share' := by
  have sound := holds.readers reader
  have counted := holds.counted_le reader
  have permit := holds.inner
  have locked (holder : (state.readers reader).inner = 1) : state.lock = 0 := permit_taken holds.inner holder
  rcases current : state.readers reader with ⟨pc, i⟩
  rw [current] at sound counted locked
  simp only [readerStep, current] at stepped
  cases pc with
  | loop =>
      obtain ⟨rfl, -⟩ := Prod.mk.inj (Option.some.inj stepped)
      by_cases more : i < loops
      · rw [if_pos more]
        exact ⟨share, holds.passReader current _ rfl rfl trivial⟩
      · rw [if_neg more]
        exact ⟨share, holds.passReader current _ rfl rfl trivial⟩
  | waitLock half =>
      simp only [Option.ite_none_right_eq_some, Option.some.injEq, Prod.mk.injEq] at stepped
      obtain ⟨free, rfl, -⟩ := stepped
      have whole : state.lock = 1 := by omega
      -- The permit that the reader takes comes with the resting share.
      exact ⟨share, holds.setReader current ⟨.readCount half, i⟩ share (by rw [whole]; rfl)
        (by cases half <;> rfl) (holds.rest whole) (Or.inl ⟨rfl, rfl⟩) (fun _ => holds.rest whole) rfl⟩
  | readCount half =>
      obtain ⟨rfl, -⟩ := Prod.mk.inj (Option.some.inj stepped)
      exact ⟨share, holds.passReader current _ rfl (by cases half <;> rfl) ⟨rfl, sound⟩⟩
  | writeCount half count =>
      obtain ⟨rfl, -⟩ := Prod.mk.inj (Option.some.inj stepped)
      obtain ⟨rfl, shared⟩ := sound
      refine ⟨share, holds.setReader current ⟨.testCount half, i⟩ share rfl ?_ ?_ (Or.inr rfl)
        (fun free => nomatch (locked rfl).symm.trans free) rfl⟩
      · cases half <;> simp [Half.change, ReaderState.counted]
      · simpa [ReaderState.Sound] using shared
  | testCount half =>
      obtain ⟨rfl, -⟩ := Prod.mk.inj (Option.some.inj stepped)
      by_cases edge : state.numReaders = half.edge
      · rw [if_pos edge]
        exact ⟨share, holds.passReader current _ rfl (by cases half <;> rfl) ⟨edge, sound⟩⟩
      · rw [if_neg edge]
        have least : half.edge ≤ state.numReaders := by
          cases half <;> exact counted
        exact ⟨share, holds.passReader current _ rfl (by cases half <;> rfl)
          (sound.trans (held_sub_change least edge))⟩
  | changeWriteLock half =>
      obtain ⟨edge, shared⟩ := sound
      rw [edge] at shared
      cases half with
      | acquire =>
          simp only [Option.ite_none_right_eq_some, Option.some.injEq, Prod.mk.injEq] at stepped
          obtain ⟨free, rfl, -⟩ := stepped
          -- The first reader takes the permit for all readers.
          have nobody : share = 0 := shared
          refine ⟨1, holds.setReader current ⟨.postLock .acquire, i⟩ 1 rfl rfl ?_ (Or.inr rfl)
            (fun free => nomatch (locked rfl).symm.trans free) (by omega)⟩
          exact (congrArg held edge).symm
      | release =>
          obtain ⟨rfl, -⟩ := Prod.mk.inj (Option.some.inj stepped)
          -- The last reader gives it back.
          have one : share = 1 := shared
          refine ⟨0, holds.setReader current ⟨.postLock .release, i⟩ 0 rfl rfl ?_ (Or.inr rfl)
            (fun free => nomatch (locked rfl).symm.trans free) (by rw [one])⟩
          exact (congrArg held edge).symm
  | postLock half =>
      cases half with
      | acquire =>
          obtain ⟨rfl, -⟩ := Prod.mk.inj (Option.some.inj stepped)
          exact ⟨share, holds.setReader current ⟨.reading, i⟩ share rfl rfl trivial (Or.inl ⟨rfl, rfl⟩)
            (fun _ => sound) rfl⟩
      | release =>
          obtain ⟨rfl, -⟩ := Prod.mk.inj (Option.some.inj stepped)
          exact ⟨share, holds.setReader current ⟨.loop, i + 1⟩ share rfl rfl trivial (Or.inl ⟨rfl, rfl⟩)
            (fun _ => sound) rfl⟩
  | reading =>
      obtain ⟨rfl, -⟩ := Prod.mk.inj (Option.some.inj stepped)
      exact ⟨share, holds.passReader current _ rfl rfl trivial⟩
  | done => cases stepped

end Readers

section Writers

variable [DecidableEq Writer]

/-- A writer changes the value only while it holds the write lock. -/
theorem Holds.setWriter (holds : Holds loops state share) {writer : Writer} {old : WriterState}
    (current : state.writers writer = old) (next : WriterState) {writeLock : Nat} {value : Int}
    (outer : writeLock + next.holds = state.writeLock + old.holds)
    (sum : value + old.written = state.value + next.written)
    (sound : next.Sound loops value) (others : value = state.value ∨ old.holds = 1) :
    Holds loops ⟨state.lock, writeLock, state.numReaders, value, state.readers,
      Function.update state.writers writer next⟩ share := by
  subst current
  have heldTotal := total_update WriterState.holds state.writers writer next
  have writtenTotal := total_update WriterState.written state.writers writer next
  have permit := holds.outer
  have written := holds.sum
  refine ⟨holds.inner, holds.counted, holds.readers, holds.rest, ?_, ?_, ?_⟩
  · dsimp only
    omega
  · dsimp only
    omega
  · refine (Function.forall_update_iff state.writers fun _ writer => writer.Sound loops value).mpr
      ⟨sound, fun other different => ?_⟩
    rcases others with rfl | holder
    · exact holds.writers other
    · exact WriterState.sound_of_holds (holds.writers other) (holds.exclusive different holder) value

/-- Each access of a writer keeps the accounts. -/
theorem Holds.writer (holds : Holds loops state share) {writer : Writer} {next : State Reader Writer}
    {events : List (Event Reader Writer)} (stepped : writerStep loops state writer = some (next, events)) :
    Holds loops next share := by
  have sound := holds.writers writer
  rcases current : state.writers writer with ⟨pc, i⟩
  rw [current] at sound
  simp only [writerStep, current] at stepped
  cases pc with
  | loop =>
      obtain ⟨rfl, -⟩ := Prod.mk.inj (Option.some.inj stepped)
      by_cases more : i < loops
      · rw [if_pos more]
        exact holds.setWriter current ⟨.waitWriteLock, i⟩ rfl rfl more (Or.inl rfl)
      · rw [if_neg more]
        exact holds.setWriter current ⟨.done, i⟩ rfl rfl (Nat.le_antisymm sound (Nat.le_of_not_lt more))
          (Or.inl rfl)
  | waitWriteLock =>
      simp only [Option.ite_none_right_eq_some, Option.some.injEq, Prod.mk.injEq] at stepped
      obtain ⟨free, rfl, -⟩ := stepped
      exact holds.setWriter current ⟨.readValue, i⟩ (Nat.sub_add_cancel free) rfl sound (Or.inl rfl)
  | readValue =>
      obtain ⟨rfl, -⟩ := Prod.mk.inj (Option.some.inj stepped)
      exact holds.setWriter current ⟨.writeValue state.value, i⟩ rfl rfl ⟨rfl, sound⟩ (Or.inl rfl)
  | writeValue value =>
      obtain ⟨rfl, -⟩ := Prod.mk.inj (Option.some.inj stepped)
      obtain ⟨rfl, more⟩ := sound
      refine holds.setWriter current ⟨.printing, i⟩ rfl ?_ more (Or.inr rfl)
      simp only [WriterState.written]
      omega
  | printing =>
      obtain ⟨rfl, -⟩ := Prod.mk.inj (Option.some.inj stepped)
      exact holds.setWriter current ⟨.postWriteLock, i⟩ rfl rfl sound (Or.inl rfl)
  | postWriteLock =>
      obtain ⟨rfl, -⟩ := Prod.mk.inj (Option.some.inj stepped)
      exact holds.setWriter current ⟨.loop, i + 1⟩ rfl rfl sound (Or.inl rfl)
  | done => cases stepped

end Writers

/-- The accounts balance before any thread runs. -/
theorem rwlockInit_holds : Holds loops (rwlockInit : State Reader Writer) 0 where
  inner := congrArg (1 + ·) (total_eq_zero fun _ => rfl)
  counted := (congrArg Nat.cast (total_eq_zero fun _ => rfl)).symm
  readers _ := trivial
  rest _ := rfl
  outer := congrArg (1 + · + 0) (total_eq_zero fun _ => rfl)
  sum := (congrArg Nat.cast (total_eq_zero fun _ => rfl)).symm
  writers _ := Nat.zero_le loops

/-- The accounts balance along every interleaving. -/
theorem Holds.run [DecidableEq Reader] [DecidableEq Writer] {schedule : List (Action Reader Writer)}
    {trace : List (Event Reader Writer)} (ran : (machine loops).run rwlockInit schedule = some (state, trace)) :
    ∃ share, Holds loops state share := by
  refine (machine loops).run_invariant (fun _ reached => ∃ share, Holds loops reached share) ?_
    ⟨0, rwlockInit_holds⟩ ran
  rintro past reached action next events ⟨share, holds⟩ stepped
  cases action with
  | reader reader => exact holds.reader stepped
  | writer writer => exact ⟨share, holds.writer stepped⟩

end Ostep.ReaderWriter
