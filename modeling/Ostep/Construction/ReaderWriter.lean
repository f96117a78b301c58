/-
This file models the reader-writer lock built from two semaphores, and the threads that use it.
Each semaphore operation and each access to a shared variable is one step.
-/

import Mathlib.Logic.Function.Basic
import Ostep.Library.Machine

namespace Ostep.ReaderWriter

open Library

/-- A reader acquires or releases the lock. -/
inductive Half where
  | acquire
  | release
  deriving Repr, DecidableEq

/-- Acquiring increments `num_readers` and releasing decrements it. -/
def Half.change : Half → Int
  | .acquire => 1
  | .release => -1

/-- The write lock changes hands at the first reader that arrives and at the last one that leaves. -/
def Half.edge : Half → Int
  | .acquire => 1
  | .release => 0

/-- The next access of a reader. -/
inductive ReaderPc where
  | loop
  | waitLock (half : Half)
  | readCount (half : Half)
  | writeCount (half : Half) (count : Int)
  | testCount (half : Half)
  | changeWriteLock (half : Half)
  | postLock (half : Half)
  | reading
  | done
  deriving Repr, DecidableEq

/-- The next access of a writer. -/
inductive WriterPc where
  | loop
  | waitWriteLock
  | readValue
  | writeValue (value : Int)
  | printing
  | postWriteLock
  | done
  deriving Repr, DecidableEq

/-- A thread counts its finished iterations. -/
structure ReaderState where
  pc : ReaderPc
  i : Nat
  deriving Repr, DecidableEq

structure WriterState where
  pc : WriterPc
  i : Nat
  deriving Repr, DecidableEq

/-- The semaphores hold their values. The shared variables are unbounded here. -/
structure State (Reader Writer : Type) where
  lock : Nat
  writeLock : Nat
  numReaders : Int
  value : Int
  readers : Reader → ReaderState
  writers : Writer → WriterState

/-- The threads print what they read and what they wrote. -/
inductive Event (Reader Writer : Type) where
  | read (reader : Reader) (value : Int)
  | write (writer : Writer) (value : Int)
  deriving Repr, DecidableEq

inductive Action (Reader Writer : Type) where
  | reader (reader : Reader)
  | writer (writer : Writer)
  deriving Repr, DecidableEq

variable {Reader Writer : Type} [DecidableEq Reader] [DecidableEq Writer]

/-- The reader continues at another access. -/
def State.setReader (state : State Reader Writer) (reader : Reader) (next : ReaderState) : State Reader Writer :=
  { state with readers := Function.update state.readers reader next }

/-- The writer continues at another access. -/
def State.setWriter (state : State Reader Writer) (writer : Writer) (next : WriterState) : State Reader Writer :=
  { state with writers := Function.update state.writers writer next }

/-- One access of a reader. A wait blocks while its semaphore is zero. -/
def readerStep (loops : Nat) (state : State Reader Writer) (reader : Reader) :
    Option (State Reader Writer × List (Event Reader Writer)) :=
  let i := (state.readers reader).i
  match (state.readers reader).pc with
  | .loop => some (state.setReader reader ⟨if i < loops then .waitLock .acquire else .done, i⟩, [])
  | .waitLock half =>
      if 0 < state.lock then
        some ({ state.setReader reader ⟨.readCount half, i⟩ with lock := state.lock - 1 }, [])
      else none
  | .readCount half => some (state.setReader reader ⟨.writeCount half state.numReaders, i⟩, [])
  | .writeCount half count =>
      some ({ state.setReader reader ⟨.testCount half, i⟩ with numReaders := count + half.change }, [])
  | .testCount half =>
      some (state.setReader reader
        ⟨if state.numReaders = half.edge then .changeWriteLock half else .postLock half, i⟩, [])
  | .changeWriteLock .acquire =>
      if 0 < state.writeLock then
        some ({ state.setReader reader ⟨.postLock .acquire, i⟩ with writeLock := state.writeLock - 1 }, [])
      else none
  | .changeWriteLock .release =>
      some ({ state.setReader reader ⟨.postLock .release, i⟩ with writeLock := state.writeLock + 1 }, [])
  | .postLock .acquire => some ({ state.setReader reader ⟨.reading, i⟩ with lock := state.lock + 1 }, [])
  | .postLock .release => some ({ state.setReader reader ⟨.loop, i + 1⟩ with lock := state.lock + 1 }, [])
  | .reading => some (state.setReader reader ⟨.waitLock .release, i⟩, [.read reader state.value])
  | .done => none

/-- One access of a writer. -/
def writerStep (loops : Nat) (state : State Reader Writer) (writer : Writer) :
    Option (State Reader Writer × List (Event Reader Writer)) :=
  let i := (state.writers writer).i
  match (state.writers writer).pc with
  | .loop => some (state.setWriter writer ⟨if i < loops then .waitWriteLock else .done, i⟩, [])
  | .waitWriteLock =>
      if 0 < state.writeLock then
        some ({ state.setWriter writer ⟨.readValue, i⟩ with writeLock := state.writeLock - 1 }, [])
      else none
  | .readValue => some (state.setWriter writer ⟨.writeValue state.value, i⟩, [])
  | .writeValue value => some ({ state.setWriter writer ⟨.printing, i⟩ with value := value + 1 }, [])
  | .printing => some (state.setWriter writer ⟨.postWriteLock, i⟩, [.write writer state.value])
  | .postWriteLock =>
      some ({ state.setWriter writer ⟨.loop, i + 1⟩ with writeLock := state.writeLock + 1 }, [])
  | .done => none

/-- Readers and writers interleave. -/
def machine (loops : Nat) : Machine (State Reader Writer) (Action Reader Writer) (Event Reader Writer) where
  step state
    | .reader reader => readerStep loops state reader
    | .writer writer => writerStep loops state writer

/-- The state after `rwlock_init`, before any thread runs. -/
def rwlockInit : State Reader Writer where
  lock := 1
  writeLock := 1
  numReaders := 0
  value := 0
  readers := fun _ => ⟨.loop, 0⟩
  writers := fun _ => ⟨.loop, 0⟩

/-- The reader has returned from its acquire and has not started its release. -/
def ReaderState.Critical (reader : ReaderState) : Prop := reader.pc = .reading ∨ reader.pc = .waitLock .release

/-- The writer has returned from its acquire and has not finished its release. -/
def WriterState.Critical (writer : WriterState) : Prop := match writer.pc with
  | .readValue | .writeValue _ | .printing | .postWriteLock => True
  | _ => False

/-- All threads have left their loops. -/
def State.Finished (state : State Reader Writer) : Prop :=
  (∀ reader, (state.readers reader).pc = .done) ∧ ∀ writer, (state.writers writer).pc = .done

end Ostep.ReaderWriter
