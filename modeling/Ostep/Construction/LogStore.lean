/-
This file models the log-structured store and the interleaving of a clean with other threads.
-/

import Mathlib.Data.Finset.Card
import Ostep.Library.Machine

namespace Ostep.LogStore

open Library

structure Entry where
  key : Int
  value : Int
  deriving DecidableEq

/-- The arrays `buffer` and `imap` have `capacity` and `keyRange` entries. -/
structure Store where
  buffer : Int → Entry
  imap : Int → Int
  head : Int
  capacity : Int
  keyRange : Int

def readBuffer (store : Store) (index : Int) : Option Entry :=
  if 0 ≤ index ∧ index < store.capacity then some (store.buffer index) else none

def readImap (store : Store) (key : Int) : Option Int :=
  if 0 ≤ key ∧ key < store.keyRange then some (store.imap key) else none

/-- A write past an array of the given length fails. -/
def writeArray {α : Type} (length : Int) (array : Int → α) (index : Int) (value : α) : Option (Int → α) :=
  if 0 ≤ index ∧ index < length then some (Function.update array index value) else none

def logstoreCreate (capacity keyRange : Int) : Store where
  buffer := fun _ => ⟨0, 0⟩
  imap := fun _ => -1
  head := 0
  capacity := capacity
  keyRange := keyRange

def logstorePut (store : Store) (key value : Int) : Option Store := do
  let buffer ← writeArray store.capacity store.buffer store.head ⟨key, value⟩
  let imap ← writeArray store.keyRange store.imap key store.head
  return { store with buffer, imap, head := store.head + 1 }

def logstoreGet (store : Store) (key : Int) : Option Int := do
  let bufferOffset ← readImap store key
  if bufferOffset < 0 then
    return -1
  else
    let entry ← readBuffer store bufferOffset
    return entry.value

/-- The local variables of a clean that is in its loop. -/
structure Copy where
  newBuffer : Int → Entry
  newImap : Int → Int
  newHead : Int

/-- The test reads the factor `0.8` as the rational number four fifths. -/
def belowThreshold (store : Store) : Bool := 5 * store.head < 4 * store.capacity

/-- The new buffer comes from `malloc` and starts with arbitrary memory. -/
def cleanStart (memory : Int → Entry) : Copy where
  newBuffer := memory
  newImap := fun _ => -1
  newHead := 0

/-- One iteration of the loop of `logstore_clean`. -/
def cleanCopy (store : Store) (key : Int) (copy : Copy) : Option Copy := do
  let offset ← readImap store key
  if offset ≥ 0 then
    let entry ← readBuffer store offset
    let newBuffer ← writeArray store.capacity copy.newBuffer copy.newHead entry
    let newImap ← writeArray store.keyRange copy.newImap key copy.newHead
    return { newBuffer, newImap, newHead := copy.newHead + 1 }
  else
    return copy

/-- The pointers are switched under the write lock. -/
def cleanSwitch (store : Store) (copy : Copy) : Store :=
  { store with buffer := copy.newBuffer, imap := copy.newImap, head := copy.newHead }

/-- The loop has run for the keys below the given bound. -/
def cleanLoop (store : Store) (copy : Copy) : Nat → Option Copy
  | 0 => some copy
  | bound + 1 => (cleanLoop store copy bound).bind (cleanCopy store bound)

def logstoreClean (memory : Int → Entry) (store : Store) : Option Store :=
  if belowThreshold store then some store
  else (cleanLoop store (cleanStart memory) store.keyRange.toNat).map (cleanSwitch store)

inductive Call where
  | put (key value : Int)
  | get (key : Int)
  | clean (memory : Int → Entry)

/-- The single-threaded machine runs whole calls and reports what each get returns. -/
def machine : Machine Store Call Int where
  step store
    | .put key value => (logstorePut store key value).map fun next => (next, [])
    | .get key => (logstoreGet store key).map fun value => (store, [value])
    | .clean memory => (logstoreClean memory store).map fun next => (next, [])

/-- The callers use keys of the store and put only below its capacity. -/
def Allowed (store : Store) : Call → Prop
  | .put key _ => 0 ≤ key ∧ key < store.keyRange ∧ store.head < store.capacity
  | .get key => 0 ≤ key ∧ key < store.keyRange
  | .clean _ => True

instance (store : Store) : (call : Call) → Decidable (Allowed store call)
  | .put _ _ => inferInstanceAs (Decidable (_ ∧ _))
  | .get _ => inferInstanceAs (Decidable (_ ∧ _))
  | .clean _ => inferInstanceAs (Decidable True)

/-- The value of the most recent put of a key. -/
def latest (puts : List (Int × Int)) (key : Int) : Option Int :=
  (puts.reverse.find? fun put => put.1 = key).map Prod.snd

/-- The distinct keys that were put. -/
def keysPut (puts : List (Int × Int)) : Finset Int := (puts.map Prod.fst).toFinset

/-- The log of a cleaned store has one entry for each key that was put, in increasing key order and with the latest
value, and the imap gives the position of each of them. -/
structure Compacts (puts : List (Int × Int)) (store cleaned : Store) : Prop where
  head : cleaned.head = (keysPut puts).card
  ordered : ∀ first second, 0 ≤ first → first < second → second < cleaned.head →
    (cleaned.buffer first).key < (cleaned.buffer second).key
  entries : ∀ index, 0 ≤ index → index < cleaned.head →
    (cleaned.buffer index).key ∈ keysPut puts ∧
      latest puts (cleaned.buffer index).key = some (cleaned.buffer index).value
  positions : ∀ key ∈ keysPut puts,
    0 ≤ cleaned.imap key ∧ cleaned.imap key < cleaned.head ∧ (cleaned.buffer (cleaned.imap key)).key = key
  others : ∀ key, 0 ≤ key → key < store.keyRange → key ∉ keysPut puts → cleaned.imap key = -1
  shrinks : cleaned.head ≤ store.head

/-- Two stores have the same log, imap and head. -/
structure SameLog (first second : Store) : Prop where
  head : second.head = first.head
  imap : ∀ key, 0 ≤ key → key < first.keyRange → second.imap key = first.imap key
  buffer : ∀ index, 0 ≤ index → index < first.head → second.buffer index = first.buffer index

def Call.written : Call → Option (Int × Int)
  | .put key value => some (key, value)
  | _ => none

/-- The keys of puts and gets are keys of the store. -/
def ValidKey (keyRange : Int) : Call → Prop
  | .put key _ | .get key => 0 ≤ key ∧ key < keyRange
  | .clean _ => True

instance (keyRange : Int) : (call : Call) → Decidable (ValidKey keyRange call)
  | .put _ _ | .get _ => inferInstanceAs (Decidable (_ ∧ _))
  | .clean _ => inferInstanceAs (Decidable True)

/-- Every call so far stayed inside the arrays, and the head never passed the capacity. -/
def InBounds (capacity keyRange : Int) (calls : List Call) : Prop :=
  ∀ before, before <+: calls → ∃ store replies,
    machine.run (logstoreCreate capacity keyRange) before = some (store, replies) ∧
      0 ≤ store.head ∧ store.head ≤ capacity

/-- The length of the log and the keys in it, as far as the calls determine them. -/
structure Usage where
  entries : Int
  keys : Finset Int

/-- Every put takes an entry. A clean above the threshold leaves one entry for each key. -/
def Usage.next (capacity : Int) (usage : Usage) : Call → Usage
  | .put key _ => ⟨usage.entries + 1, insert key usage.keys⟩
  | .get _ => usage
  | .clean _ => if 5 * usage.entries < 4 * capacity then usage else { usage with entries := usage.keys.card }

def usage (capacity : Int) (calls : List Call) : Usage := calls.foldl (Usage.next capacity) ⟨0, ∅⟩

/-- Every put of the sequence comes before the log is full. -/
def LeavesRoom (capacity : Int) (calls : List Call) : Prop :=
  ∀ before key value after, calls = before ++ .put key value :: after → (usage capacity before).entries < capacity

/-- A clean is idle or has read the keys below its loop index. -/
inductive Cleaner where
  | idle
  | copying (key : Int) (copy : Copy)

structure Shared where
  store : Store
  cleaner : Cleaner

/-- Puts and gets hold the lock; a clean takes its steps outside the lock until the switch. -/
inductive Action where
  | put (key value : Int)
  | get (key : Int)
  | testThreshold (memory : Int → Entry)
  | copy
  | switch

def sharedStep (shared : Shared) : Action → Option (Shared × List (Int × Int))
  | .put key value => (logstorePut shared.store key value).map fun store => ({ shared with store }, [])
  | .get key => (logstoreGet shared.store key).map fun value => (shared, [(key, value)])
  | .testThreshold memory =>
      match shared.cleaner with
      | .idle =>
          some ({ shared with
            cleaner := if belowThreshold shared.store then .idle else .copying 0 (cleanStart memory) }, [])
      | .copying _ _ => none
  | .copy =>
      match shared.cleaner with
      | .copying key copy =>
          if key < shared.store.keyRange then
            (cleanCopy shared.store key copy).map fun next =>
              ({ shared with cleaner := .copying (key + 1) next }, [])
          else none
      | .idle => none
  | .switch =>
      match shared.cleaner with
      | .copying key copy =>
          if key < shared.store.keyRange then none
          else some ({ store := cleanSwitch shared.store copy, cleaner := .idle }, [])
      | .idle => none

/-- The machine interleaves one clean at a time with puts and gets of other threads. -/
def sharedMachine : Machine Shared Action (Int × Int) where
  step := sharedStep

def sharedStart (capacity keyRange : Int) : Shared := ⟨logstoreCreate capacity keyRange, .idle⟩

/-- The other threads use keys of the store and put only below its capacity. -/
def SharedAllowed (shared : Shared) : Action → Prop
  | .put key _ => 0 ≤ key ∧ key < shared.store.keyRange ∧ shared.store.head < shared.store.capacity
  | .get key => 0 ≤ key ∧ key < shared.store.keyRange
  | _ => True

/-- A running clean has not read the key yet. -/
def Cleaner.Unread (key : Int) : Cleaner → Prop
  | .copying next _ => next ≤ key
  | .idle => True

/-- A put during a clean goes to a key that the clean has not read yet. -/
def PutAhead (shared : Shared) : Action → Prop
  | .put key _ => shared.cleaner.Unread key
  | _ => True

instance (shared : Shared) : (action : Action) → Decidable (SharedAllowed shared action)
  | .put _ _ => inferInstanceAs (Decidable (_ ∧ _))
  | .get _ => inferInstanceAs (Decidable (_ ∧ _))
  | .testThreshold _ | .copy | .switch => inferInstanceAs (Decidable True)

instance (key : Int) : (cleaner : Cleaner) → Decidable (cleaner.Unread key)
  | .copying next _ => inferInstanceAs (Decidable (next ≤ key))
  | .idle => inferInstanceAs (Decidable True)

instance (shared : Shared) : (action : Action) → Decidable (PutAhead shared action)
  | .put key _ => inferInstanceAs (Decidable (shared.cleaner.Unread key))
  | .get _ | .testThreshold _ | .copy | .switch => inferInstanceAs (Decidable True)

def Action.written : Action → Option (Int × Int)
  | .put key value => some (key, value)
  | _ => none

end Ostep.LogStore
