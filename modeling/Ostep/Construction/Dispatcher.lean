/-
This file models the dispatcher of subscriptions and the multiset of subscriptions that it stands for.
Each locked section is one step. A publish invokes the callbacks that it has copied after its locked section,
and a callback may call the dispatcher again.
-/

import Mathlib.Data.Fin.VecNotation
import Mathlib.Data.Multiset.Filter
import Ostep.Library.Machine

namespace Ostep.Dispatcher

open Library

def maxSubs : Nat := 16

structure Subscriber (Cb Ctx : Type) where
  active : Bool
  topic : BitVec 32
  cb : Cb
  ctx : Ctx

abbrev Subs (Cb Ctx : Type) := Fin maxSubs → Subscriber Cb Ctx

variable {Thread Cb Ctx : Type} [DecidableEq Thread] [DecidableEq Cb] [DecidableEq Ctx]

/-- The loop of `subscribe` stops at the first slot that is not active. -/
def findSlot (subs : Subs Cb Ctx) : Option (Fin maxSubs) :=
  (List.finRange maxSubs).find? fun i => !(subs i).active

/-- The arguments are valid when none of the pointers is null. -/
def subscribe (valid : Bool) (subs : Subs Cb Ctx) (topic : BitVec 32) (cb : Cb) (ctx : Ctx) : Int × Subs Cb Ctx :=
  if !valid then (-1, subs)
  else
    match findSlot subs with
    | some i => (0, Function.update subs i ⟨true, topic, cb, ctx⟩)
    | none => (-2, subs)

/-- The test of the loop of `unsubscribe`. -/
def isSub (cb : Cb) (ctx : Ctx) (sub : Subscriber Cb Ctx) : Bool := sub.cb = cb && sub.ctx = ctx && sub.active

def unsubscribe (valid : Bool) (subs : Subs Cb Ctx) (cb : Cb) (ctx : Ctx) : Int × Subs Cb Ctx :=
  if !valid then (-1, subs)
  else
    (if (List.finRange maxSubs).any fun i => isSub cb ctx (subs i) then 0 else -2,
      fun i => if isSub cb ctx (subs i) then { subs i with active := false } else subs i)

/-- The callbacks and contexts that `publish` copies under the lock. -/
def snapshot (subs : Subs Cb Ctx) (topic : BitVec 32) : List (Cb × Ctx) :=
  ((List.finRange maxSubs).filter fun i => (subs i).active && (subs i).topic = topic).map fun i =>
    ((subs i).cb, (subs i).ctx)

/-- A publish that has not returned. It keeps its copies that are still to be invoked,
and whether one of its callbacks is running. The serial number tells the publishes apart. -/
structure Frame (Cb Ctx : Type) where
  serial : Nat
  eventId : BitVec 32
  calls : List (Cb × Ctx)
  running : Bool

/-- Each thread has a stack of nested publishes. -/
structure State (Thread Cb Ctx : Type) where
  subs : Subs Cb Ctx
  frames : Thread → List (Frame Cb Ctx)
  published : Nat

inductive Action (Thread Cb Ctx : Type) where
  | subscribe (thread : Thread) (topic : BitVec 32) (cb : Cb) (ctx : Ctx)
  | unsubscribe (thread : Thread) (cb : Cb) (ctx : Ctx)
  | publish (thread : Thread) (topic eventId : BitVec 32)
  | next (thread : Thread)

inductive Event (Thread Cb Ctx : Type) where
  | subscribed (thread : Thread) (topic : BitVec 32) (cb : Cb) (ctx : Ctx) (code : Int)
  | unsubscribed (thread : Thread) (cb : Cb) (ctx : Ctx) (code : Int)
  | published (thread : Thread) (serial : Nat) (topic eventId : BitVec 32)
  | invoked (thread : Thread) (serial : Nat) (cb : Cb) (ctx : Ctx) (eventId : BitVec 32)
  | returned (thread : Thread) (serial : Nat) (code : Int)

/-- A thread makes a call outside every publish or from a callback that is running. -/
def free : List (Frame Cb Ctx) → Bool
  | [] => true
  | frame :: _ => frame.running

/-- The innermost publish of a thread goes on when its callback has returned:
it invokes the next copy or returns. -/
def step (state : State Thread Cb Ctx) :
    Action Thread Cb Ctx → Option (State Thread Cb Ctx × List (Event Thread Cb Ctx))
  | .subscribe thread topic cb ctx =>
      if free (state.frames thread) then
        let (code, subs) := subscribe true state.subs topic cb ctx
        some ({ state with subs }, [.subscribed thread topic cb ctx code])
      else none
  | .unsubscribe thread cb ctx =>
      if free (state.frames thread) then
        let (code, subs) := unsubscribe true state.subs cb ctx
        some ({ state with subs }, [.unsubscribed thread cb ctx code])
      else none
  | .publish thread topic eventId =>
      if free (state.frames thread) then
        some ({ state with
          frames := Function.update state.frames thread
            (⟨state.published, eventId, snapshot state.subs topic, false⟩ :: state.frames thread)
          published := state.published + 1 },
          [.published thread state.published topic eventId])
      else none
  | .next thread =>
      match state.frames thread with
      | [] => none
      | ⟨serial, _, [], _⟩ :: below =>
          some ({ state with frames := Function.update state.frames thread below }, [.returned thread serial 0])
      | ⟨serial, eventId, (cb, ctx) :: rest, _⟩ :: below =>
          some ({ state with
            frames := Function.update state.frames thread (⟨serial, eventId, rest, true⟩ :: below) },
            [.invoked thread serial cb ctx eventId])

def machine : Machine (State Thread Cb Ctx) (Action Thread Cb Ctx) (Event Thread Cb Ctx) := ⟨step⟩

/-- No call is running. The slots may hold anything. -/
def initial (subs : Subs Cb Ctx) : State Thread Cb Ctx := ⟨subs, fun _ => [], 0⟩

structure Entry (Cb Ctx : Type) where
  topic : BitVec 32
  cb : Cb
  ctx : Ctx
  deriving DecidableEq

def Subscriber.entry (sub : Subscriber Cb Ctx) : Entry Cb Ctx := ⟨sub.topic, sub.cb, sub.ctx⟩

/-- An entry that `unsubscribe` removes, whatever its topic. -/
def Entry.Matches (cb : Cb) (ctx : Ctx) (entry : Entry Cb Ctx) : Prop := entry.cb = cb ∧ entry.ctx = ctx

instance (cb : Cb) (ctx : Ctx) : DecidablePred (Entry.Matches cb ctx) := fun entry =>
  inferInstanceAs (Decidable (entry.cb = cb ∧ entry.ctx = ctx))

/-- The multiset of subscriptions that the active slots hold. -/
def contents (subs : Subs Cb Ctx) : Multiset (Entry Cb Ctx) :=
  ((List.finRange maxSubs).filter fun i => (subs i).active).map fun i => (subs i).entry

/-- What a locked section does to the multiset of subscriptions. -/
def Event.apply (entries : Multiset (Entry Cb Ctx)) : Event Thread Cb Ctx → Multiset (Entry Cb Ctx)
  | .subscribed _ topic cb ctx _ => if entries.card = maxSubs then entries else ⟨topic, cb, ctx⟩ ::ₘ entries
  | .unsubscribed _ cb ctx _ => entries.filter fun entry => ¬entry.Matches cb ctx
  | _ => entries

/-- The multiset of subscriptions after the locked sections of a history. -/
def replay (history : List (Event Thread Cb Ctx)) : Multiset (Entry Cb Ctx) := history.foldl Event.apply 0

/-- The return codes that the multiset gives to the calls. A call that fails leaves it unchanged. -/
def Answers (before : List (Event Thread Cb Ctx)) (event : Event Thread Cb Ctx) : Prop :=
  match event with
  | .subscribed _ topic cb ctx code =>
      (code = -2 ∧ (replay before).card = maxSubs ∧ event.apply (replay before) = replay before) ∨
        (code = 0 ∧ (replay before).card < maxSubs ∧ event.apply (replay before) = ⟨topic, cb, ctx⟩ ::ₘ replay before)
  | .unsubscribed _ cb ctx code =>
      (code = -2 ∧ (∀ entry ∈ replay before, ¬entry.Matches cb ctx) ∧ event.apply (replay before) = replay before) ∨
        (code = 0 ∧ ∃ entry ∈ replay before, entry.Matches cb ctx)
  | .returned _ _ code => code = 0
  | _ => True

/-- The callbacks that a publish has to invoke, with their arguments. -/
def expected (entries : Multiset (Entry Cb Ctx)) (topic eventId : BitVec 32) : Multiset (Cb × Ctx × BitVec 32) :=
  (entries.filter fun entry => entry.topic = topic).map fun entry => (entry.cb, entry.ctx, eventId)

/-- The callback that an event invokes for a publish. -/
def Event.invocation? (thread : Thread) (serial : Nat) : Event Thread Cb Ctx → Option (Cb × Ctx × BitVec 32)
  | .invoked caller publish cb ctx eventId =>
      if caller = thread ∧ publish = serial then some (cb, ctx, eventId) else none
  | _ => none

/-- The callbacks that a publish has invoked. -/
def invocations (thread : Thread) (serial : Nat) (history : List (Event Thread Cb Ctx)) :
    Multiset (Cb × Ctx × BitVec 32) :=
  history.filterMap (Event.invocation? thread serial)

/-- The publish that an event belongs to. -/
def Event.serial? : Event Thread Cb Ctx → Option Nat
  | .published _ serial _ _ => some serial
  | .invoked _ serial _ _ _ => some serial
  | .returned _ serial _ => some serial
  | _ => none

/-- A publish has a serial number of its own. It invokes at most the entries of its topic that stood
at its locked section, and exactly these when it has returned. Nothing else is invoked. -/
def Publishes (history before : List (Event Thread Cb Ctx)) : Event Thread Cb Ctx → Prop
  | .published thread serial topic eventId =>
      (∀ other ∈ before, other.serial? ≠ some serial) ∧
        invocations thread serial history ≤ expected (replay before) topic eventId ∧
          ∀ code, .returned thread serial code ∈ history →
            invocations thread serial history = expected (replay before) topic eventId
  | .invoked thread serial _ _ eventId => ∃ topic, .published thread serial topic eventId ∈ before
  | _ => True

end Ostep.Dispatcher
