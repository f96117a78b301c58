import Ostep.Library.Machine

namespace Ostep.Library.W1c

/-- A routine reads a status register with its mask once and then writes the status once.
From what it has read it gives its new data and the written value.
A one that is written to a clearable bit clears it; the hardware drives the other bits. -/
structure Driver (width : Nat) (Mask Data : Type) where
  clearable : BitVec width
  enters : BitVec width → Mask → Bool
  handle : BitVec width → Mask → Data → Data × BitVec width

/-- A routine between its read and its write keeps what it has read. -/
structure State (width : Nat) (Mask Data : Type) where
  status : BitVec width
  mask : Mask
  data : Data
  read : Option (BitVec width × Mask)
  deriving Repr, DecidableEq

inductive Action (width : Nat) (Mask : Type) where
  | latch (bits : BitVec width)
  | drive (levels : BitVec width)
  | setMask (mask : Mask)
  | readStatus
  | writeStatus
  deriving Repr, DecidableEq

/-- A write with the status and the mask that its routine had read. -/
structure Write (width : Nat) (Mask : Type) where
  read : BitVec width
  mask : Mask
  written : BitVec width
  before : BitVec width
  after : BitVec width
  deriving Repr, DecidableEq

/-- The trace records every change of the status, by the hardware or by a write. -/
inductive Event (width : Nat) (Mask : Type) where
  | changed (before after : BitVec width)
  | wrote (write : Write width Mask)
  deriving Repr, DecidableEq

variable {width : Nat} {Mask Data : Type}

/-- The status after a write of ones. -/
def Driver.clear (driver : Driver width Mask Data) (written status : BitVec width) : BitVec width :=
  status &&& ~~~(written &&& driver.clearable)

/-- The end of a routine that has read the status and the mask. -/
def Driver.finish (driver : Driver width Mask Data) (state : State width Mask Data) (read : BitVec width)
    (mask : Mask) : State width Mask Data × List (Event width Mask) :=
  let (data, written) := driver.handle read mask state.data
  let after := driver.clear written state.status
  ({ state with status := after, data := data, read := none }, [.wrote ⟨read, mask, written, state.status, after⟩])

/-- The hardware latches bits at any moment, also between a read and its write.
The mask changes only between two runs of the routine. -/
def step (driver : Driver width Mask Data) (state : State width Mask Data) :
    Action width Mask → Option (State width Mask Data × List (Event width Mask))
  | .latch bits =>
      let status := state.status ||| (bits &&& driver.clearable)
      some ({ state with status }, [.changed state.status status])
  | .drive levels =>
      let status := (state.status &&& driver.clearable) ||| (levels &&& ~~~driver.clearable)
      some ({ state with status }, [.changed state.status status])
  | .setMask mask => if state.read = none then some ({ state with mask }, []) else none
  | .readStatus =>
      if state.read = none ∧ driver.enters state.status state.mask then
        some ({ state with read := some (state.status, state.mask) }, [])
      else none
  | .writeStatus => state.read.map fun (read, mask) => driver.finish state read mask

def machine (driver : Driver width Mask Data) :
    Machine (State width Mask Data) (Action width Mask) (Event width Mask) := ⟨step driver⟩

/-- A bit of the status goes from one to zero. -/
def Write.falls (bit : Nat) (write : Write width Mask) : Bool := write.before.getLsbD bit && !write.after.getLsbD bit

def Event.falls (bit : Nat) : Event width Mask → Bool
  | .changed before after => before.getLsbD bit && !after.getLsbD bit
  | .wrote write => write.falls bit

def Event.write? : Event width Mask → Option (Write width Mask)
  | .changed _ _ => none
  | .wrote write => some write

/-- The number of times that a bit goes from one to zero. -/
def falls (bit : Nat) (trace : List (Event width Mask)) : Nat := trace.countP (Event.falls bit)

/-- The completed runs of the routine. -/
def writes (trace : List (Event width Mask)) : List (Write width Mask) := trace.filterMap Event.write?

/-- What the completed runs leave in the data. -/
def Driver.replay (driver : Driver width Mask Data) (writes : List (Write width Mask)) (data : Data) : Data :=
  writes.foldl (fun data write => (driver.handle write.read write.mask data).1) data

variable {driver : Driver width Mask Data} {state next start : State width Mask Data} {action : Action width Mask}
  {trace events : List (Event width Mask)} {bit : Nat}

theorem getLsbD_clear (driver : Driver width Mask Data) (written status : BitVec width) (bit : Nat) :
    (driver.clear written status).getLsbD bit =
      (status.getLsbD bit && !(written.getLsbD bit && driver.clearable.getLsbD bit)) := by
  by_cases inside : bit < width
  · simp [Driver.clear, inside]
  · simp [BitVec.getLsbD_of_ge _ _ (Nat.not_lt.mp inside)]

/-- The steps of the machine. The hardware clears no clearable bit. -/
inductive Stepped (driver : Driver width Mask Data) (state : State width Mask Data) :
    State width Mask Data → List (Event width Mask) → Prop where
  | hardware (status : BitVec width)
      (kept : ∀ bit, driver.clearable.getLsbD bit = true → state.status.getLsbD bit = true →
        status.getLsbD bit = true) :
      Stepped driver state { state with status } [.changed state.status status]
  | setMask (mask : Mask) (resting : state.read = none) : Stepped driver state { state with mask } []
  | readStatus (resting : state.read = none) (enters : driver.enters state.status state.mask = true) :
      Stepped driver state { state with read := some (state.status, state.mask) } []
  | writeStatus {read : BitVec width} {mask : Mask} (reading : state.read = some (read, mask)) :
      Stepped driver state (driver.finish state read mask).1 (driver.finish state read mask).2

theorem step_stepped (stepped : (machine driver).step state action = some (next, events)) :
    Stepped driver state next events := by
  cases action with
  | latch bits =>
      cases stepped
      exact .hardware _ fun bit _ set => by simp [set]
  | drive levels =>
      cases stepped
      exact .hardware _ fun bit clearable set => by simp [set, clearable]
  | setMask mask =>
      obtain ⟨resting, same⟩ := Option.ite_none_right_eq_some.mp stepped
      cases same
      exact .setMask mask resting
  | readStatus =>
      obtain ⟨⟨resting, enters⟩, same⟩ := Option.ite_none_right_eq_some.mp stepped
      cases same
      exact .readStatus resting enters
  | writeStatus =>
      obtain ⟨⟨read, mask⟩, reading, same⟩ := Option.map_eq_some_iff.mp stepped
      cases same
      exact .writeStatus reading

theorem writes_append (first second : List (Event width Mask)) :
    writes (first ++ second) = writes first ++ writes second := List.filterMap_append

theorem writes_changed (trace : List (Event width Mask)) (before after : BitVec width) :
    writes (trace ++ [.changed before after]) = writes trace := (writes_append _ _).trans (List.append_nil _)

theorem Driver.replay_concat (driver : Driver width Mask Data) (writes : List (Write width Mask))
    (write : Write width Mask) (data : Data) :
    driver.replay (writes ++ [write]) data =
      (driver.handle write.read write.mask (driver.replay writes data)).1 := by
  rw [Driver.replay, List.foldl_append]
  rfl

/-- The completed runs so far, their effect on the data, and what the running routine has read. -/
structure Holds (driver : Driver width Mask Data) (start : State width Mask Data) (trace : List (Event width Mask))
    (state : State width Mask Data) : Prop where
  data : state.data = driver.replay (writes trace) start.data
  running : ∀ read mask, state.read = some (read, mask) → ∀ bit, driver.clearable.getLsbD bit = true →
    read.getLsbD bit = true → state.status.getLsbD bit = true
  written : ∀ write ∈ writes trace, (∃ data, write.written = (driver.handle write.read write.mask data).2) ∧
    write.after = driver.clear write.written write.before
  pending : ∀ write ∈ writes trace, ∀ bit, driver.clearable.getLsbD bit = true →
    write.read.getLsbD bit = true → write.before.getLsbD bit = true
  falls : ∀ bit, (bit < width → driver.clearable.getLsbD bit = true) →
    falls bit trace = (writes trace).countP (Write.falls bit)

theorem Holds.step (holds : Holds driver start trace state)
    (stepped : (machine driver).step state action = some (next, events)) :
    Holds driver start (trace ++ events) next := by
  cases step_stepped stepped with
  | hardware status kept =>
      have same := writes_changed trace state.status status
      refine ⟨same ▸ holds.data, ?_, same ▸ holds.written, same ▸ holds.pending, fun bit clearable => ?_⟩
      · intro read mask reading bit clearable set
        exact kept bit clearable (holds.running read mask reading bit clearable set)
      · rw [same, ← holds.falls bit clearable, W1c.falls, W1c.falls, List.countP_append, List.countP_singleton,
          Event.falls, if_neg, Nat.add_zero]
        intro fell
        rw [Bool.and_eq_true, Bool.not_eq_true'] at fell
        have set := kept bit (clearable (BitVec.lt_of_getLsbD fell.1)) fell.1
        rw [fell.2] at set
        cases set
  | setMask mask resting =>
      rw [List.append_nil]
      exact ⟨holds.data, holds.running, holds.written, holds.pending, holds.falls⟩
  | readStatus resting enters =>
      rw [List.append_nil]
      refine ⟨holds.data, fun read mask reading bit _ set => ?_, holds.written, holds.pending, holds.falls⟩
      cases reading
      exact set
  | @writeStatus read mask reading =>
      let write : Write width Mask := ⟨read, mask, (driver.handle read mask state.data).2, state.status,
        driver.clear (driver.handle read mask state.data).2 state.status⟩
      have more : writes (trace ++ (driver.finish state read mask).2) = writes trace ++ [write] := writes_append _ _
      refine ⟨?_, fun _ _ none => (by cases none), ?_, ?_, fun bit clearable => ?_⟩
      · rw [more, driver.replay_concat, ← holds.data]
        rfl
      · rw [more]
        exact List.forall_mem_append.mpr ⟨holds.written, List.forall_mem_singleton.mpr ⟨⟨state.data, rfl⟩, rfl⟩⟩
      · rw [more]
        exact List.forall_mem_append.mpr
          ⟨holds.pending, List.forall_mem_singleton.mpr (holds.running read mask reading)⟩
      · rw [more, List.countP_append, ← holds.falls bit clearable, W1c.falls, List.countP_append]
        rfl

theorem run_holds (resting : start.read = none) {schedule : List (Action width Mask)}
    (ran : (machine driver).run start schedule = some (state, trace)) : Holds driver start trace state := by
  refine (machine driver).run_invariant (Holds driver start) (fun _ _ _ _ _ holds stepped => holds.step stepped)
    ⟨rfl, fun read mask some => ?_, fun _ member => ?_, fun _ member => ?_, fun _ _ => rfl⟩ ran
  · cases resting.symm.trans some
  · cases member
  · cases member

/-- A bit falls at a write when it is set and a one is written to it. -/
theorem Holds.falls_eq (holds : Holds driver start trace state) {write : Write width Mask}
    (member : write ∈ writes trace) (bit : Nat) :
    write.falls bit = (write.before.getLsbD bit && write.written.getLsbD bit && driver.clearable.getLsbD bit) := by
  rw [Write.falls, (holds.written write member).2, getLsbD_clear]
  cases write.before.getLsbD bit <;> simp

/-- A bit that is never written does not fall. -/
theorem Holds.falls_eq_zero (holds : Holds driver start trace state)
    (clearable : bit < width → driver.clearable.getLsbD bit = true)
    (spared : ∀ read mask data, (driver.handle read mask data).2.getLsbD bit = false) : W1c.falls bit trace = 0 := by
  rw [holds.falls bit clearable, List.countP_eq_zero]
  intro write member
  obtain ⟨⟨data, written⟩, -⟩ := holds.written write member
  rw [holds.falls_eq member, written, spared]
  simp

/-- A set bit that no write clears stays set and is seen by every routine that starts later. -/
theorem run_spared (resting : start.read = none) (clearable : driver.clearable.getLsbD bit = true)
    (spared : ∀ read mask data, (driver.handle read mask data).2.getLsbD bit = false)
    (set : start.status.getLsbD bit = true) {schedule : List (Action width Mask)}
    (ran : (machine driver).run start schedule = some (state, trace)) :
    state.status.getLsbD bit = true ∧ (∀ read mask, state.read = some (read, mask) → read.getLsbD bit = true) ∧
      ∀ write ∈ writes trace, write.read.getLsbD bit = true := by
  refine (machine driver).run_invariant (fun trace state => state.status.getLsbD bit = true ∧
    (∀ read mask, state.read = some (read, mask) → read.getLsbD bit = true) ∧
    ∀ write ∈ writes trace, write.read.getLsbD bit = true) ?_ ⟨set, fun read mask some => ?_, fun _ member => ?_⟩ ran
  · rintro past state action next events ⟨set, running, seen⟩ stepped
    cases step_stepped stepped with
    | hardware status kept =>
        rw [writes_changed]
        exact ⟨kept bit clearable set, running, seen⟩
    | setMask mask resting =>
        rw [List.append_nil]
        exact ⟨set, running, seen⟩
    | readStatus resting enters =>
        rw [List.append_nil]
        refine ⟨set, fun read mask reading => ?_, seen⟩
        cases reading
        exact set
    | @writeStatus read mask reading =>
        refine ⟨?_, fun _ _ none => (by cases none), ?_⟩
        · rw [Driver.finish, getLsbD_clear, set, spared]
          rfl
        · rw [writes_append]
          exact List.forall_mem_append.mpr ⟨seen, List.forall_mem_singleton.mpr (running read mask reading)⟩
  · cases resting.symm.trans some
  · cases member

/-- A counter that some runs increment. -/
theorem Driver.counter_replay {size : Nat} (counter : Data → BitVec size) (counted : BitVec width → Mask → Bool)
    (counts : ∀ read mask data,
      counter (driver.handle read mask data).1 = counter data + if counted read mask then 1 else 0)
    (writes : List (Write width Mask)) (data : Data) :
    counter (driver.replay writes data) =
      counter data + BitVec.ofNat size (writes.countP fun write => counted write.read write.mask) := by
  induction writes generalizing data with
  | nil => exact (BitVec.add_zero _).symm
  | cons write rest ih =>
      rw [Driver.replay, List.foldl_cons, ← Driver.replay, ih, counts, List.countP_cons, BitVec.ofNat_add]
      cases counted write.read write.mask <;> simp [BitVec.add_assoc, BitVec.add_comm]

/-- A flag that some runs raise. -/
theorem Driver.flag_replay (flag : Data → Bool) (raised : BitVec width → Mask → Bool)
    (raises : ∀ read mask data, flag (driver.handle read mask data).1 = (flag data || raised read mask))
    (writes : List (Write width Mask)) (data : Data) :
    flag (driver.replay writes data) = (flag data || writes.any fun write => raised write.read write.mask) := by
  induction writes generalizing data with
  | nil => exact (Bool.or_false _).symm
  | cons write rest ih =>
      rw [Driver.replay, List.foldl_cons, ← Driver.replay, ih, raises, List.any_cons, Bool.or_assoc]

end Ostep.Library.W1c
