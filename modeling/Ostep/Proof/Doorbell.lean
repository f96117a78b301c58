import Mathlib.Algebra.Group.Nat.Defs
import Ostep.Construction.Doorbell
import Ostep.Library.Ring

namespace Ostep.Doorbell

open Library StoreBuffer

/-- The stores of the commands in program order. -/
def stream (barrier : Bool) (head : Word) : List CmdDesc → List Store
  | [] => []
  | cmd :: rest => submitStores barrier head cmd ++ stream barrier (head + 1) rest

/-- The number of stores and barriers of a command. -/
def size (barrier : Bool) : Nat := if barrier then 5 else 4

def Field.rank : Field → Nat
  | .opcode => 0
  | .len => 1
  | .addr => 2

variable {barrier : Bool} {head start : Word} {cmds : List CmdDesc} {cmd : CmdDesc}

theorem length_submitStores (barrier : Bool) (head : Word) (cmd : CmdDesc) :
    (submitStores barrier head cmd).length = size barrier := by
  cases barrier <;> rfl

theorem length_stream (barrier : Bool) (head : Word) (cmds : List CmdDesc) :
    (stream barrier head cmds).length = cmds.length * size barrier := by
  induction cmds generalizing head with
  | nil => simp [stream]
  | cons cmd rest ih => rw [stream, List.length_append, length_submitStores, ih, List.length_cons, Nat.succ_mul,
      Nat.add_comm]

theorem index_succ (head : Word) (count : Nat) :
    head + 1 + BitVec.ofNat 32 count = head + BitVec.ofNat 32 (count + 1) := by
  rw [BitVec.add_assoc, BitVec.ofNat_add, BitVec.add_comm (1 : Word)]
  rfl

/-- A new command adds its stores at the end. -/
theorem stream_concat (barrier : Bool) (head : Word) (cmds : List CmdDesc) (cmd : CmdDesc) :
    stream barrier head (cmds ++ [cmd]) =
      stream barrier head cmds ++ submitStores barrier (head + BitVec.ofNat 32 cmds.length) cmd := by
  induction cmds generalizing head with
  | nil => simp [stream]
  | cons first rest ih =>
      rw [List.cons_append, stream, stream, ih, List.append_assoc, index_succ]
      rfl

/-- The stores of a command follow each other. -/
theorem getElem?_stream (barrier : Bool) (head : Word) (cmds : List CmdDesc) (k r : Nat) (inside : r < size barrier) :
    (stream barrier head cmds)[k * size barrier + r]? =
      cmds[k]?.bind fun cmd => (submitStores barrier (head + BitVec.ofNat 32 k) cmd)[r]? := by
  induction cmds generalizing head k with
  | nil => simp [stream]
  | cons first rest ih =>
      have length := length_submitStores barrier head first
      cases k with
      | zero =>
          rw [stream, Nat.zero_mul, Nat.zero_add, List.getElem?_append_left (length ▸ inside)]
          simp
      | succ k =>
          rw [stream, List.getElem?_append_right (by rw [length, Nat.succ_mul]; omega), length,
            show (k + 1) * size barrier + r - size barrier = k * size barrier + r by rw [Nat.succ_mul]; omega,
            ih, List.getElem?_cons_succ, index_succ]

/-- Each number belongs to a command. -/
theorem exists_of_getElem?_stream {i : Nat} {item : Store} (found : (stream barrier head cmds)[i]? = some item) :
    ∃ k r cmd, i = k * size barrier + r ∧ cmds[k]? = some cmd ∧
      (submitStores barrier (head + BitVec.ofNat 32 k) cmd)[r]? = some item := by
  have positive : 0 < size barrier := by cases barrier <;> decide
  have parts : i = i / size barrier * size barrier + i % size barrier := (Nat.div_add_mod' i (size barrier)).symm
  rw [parts, getElem?_stream _ _ _ _ _ (Nat.mod_lt i positive)] at found
  obtain ⟨cmd, submitted, stored⟩ := Option.bind_eq_some_iff.mp found
  exact ⟨_, _, cmd, parts, submitted, stored⟩

/-- A descriptor is written by the commands of its slot. -/
theorem desc_of_stream {i : Nat} {slot : Word} {field : Field} {value : BitVec 64}
    (found : (stream barrier head cmds)[i]? = some (.store (.desc slot field) value)) :
    ∃ k cmd, i = k * size barrier + field.rank ∧ cmds[k]? = some cmd ∧
      slot = (head + BitVec.ofNat 32 k) &&& 255 ∧ value = cmd.field field := by
  obtain ⟨k, r, cmd, rfl, submitted, stored⟩ := exists_of_getElem?_stream found
  refine ⟨k, cmd, ?_⟩
  match r with
  | 0 | 1 | 2 =>
      cases stored
      exact ⟨rfl, submitted, rfl, rfl⟩
  | 3 | 4 => cases barrier <;> cases stored
  | r + 5 => cases barrier <;> cases stored

/-- The doorbell is written once by each command. -/
theorem doorbell_of_stream {i : Nat} {value : BitVec 64}
    (found : (stream barrier head cmds)[i]? = some (.store .doorbell value)) :
    ∃ k cmd, i = k * size barrier + (size barrier - 1) ∧ cmds[k]? = some cmd ∧
      value = (head + BitVec.ofNat 32 k + 1).setWidth 64 := by
  obtain ⟨k, r, cmd, rfl, submitted, stored⟩ := exists_of_getElem?_stream found
  refine ⟨k, cmd, ?_⟩
  match r with
  | 0 | 1 | 2 => cases stored
  | 3 | 4 =>
      cases barrier <;> cases stored
      exact ⟨rfl, submitted, rfl⟩
  | r + 5 => cases barrier <;> cases stored

theorem getElem?_desc {k : Nat} (submitted : cmds[k]? = some cmd) (field : Field) :
    (stream barrier head cmds)[k * size barrier + field.rank]? =
      some (.store (.desc ((head + BitVec.ofNat 32 k) &&& 255) field) (cmd.field field)) := by
  rw [getElem?_stream _ _ _ _ _ (by cases barrier <;> cases field <;> decide), submitted]
  cases field <;> rfl

theorem getElem?_doorbell {k : Nat} (submitted : cmds[k]? = some cmd) :
    (stream barrier head cmds)[k * size barrier + (size barrier - 1)]? =
      some (.store .doorbell ((head + BitVec.ofNat 32 k + 1).setWidth 64)) := by
  rw [getElem?_stream _ _ _ _ _ (by cases barrier <;> decide), submitted]
  cases barrier <;> rfl

theorem getElem?_barrier {k : Nat} (submitted : cmds[k]? = some cmd) :
    (stream true head cmds)[k * size true + 3]? = some .barrier := by
  rw [getElem?_stream _ _ _ _ _ (by decide), submitted]
  rfl

/-- Commands share a descriptor when their numbers agree modulo the size of the queue. -/
theorem slot_eq_iff (head : Word) (k other : Nat) :
    (head + BitVec.ofNat 32 k) &&& 255 = (head + BitVec.ofNat 32 other) &&& 255 ↔
      k % queueSize = other % queueSize := by
  have low (count : Nat) : ((head + BitVec.ofNat 32 count) &&& 255).toNat = (head.toNat + count) % 256 := by
    have masked : ((head + BitVec.ofNat 32 count) &&& 255).toNat = (head + BitVec.ofNat 32 count).toNat % 2 ^ 8 :=
      Ring.and_mask_toNat (show 8 ≤ 32 by decide) (head + BitVec.ofNat 32 count)
    rw [masked, BitVec.toNat_add, BitVec.toNat_ofNat]
    omega
  rw [← BitVec.toNat_inj, low, low, queueSize]
  omega

/-- The number of the store that rings for a command. -/
def ring (barrier : Bool) (k : Nat) : Nat := k * size barrier + (size barrier - 1)

theorem ring_lt_ring {k other : Nat} (less : k < other) : ring barrier k < ring barrier other := by
  cases barrier <;> simp only [ring, size, if_true, Bool.false_eq_true, if_false] <;> omega

theorem submitted_append (trace more : List Event) : submitted (trace ++ more) = submitted trace ++ submitted more :=
  List.filterMap_append

theorem fetched_append (trace more : List Event) : fetched (trace ++ more) = fetched trace ++ fetched more :=
  List.filterMap_append

/-- The indices count the commands, and the stores of all of them arrive at the memory.
The doorbell has been rung for the first `rung` commands. -/
structure Counted (order : Order) (barrier : Bool) (memory : Memory) (start : Word) (trace : List Event) (rung : Nat)
    (state : State) : Prop where
  arrived : Arrived order (initial memory start).buffer.memory (stream barrier start (submitted trace)) state.buffer
  head : state.head = start + BitVec.ofNat 32 (submitted trace).length
  next : state.next = start + BitVec.ofNat 32 (fetched trace).length
  behind : (fetched trace).length ≤ rung
  ahead : rung ≤ (submitted trace).length
  waits : ∀ k < (submitted trace).length, state.buffer.Waits (ring barrier k) ↔ rung ≤ k

variable {order : Order} {memory : Memory} {trace : List Event} {rung : Nat} {state : State}

theorem initial_counted (order : Order) (barrier : Bool) (memory : Memory) (start : Word) :
    Counted order barrier memory start [] 0 (initial memory start) where
  arrived := arrived_nil order _
  head := (BitVec.add_zero start).symm
  next := (BitVec.add_zero start).symm
  behind := Nat.le_refl 0
  ahead := Nat.le_refl 0
  waits k below := absurd below (Nat.not_lt_zero k)

/-- The doorbell shows the number of commands for which it was rung. -/
theorem Counted.doorbell (counted : Counted order barrier memory start trace rung state) :
    (state.buffer.memory .doorbell).setWidth 32 = start + BitVec.ofNat 32 rung := by
  have later {j k : Nat} {value : BitVec 64}
      (found : (stream barrier start (submitted trace))[j]? = some (.store .doorbell value))
      (after : ∀ other, j = ring barrier other → k ≤ other) (rings : rung ≤ k) : state.buffer.Waits j := by
    obtain ⟨other, cmd, rfl, submitted, -⟩ := doorbell_of_stream found
    have below := (List.getElem?_eq_some_iff.mp submitted).1
    exact (counted.waits other below).mpr (Nat.le_trans rings (after other rfl))
  cases rung with
  | zero =>
      have none := counted.arrived.untouched .doorbell fun j value found =>
        later found (fun other _ => Nat.zero_le other) (Nat.le_refl 0)
      rw [none]
      simp [initial]
  | succ rung =>
      have below : rung < (submitted trace).length := counted.ahead
      have gone : ¬state.buffer.Waits (ring barrier rung) := by
        rw [counted.waits rung below]
        omega
      have last := counted.arrived.latest _ _ _ (getElem?_doorbell (List.getElem?_eq_getElem below)) gone
        fun j value after found => later found (fun other same => ?_) (Nat.le_refl _)
      · rw [last, BitVec.setWidth_setWidth_of_le _ (by decide), BitVec.setWidth_eq, BitVec.ofNat_add,
          ← BitVec.add_assoc]
        rfl
      · by_contra less
        have before : ring barrier other ≤ ring barrier rung := by
          rcases Nat.lt_or_eq_of_le (Nat.le_of_lt_succ (Nat.not_le.mp less)) with less | rfl
          · exact Nat.le_of_lt (ring_lt_ring less)
          · exact Nat.le_refl _
        have after : ring barrier rung < j := after
        omega

/-- The device fetches only for commands that the doorbell was rung for. -/
theorem Counted.fetch_step (counted : Counted order barrier memory start trace rung state) {next : State}
    {events : List Event} (stepped : fetch state = some (next, events)) :
    (fetched trace).length < rung ∧
      events = [.fetched (readDesc state.buffer.memory (state.next &&& 255))] ∧
      Counted order barrier memory start (trace ++ events) rung next := by
  simp only [fetch, counted.doorbell] at stepped
  split at stepped
  · cases stepped
  · next different =>
      obtain ⟨rfl, rfl⟩ := Prod.mk.inj (Option.some.inj stepped)
      have less : (fetched trace).length < rung := by
        refine Nat.lt_of_le_of_ne counted.behind fun same => different ?_
        rw [counted.next, same]
      have silent : submitted (trace ++ [.fetched (readDesc state.buffer.memory (state.next &&& 255))]) =
          submitted trace := by
        simp [submitted, Event.submission]
      have one : fetched (trace ++ [.fetched (readDesc state.buffer.memory (state.next &&& 255))]) =
          fetched trace ++ [readDesc state.buffer.memory (state.next &&& 255)] := by
        simp [fetched, Event.fetching]
      refine ⟨less, rfl, ⟨?_, ?_, ?_, ?_, ?_, ?_⟩⟩
      · rw [silent]
        exact counted.arrived
      · rw [silent]
        exact counted.head
      · rw [one, List.length_append, List.length_singleton, BitVec.ofNat_add, ← BitVec.add_assoc, ← counted.next]
        rfl
      · rw [one, List.length_append]
        exact less
      · rw [silent]
        exact counted.ahead
      · rw [silent]
        exact counted.waits

/-- A new command has not rung the doorbell yet. -/
theorem Counted.submit (counted : Counted order barrier memory start trace rung state) (cmd : CmdDesc) :
    Counted order barrier memory start (trace ++ [.submitted cmd]) rung (submitCmd barrier state cmd) := by
  have one : submitted (trace ++ [.submitted cmd]) = submitted trace ++ [cmd] := by
    simp [submitted, Event.submission]
  have silent : fetched (trace ++ [.submitted cmd]) = fetched trace := by
    simp [fetched, Event.fetching]
  have arrived := counted.arrived.issueAll (submitStores barrier state.head cmd)
  rw [counted.head, ← stream_concat, ← one, ← counted.head] at arrived
  have ahead := counted.ahead
  refine ⟨arrived, ?_, ?_, ?_, ?_, fun k below => ?_⟩
  · rw [one, List.length_append, List.length_singleton, BitVec.ofNat_add, ← BitVec.add_assoc, ← counted.head]
    rfl
  · rw [silent]
    exact counted.next
  · rw [silent]
    exact counted.behind
  · rw [one, List.length_append]
    omega
  · have issued := counted.arrived.issued
    rw [length_stream] at issued
    rw [one, List.length_append, List.length_singleton] at below
    rw [submitCmd, Buffer.waits_issueAll, issued, length_submitStores]
    have inside : size barrier - 1 < size barrier := by cases barrier <;> decide
    by_cases old : k < (submitted trace).length
    · have earlier : ring barrier k < (submitted trace).length * size barrier := by
        have scaled := Nat.mul_le_mul_right (size barrier) (Nat.succ_le_of_lt old)
        rw [Nat.succ_mul] at scaled
        rw [ring]
        omega
      rw [counted.waits k old, or_iff_left (by omega)]
    · obtain rfl : k = (submitted trace).length := by omega
      have new : ring barrier (submitted trace).length =
          (submitted trace).length * size barrier + (size barrier - 1) := rfl
      exact iff_of_true (Or.inr (by omega)) ahead

/-- The stores to the doorbell arrive one after the other. -/
theorem Counted.drain (counted : Counted order barrier memory start trace rung state) {position : Nat}
    {buffer : Buffer Loc (BitVec 64)} (drained : state.buffer.drain order position = some buffer) :
    ∃ rung', Counted order barrier memory start trace rung' { state with buffer } := by
  obtain ⟨arrived, number, item, drains⟩ := counted.arrived.drain drained
  have issued := counted.arrived.entries _ drains.member
  by_cases rings : ∃ k < (submitted trace).length, number = ring barrier k
  · obtain ⟨k, below, rfl⟩ := rings
    have first : rung ≤ k := (counted.waits k below).mp (List.mem_map_of_mem drains.member)
    have same : rung = k := by
      by_contra different
      have less : rung < k := by omega
      -- An earlier ring would still wait, but it has to arrive first.
      have still : buffer.Waits (ring barrier rung) :=
        (drains.waits _).mpr ⟨(counted.waits rung (by omega)).mpr (Nat.le_refl _), Nat.ne_of_lt (ring_lt_ring less)⟩
      refine ((drains.waits _).mp (arrived.kept _ _ _ _ (ring_lt_ring less)
        (getElem?_doorbell (List.getElem?_eq_getElem (by omega))) (getElem?_doorbell (List.getElem?_eq_getElem below))
        ?_ still)).2 rfl
      cases order
      · trivial
      · rfl
    subst same
    refine ⟨rung + 1, arrived, counted.head, counted.next, Nat.le_succ_of_le counted.behind, below,
      fun other inside => ?_⟩
    rw [drains.waits, counted.waits other inside]
    constructor
    · rintro ⟨after, different⟩
      exact Nat.lt_of_le_of_ne after fun same => different (same ▸ rfl)
    · intro after
      exact ⟨Nat.le_of_succ_le after, (Nat.ne_of_lt (ring_lt_ring after)).symm⟩
  · refine ⟨rung, arrived, counted.head, counted.next, counted.behind, counted.ahead, fun k below => ?_⟩
    rw [drains.waits, and_iff_left fun same => rings ⟨k, below, same.symm⟩]
    exact counted.waits k below

/-- Every step keeps the counts. -/
theorem Counted.step (counted : Counted order barrier memory start trace rung state) {action : Action} {next : State}
    {events : List Event} (stepped : (machine order barrier).step state action = some (next, events)) :
    ∃ rung', Counted order barrier memory start (trace ++ events) rung' next := by
  cases action with
  | submit cmd =>
      obtain ⟨rfl, rfl⟩ := Prod.mk.inj (Option.some.inj stepped)
      exact ⟨rung, counted.submit cmd⟩
  | drain position =>
      obtain ⟨buffer, drained, same⟩ := Option.map_eq_some_iff.mp stepped
      obtain ⟨rfl, rfl⟩ := Prod.mk.inj same
      rw [List.append_nil]
      exact counted.drain drained
  | fetch => exact ⟨rung, (counted.fetch_step stepped).2.2⟩

theorem run_counted {schedule : List Action}
    (ran : (machine order barrier).run (initial memory start) schedule = some (state, trace)) :
    ∃ rung, Counted order barrier memory start trace rung state :=
  (machine order barrier).run_invariant (fun trace state => ∃ rung, Counted order barrier memory start trace rung state)
    (fun _ _ _ _ _ holds stepped => holds.elim fun _ counted => counted.step stepped)
    ⟨0, initial_counted order barrier memory start⟩ ran

/-- A descriptor whose stores have all arrived is read back, if no later command has overwritten it. -/
theorem Counted.readDesc_eq (counted : Counted order barrier memory start trace rung state) {k : Nat}
    (submission : (submitted trace)[k]? = some cmd)
    (gone : ∀ field, ¬state.buffer.Waits (k * size barrier + Field.rank field))
    (last : ∀ other < (submitted trace).length, k < other → k % queueSize = other % queueSize →
      ∀ field, state.buffer.Waits (other * size barrier + Field.rank field)) :
    readDesc state.buffer.memory ((start + BitVec.ofNat 32 k) &&& 255) = cmd := by
  have read (field : Field) :
      state.buffer.memory (.desc ((start + BitVec.ofNat 32 k) &&& 255) field) = cmd.field field := by
    refine counted.arrived.latest _ _ _ (getElem?_desc submission field) (gone field) fun j value after found => ?_
    obtain ⟨other, _, rfl, submission, slot, -⟩ := desc_of_stream found
    refine last other (List.getElem?_eq_some_iff.mp submission).1 ?_ ((slot_eq_iff start k other).mp slot) field
    exact Nat.lt_of_mul_lt_mul_right (Nat.lt_of_add_lt_add_right after)
  rw [readDesc, read, read, read]
  simp [CmdDesc.field]

/-- In program order or behind a barrier, the stores of a command arrive before its ring. -/
theorem Counted.gone_of_rung (counted : Counted order barrier memory start trace rung state)
    (ordered : order = .program ∨ barrier = true) {k : Nat} (below : k < rung) (field : Field) :
    ¬state.buffer.Waits (k * size barrier + field.rank) := by
  have inside : k < (submitted trace).length := Nat.lt_of_lt_of_le below counted.ahead
  have submission := List.getElem?_eq_getElem inside
  have gone : ¬state.buffer.Waits (ring barrier k) := by
    rw [counted.waits k inside]
    omega
  have less : k * size barrier + field.rank < ring barrier k := by
    rw [ring]
    cases barrier <;> cases field <;> simp [size, Field.rank]
  refine counted.arrived.gone_of_gone less (getElem?_desc submission field) (getElem?_doorbell submission)
    (ordered.imp_right ?_) gone
  rintro rfl
  refine ⟨k * size true + 3, ?_, ?_, getElem?_barrier submission⟩
  · cases field <;> simp [Field.rank]
  · simp [ring, size]

/-- The commands that were fetched are those that were submitted first. -/
structure Delivered (trace : List Event) : Prop where
  before : fetched trace <+: submitted trace
  few : (submitted trace).length ≤ (fetched trace).length + queueSize

/-- A device that is not behind by more than the queue fetches the next command. -/
theorem Counted.fetches (counted : Counted order barrier memory start trace rung state)
    (ordered : order = .program ∨ barrier = true)
    (few : (submitted trace).length ≤ (fetched trace).length + queueSize) (less : (fetched trace).length < rung) :
    (submitted trace)[(fetched trace).length]? = some (readDesc state.buffer.memory (state.next &&& 255)) := by
  have inside : (fetched trace).length < (submitted trace).length := Nat.lt_of_lt_of_le less counted.ahead
  have submission := List.getElem?_eq_getElem inside
  rw [counted.next, submission, counted.readDesc_eq submission (counted.gone_of_rung ordered less)]
  intro other below after same
  rw [queueSize] at few same
  omega

theorem Counted.delivered_step (counted : Counted order barrier memory start trace rung state)
    (ordered : order = .program ∨ barrier = true) (delivered : Delivered trace) {action : Action} {next : State}
    {events : List Event} (room : Room state action)
    (stepped : (machine order barrier).step state action = some (next, events)) : Delivered (trace ++ events) := by
  obtain ⟨before, few⟩ := delivered
  have order := before.length_le
  cases action with
  | submit cmd =>
      obtain ⟨rfl, rfl⟩ := Prod.mk.inj (Option.some.inj stepped)
      rw [Room, counted.head, counted.next, BitVec.toNat_sub, BitVec.toNat_add, BitVec.toNat_add, BitVec.toNat_ofNat,
        BitVec.toNat_ofNat, queueSize] at room
      constructor
      · rw [submitted_append, fetched_append]
        exact (List.append_nil _).symm ▸ before.trans (List.prefix_append _ [cmd])
      · rw [queueSize] at few
        rw [submitted_append, fetched_append, List.length_append, List.length_append]
        change _ + 1 ≤ _ + 0 + 256
        omega
  | drain position =>
      obtain ⟨buffer, drained, same⟩ := Option.map_eq_some_iff.mp stepped
      obtain ⟨rfl, rfl⟩ := Prod.mk.inj same
      rw [List.append_nil]
      exact ⟨before, few⟩
  | fetch =>
      obtain ⟨less, rfl, -⟩ := counted.fetch_step stepped
      have command := counted.fetches ordered few less
      constructor
      · have extended : fetched trace ++ [readDesc state.buffer.memory (state.next &&& 255)] =
            (submitted trace).take ((fetched trace).length + 1) := by
          rw [List.take_add_one, command, ← List.prefix_iff_eq_take.mp before]
          rfl
        rw [submitted_append, fetched_append]
        exact (List.append_nil (submitted trace)).symm ▸ extended ▸ List.take_prefix _ _
      · rw [submitted_append, fetched_append, List.length_append, List.length_append]
        change _ + 0 ≤ _ + 1 + _
        omega

/-- Nothing is left to fetch when all stores have arrived and the device has caught up with its doorbell. -/
theorem Counted.fetched_all (counted : Counted order barrier memory start trace rung state)
    (delivered : Delivered trace) (empty : state.buffer.pending = []) (idle : fetch state = none) :
    fetched trace = submitted trace := by
  obtain ⟨before, few⟩ := delivered
  have behind := counted.behind
  have ahead := counted.ahead
  have all : (submitted trace).length ≤ rung := by
    by_contra less
    have waits := (counted.waits rung (Nat.not_le.mp less)).mpr (Nat.le_refl rung)
    rw [Buffer.Waits, empty] at waits
    cases waits
  have caught : start + BitVec.ofNat 32 rung = start + BitVec.ofNat 32 (fetched trace).length := by
    rw [fetch, counted.doorbell, counted.next] at idle
    split at idle
    · assumption
    · cases idle
  have same := BitVec.toNat_inj.mpr (BitVec.add_right_inj _ |>.mp caught)
  rw [BitVec.toNat_ofNat, BitVec.toNat_ofNat] at same
  refine before.eq_of_length ?_
  rw [queueSize] at few
  omega

theorem run_delivered (ordered : order = .program ∨ barrier = true) {schedule : List Action}
    (room : (machine order barrier).Along Room (initial memory start) schedule)
    (ran : (machine order barrier).run (initial memory start) schedule = some (state, trace)) :
    (∃ rung, Counted order barrier memory start trace rung state) ∧ Delivered trace := by
  refine (machine order barrier).run_invariant_along Room
    (fun _ trace state => (∃ rung, Counted order barrier memory start trace rung state) ∧ Delivered trace)
    (fun _ trace state action next events holds room stepped => ?_)
    ⟨⟨0, initial_counted order barrier memory start⟩, ⟨List.prefix_refl _, Nat.zero_le _⟩⟩ room ran
  obtain ⟨⟨rung, counted⟩, delivered⟩ := holds
  exact ⟨counted.step stepped, counted.delivered_step ordered delivered room stepped⟩

/-- If the stores arrive in program order, or with a barrier before the doorbell, the device fetches the submitted
commands one after the other and unchanged, as long as the host leaves the descriptors alone that are not fetched yet.
Once all stores have arrived and the device has stopped, no command is missing. -/
theorem submit_cmd_delivery (order : Order) (barrier : Bool) (memory : Memory) (start : Word)
    (ordered : order = .program ∨ barrier = true) (schedule : List Action) (state : State) (trace : List Event)
    (room : (machine order barrier).Along Room (initial memory start) schedule)
    (ran : (machine order barrier).run (initial memory start) schedule = some (state, trace)) :
    fetched trace <+: submitted trace ∧
    (state.buffer.pending = [] → ¬(machine order barrier).Enabled state .fetch → fetched trace = submitted trace) := by
  obtain ⟨⟨rung, counted⟩, delivered⟩ := run_delivered ordered room ran
  refine ⟨delivered.before, fun empty idle => counted.fetched_all delivered empty ?_⟩
  exact Option.not_isSome_iff_eq_none.mp idle

/-- The device fetches two commands whose numbers wrap around. -/
theorem submit_cmd_delivery_two :
    ∃ state trace, (machine .weak true).run (initial (fun _ => 0) 4294967295)
        [.submit ⟨1, 2, 3⟩, .drain 1, .drain 0, .drain 0, .drain 0, .drain 0, .submit ⟨4, 5, 6⟩, .fetch, .drain 2,
          .drain 1, .drain 0, .drain 0, .drain 0, .fetch] = some (state, trace) ∧
      fetched trace = [⟨1, 2, 3⟩, ⟨4, 5, 6⟩] := by
  have complete : ((machine .weak true).run (initial (fun _ => 0) 4294967295)
      [.submit ⟨1, 2, 3⟩, .drain 1, .drain 0, .drain 0, .drain 0, .drain 0, .submit ⟨4, 5, 6⟩, .fetch, .drain 2,
        .drain 1, .drain 0, .drain 0, .drain 0, .fetch]).map
        (fun result => (submitted result.2, result.1.buffer.pending, (fetch result.1).isSome)) =
      some ([⟨1, 2, 3⟩, ⟨4, 5, 6⟩], [], false) := by
    decide
  obtain ⟨⟨state, trace⟩, ran, shown⟩ := Option.map_eq_some_iff.mp complete
  obtain ⟨submissions, rest⟩ := Prod.mk.inj shown
  obtain ⟨empty, idle⟩ := Prod.mk.inj rest
  obtain ⟨-, all⟩ := submit_cmd_delivery .weak true (fun _ => 0) 4294967295 (Or.inr rfl) _ state trace (by decide) ran
  exact ⟨state, trace, ran, (all empty (Bool.eq_false_iff.mp idle)).trans submissions⟩

/-- The newest number with the same descriptor. -/
theorem exists_newest {first count : Nat} (some : first < count) :
    ∃ k < count, count ≤ k + queueSize ∧ k % queueSize = first % queueSize ∧
      (k = first ↔ count ≤ first + queueSize) := by
  refine ⟨first + (count - 1 - first) / queueSize * queueSize, ?_⟩
  rw [queueSize]
  omega

/-- Without the room that `submit_cmd` never asks for, the device fetches the newest of the commands with the same
descriptor, once all stores have arrived. -/
theorem submit_cmd_overwrites (order : Order) (barrier : Bool) (memory : Memory) (start : Word)
    (schedule : List Action) (state : State) (trace : List Event)
    (ran : (machine order barrier).run (initial memory start) schedule = some (state, trace))
    (empty : state.buffer.pending = []) (next : State) (events : List Event)
    (stepped : (machine order barrier).step state .fetch = some (next, events)) :
    ∃ k cmd, (submitted trace)[k]? = some cmd ∧ events = [.fetched cmd] ∧
      (submitted trace).length ≤ k + queueSize ∧ k % queueSize = (fetched trace).length % queueSize ∧
      (k = (fetched trace).length ↔ (submitted trace).length ≤ (fetched trace).length + queueSize) := by
  obtain ⟨rung, counted⟩ := run_counted ran
  obtain ⟨less, rfl, -⟩ := counted.fetch_step stepped
  have ahead := counted.ahead
  obtain ⟨k, below, last, same, exact⟩ := exists_newest (Nat.lt_of_lt_of_le less ahead)
  have submission := List.getElem?_eq_getElem below
  have gone (number : Nat) : ¬state.buffer.Waits number := by
    rw [Buffer.Waits, empty]
    exact List.not_mem_nil
  have slot := (slot_eq_iff start (fetched trace).length k).mpr same.symm
  refine ⟨k, _, submission, ?_, last, same, exact⟩
  rw [counted.next, slot, counted.readDesc_eq submission (fun field => gone _) fun other inside after equal => ?_]
  rw [queueSize] at last equal
  omega

/-- The device fetches the last of 257 commands instead of the first one. -/
theorem submit_cmd_overwrites_first :
    ∃ state trace next, (machine .program false).run (initial (fun _ => 0) 0)
        ((List.range 257).flatMap fun k => .submit ⟨BitVec.ofNat 32 k, 0, 0⟩ :: List.replicate 4 (.drain 0)) =
          some (state, trace) ∧
      (machine .program false).step state .fetch = some (next, [.fetched ⟨256, 0, 0⟩]) := by
  have complete : ((machine .program false).run (initial (fun _ => 0) 0)
      ((List.range 257).flatMap fun k => .submit ⟨BitVec.ofNat 32 k, 0, 0⟩ :: List.replicate 4 (.drain 0))).map
        (fun result =>
          (submitted result.2, fetched result.2, result.1.buffer.pending.length, (fetch result.1).isSome)) =
      some ((List.range 257).map fun k => CmdDesc.mk (BitVec.ofNat 32 k) 0 0, [], 0, true) := by
    decide +kernel
  obtain ⟨⟨state, trace⟩, ran, shown⟩ := Option.map_eq_some_iff.mp complete
  simp only [Prod.mk.injEq] at shown
  obtain ⟨submissions, fetches, empty, enabled⟩ := shown
  obtain ⟨⟨next, events⟩, stepped⟩ := Option.isSome_iff_exists.mp enabled
  obtain ⟨k, cmd, found, rfl, last, same, -⟩ :=
    submit_cmd_overwrites .program false (fun _ => 0) 0 _ state trace ran
      (List.length_eq_zero_iff.mp empty) next events stepped
  rw [submissions] at found last
  have inside := (List.getElem?_eq_some_iff.mp found).1
  rw [fetches, queueSize] at same
  rw [List.length_map, List.length_range] at inside last
  obtain rfl : k = 256 := by
    rw [queueSize] at last
    rw [List.length_nil] at same
    omega
  cases found
  exact ⟨state, trace, next, ran, stepped⟩

theorem run_drainAll (order : Order) (barrier : Bool) (positions : List Nat) (state : State)
    {buffer : Buffer Loc (BitVec 64)} (drained : state.buffer.drainAll order positions = some buffer) :
    (machine order barrier).run state (positions.map .drain) = some ({ state with buffer }, []) := by
  induction positions generalizing state with
  | nil =>
      obtain rfl := Option.some.inj drained
      rfl
  | cons position rest ih =>
      obtain ⟨middle, first, later⟩ := Option.bind_eq_some_iff.mp drained
      refine (machine order barrier).run_cons_eq_some.mpr ⟨{ state with buffer := middle }, [], [], ?_, ih _ later, rfl⟩
      exact Option.map_eq_some_iff.mpr ⟨middle, first, rfl⟩

/-- The stores to the doorbell and to the chosen fields. -/
def Arrives (opcode len addr : Bool) : Store → Bool
  | .store (.desc _ .opcode) _ => opcode
  | .store (.desc _ .len) _ => len
  | .store (.desc _ .addr) _ => addr
  | _ => true

/-- The descriptor with the chosen fields of a command. -/
def mixed (old cmd : CmdDesc) (opcode len addr : Bool) : CmdDesc where
  opcode := if opcode then cmd.opcode else old.opcode
  len := if len then cmd.len else old.len
  addr := if addr then cmd.addr else old.addr

/-- Without a barrier and with stores that overtake each other, an idle device can fetch any mixture of the fields of
a new command and of what its descriptor held before. -/
theorem submit_cmd_torn (memory : Memory) (issued : Nat) (head : Word) (cmd : CmdDesc) (opcode len addr : Bool) :
    ∃ later final, (machine .weak false).run ⟨⟨memory, [], issued⟩, head, head⟩ later =
      some (final, [.submitted cmd, .fetched (mixed (readDesc memory (head &&& 255)) cmd opcode len addr)]) := by
  let state : State := ⟨⟨memory, [], issued⟩, head, head⟩
  have free : Order.weak.Frees ([] ++ (submitCmd false state cmd).buffer.pending) := by
    simp [Order.Frees, state, submitCmd, submitStores, Buffer.issueAll, Buffer.issue, Order.Keeps]
  obtain ⟨positions, drained⟩ := exists_drainAll (Arrives opcode len addr) memory (issued + 4) _ [] free
  generalize torn : List.foldl _ memory _ = after at drained
  have rings : after .doorbell = (head + 1).setWidth 64 := by
    rw [← torn]
    simp [state, submitCmd, submitStores, Buffer.issueAll, Buffer.issue, Arrives, Item.apply]
  have reads : readDesc after (head &&& 255) = mixed (readDesc memory (head &&& 255)) cmd opcode len addr := by
    rw [← torn]
    cases opcode <;> cases len <;> cases addr <;>
      simp [state, submitCmd, submitStores, Buffer.issueAll, Buffer.issue, Arrives, Item.apply, mixed, readDesc,
        CmdDesc.field]
  have submits : (machine .weak false).run state [.submit cmd] =
      some (submitCmd false state cmd, [.submitted cmd]) := rfl
  have arrives := run_drainAll .weak false positions (submitCmd false state cmd) drained
  have fetches (buffer : Buffer Loc (BitVec 64)) (same : buffer.memory = after) :
      (machine .weak false).run ⟨buffer, head + 1, head⟩ [.fetch] = some (⟨buffer, head + 1, head + 1⟩,
        [.fetched (mixed (readDesc memory (head &&& 255)) cmd opcode len addr)]) := by
    simpa [Machine.run, machine, step, fetch, same, rings] using reads
  exact ⟨_, _, (machine .weak false).run_append ((machine .weak false).run_append submits arrives) (fetches _ rfl)⟩

end Ostep.Doorbell
