import Mathlib.Algebra.BigOperators.Intervals
import Ostep.Library.Circle
import Ostep.Library.History
import Ostep.Construction.Spsc

namespace Ostep.Spsc

open Library Library.History

/-- The process has accessed the buffer and not published its index yet. -/
def Pc.pending : Pc → Nat
  | .store => 1
  | _ => 0

/-- The process has seen that the ring is ready for its next access. -/
def Pc.ready : Pc → Nat
  | .access => 1
  | _ => 0

/-- The process is inside its loop before the next access. -/
def Pc.looping : Pc → Nat
  | .load | .access => 1
  | _ => 0

/-- The private and published indices of both processes. -/
structure Indices (published : Nat) (ring : Ring) (parent : Parent) (child : Child) : Prop where
  tail : ring.tail < rbLen
  localTail : child.localTail = (ring.tail + child.pc.pending) % rbLen
  head : ring.head = (child.localTail + published) % rbLen
  localHead : parent.localHead = (child.localTail + (published + parent.pc.pending)) % rbLen
  room : published + parent.pc.pending + parent.pc.ready + child.pc.pending < rbLen
  filled : child.pc.ready ≤ published

/-- A process counts its accesses up to the limit. -/
structure Counts (limit count : Nat) (pc : Pc) (counter : Word) : Prop where
  value : counter = BitVec.ofNat 32 count
  bounded : count + pc.looping ≤ limit
  done : pc = .done → count = limit

/-- The written values are read in order. -/
structure Delivered (history : List Event) (taken count : Nat) (ring : Ring) (child : Child) : Prop where
  items : Circle.contents rbLen ring.buff child.localTail count =
    (List.range' taken count).map (BitVec.ofNat 32)
  slots : unread history = Circle.contents rbLen id child.localTail count
  order : reads history = (List.range taken).map (BitVec.ofNat 32)
  sum : child.entrySum = BitVec.ofNat 64 (taken * (taken - 1) / 2)
  fresh : Always (fun before event => ∀ slot value, event = .wrote slot value → slot ∉ unread before) history

/-- What holds after a history of accesses. -/
structure Holds (limit : Nat) (history : List Event) (published taken : Nat) (state : State) : Prop where
  indices : Indices published state.ring state.parent state.child
  parentCounts : Counts limit (taken + published + state.parent.pc.pending) state.parent.pc state.parent.parentCounter
  childCounts : Counts limit taken state.child.pc state.child.childCounter
  delivered : Delivered history taken (published + state.parent.pc.pending) state.ring state.child

theorem initial_holds (limit : Nat) : Holds limit [] 0 0 initial where
  indices := by constructor <;> decide
  parentCounts := ⟨rfl, Nat.zero_le _, nofun⟩
  childCounts := ⟨rfl, Nat.zero_le _, nofun⟩
  delivered := ⟨rfl, rfl, rfl, rfl, always_nil⟩

theorem signExtend_ofNat {value : Nat} (small : value < 2 ^ 31) :
    (BitVec.ofNat 32 value).signExtend 64 = BitVec.ofNat 64 value := by
  have positive : (BitVec.ofNat 32 value).msb = false := by
    rw [BitVec.msb_eq_false_iff_two_mul_lt, BitVec.toNat_ofNat]
    omega
  rw [BitVec.signExtend_eq_setWidth_of_msb_false positive]
  apply BitVec.eq_of_toNat_eq
  rw [BitVec.toNat_setWidth, BitVec.toNat_ofNat, BitVec.toNat_ofNat]
  omega

variable {maxCount : BitVec 64}

/-- The loop goes on while the limit is not reached. -/
theorem below_ofNat (small : maxCount.toNat < 2 ^ 31) {count : Nat} (bounded : count ≤ maxCount.toNat) :
    below (BitVec.ofNat 32 count) maxCount = decide (count < maxCount.toNat) := by
  rw [below, signExtend_ofNat (bounded.trans_lt small), BitVec.ult, BitVec.toNat_ofNat, Nat.mod_eq_of_lt]
  omega

/-- The loop test keeps the count. -/
theorem Counts.test (small : maxCount.toNat < 2 ^ 31) {count : Nat} {counter : Word}
    (counts : Counts maxCount.toNat count .test counter) :
    Counts maxCount.toNat count (if below counter maxCount then .load else .done) counter := by
  have bounded : count ≤ maxCount.toNat := counts.bounded
  rw [counts.value, below_ofNat small bounded]
  by_cases more : count < maxCount.toNat
  · rw [decide_eq_true more]
    exact ⟨rfl, more, nofun⟩
  · rw [decide_eq_false more]
    exact ⟨rfl, bounded, fun _ => by omega⟩

/-- An access counts one more. -/
theorem Counts.next {limit count : Nat} {counter : Word} (counts : Counts limit count .access counter) :
    Counts limit (count + 1) .store (counter + 1) where
  value := by
    rw [counts.value, BitVec.ofNat_add]
    rfl
  bounded := counts.bounded
  done := nofun

theorem reads_append (past events : List Event) : reads (past ++ events) = reads past ++ reads events :=
  List.filterMap_append

theorem unread_wrote (past : List Event) (slot : Nat) (value : Word) :
    unread (past ++ [Event.wrote slot value]) = unread past ++ [slot] := by
  simp only [unread, List.foldl_append, List.foldl_cons, List.foldl_nil]

theorem unread_read (past : List Event) (slot : Nat) (value : Word) :
    unread (past ++ [Event.read slot value]) = (unread past).erase slot := by
  simp only [unread, List.foldl_append, List.foldl_cons, List.foldl_nil]

variable {history events : List Event} {published taken : Nat} {state : State} {ring : Ring}

/-- A write adds the next value to the unread ones. -/
theorem Delivered.write {count slot : Nat} {value : Word} {child : Child}
    (delivered : Delivered history taken count ring child) (room : count < rbLen)
    (next : slot = (child.localTail + count) % rbLen) (counted : value = BitVec.ofNat 32 (taken + count)) :
    Delivered (history ++ [Event.wrote slot value]) taken (count + 1)
      { ring with buff := Function.update ring.buff slot value } child where
  items := by
    rw [next, Circle.contents_push room, delivered.items, List.range'_1_concat, List.map_append, counted]
    rfl
  slots := by
    rw [unread_wrote, delivered.slots, next]
    exact (Circle.contents_succ _ _ _).symm
  order := by
    rw [reads_append, delivered.order]
    exact List.append_nil _
  sum := delivered.sum
  fresh := by
    apply delivered.fresh.append
    intro other _ same
    cases same
    rw [delivered.slots, next]
    exact Circle.slot_notMem room

/-- A read takes the oldest unread value. -/
theorem Delivered.read {count taken localTail : Nat} {pc after : Pc} {counter counted : Word} {entrySum : BitVec 64}
    (inside : localTail < rbLen) (small : taken < 2 ^ 31)
    (delivered : Delivered history taken (count + 1) ring ⟨pc, counter, localTail, entrySum⟩) :
    Delivered (history ++ [Event.read localTail (ring.buff localTail)]) (taken + 1) count ring
      ⟨after, counted, (localTail + 1) % rbLen, entrySum + (ring.buff localTail).signExtend 64⟩ := by
  have items := delivered.items
  have slots := delivered.slots
  have sum := delivered.sum
  dsimp only at items slots sum
  rw [Circle.contents_pop inside, List.range'_succ, List.map_cons, List.cons.injEq] at items
  obtain ⟨oldest, rest⟩ := items
  refine ⟨rest, ?_, ?_, ?_, ?_⟩
  · rw [unread_read, slots, Circle.contents_pop inside]
    exact List.erase_cons_head ..
  · rw [reads_append, delivered.order, oldest, List.range_succ, List.map_append]
    rfl
  · dsimp only
    rw [sum, oldest, signExtend_ofNat small, ← BitVec.ofNat_add, Nat.triangle_succ]
  · exact delivered.fresh.append nofun

/-- The ring has room for one more value when the test of the producer succeeds. -/
theorem Indices.notFull {buff : Nat → Word} {head tail localHead : Nat} {counter : Word} {child : Child}
    (indices : Indices published ⟨buff, head, tail⟩ ⟨.load, counter, localHead⟩ child)
    (free : (localHead + 1) % rbLen ≠ tail) : published + 0 + 1 + child.pc.pending < rbLen := by
  have tailBound := indices.tail
  have room := indices.room
  have localTail := indices.localTail
  have localHead := indices.localHead
  simp only [rbLen, Pc.pending, Pc.ready] at tailBound room localTail localHead free ⊢
  omega

/-- The ring holds a published value when the test of the consumer succeeds. -/
theorem Indices.notEmpty {parent : Parent} {child : Child} (indices : Indices published ring parent child)
    (filled : child.localTail ≠ ring.head) : 1 ≤ published := by
  apply Nat.one_le_iff_ne_zero.mpr
  intro empty
  apply filled
  rw [indices.head, indices.localTail, empty, Nat.add_zero, Nat.mod_mod]

/-- A read moves the private index of the consumer. -/
theorem Indices.take {rest localTail : Nat} {parent : Parent} {counter counted : Word} {entrySum summed : BitVec 64}
    (indices : Indices (rest + 1) ring parent ⟨.access, counter, localTail, entrySum⟩) :
    Indices rest ring parent ⟨.store, counted, (localTail + 1) % rbLen, summed⟩ := by
  have start : localTail = (ring.tail + 0) % rbLen := indices.localTail
  have head := indices.head
  have localHead := indices.localHead
  have room := indices.room
  refine ⟨indices.tail, ?_, ?_, ?_, ?_, Nat.zero_le _⟩
  · change (localTail + 1) % rbLen = (ring.tail + 1) % rbLen
    rw [start, Nat.mod_add_mod, Nat.add_zero]
  · rw [head, Nat.mod_add_mod, Nat.add_right_comm, Nat.add_assoc]
  · rw [localHead, Nat.mod_add_mod]
    congr 1
    dsimp only
    omega
  · change rest + parent.pc.pending + parent.pc.ready + 1 < rbLen
    omega

/-- The consumer publishes its index. -/
theorem Indices.release {localTail : Nat} {parent : Parent} {counter : Word} {entrySum : BitVec 64}
    (indices : Indices published ring parent ⟨.store, counter, localTail, entrySum⟩) :
    Indices published { ring with tail := localTail } parent ⟨.test, counter, localTail, entrySum⟩ := by
  have inside : localTail < rbLen := indices.localTail.trans_lt (Nat.mod_lt _ (by decide))
  have wrapped := (Nat.mod_eq_of_lt inside).symm
  refine { indices with tail := inside, localTail := wrapped, room := ?_, filled := Nat.zero_le _ }
  exact (Nat.lt_succ_self _).trans indices.room

/-- Each step of the producer keeps the invariant. -/
theorem Holds.parentStep (small : maxCount.toNat < 2 ^ 31) (holds : Holds maxCount.toNat history published taken state)
    {parent : Parent} (stepped : Spsc.parentStep maxCount state.ring state.parent = some (ring, parent, events)) :
    ∃ published, Holds maxCount.toNat (history ++ events) published taken ⟨ring, parent, state.child⟩ := by
  obtain ⟨indices, parentCounts, childCounts, delivered⟩ := holds
  rcases state with ⟨⟨buff, head, tail⟩, ⟨pc, counter, localHead⟩, child⟩
  dsimp only at indices parentCounts childCounts delivered
  cases pc with
  | test =>
      have counts := parentCounts.test small
      cases stepped
      rw [List.append_nil]
      revert counts
      cases below counter maxCount with
      | true => exact fun counts => ⟨published, { indices with }, counts, childCounts, { delivered with }⟩
      | false => exact fun counts => ⟨published, { indices with }, counts, childCounts, { delivered with }⟩
  | load =>
      cases stepped
      rw [List.append_nil]
      by_cases free : (localHead + 1) % rbLen ≠ tail
      · simp only [if_pos free]
        have room := indices.notFull free
        exact ⟨published, { indices with room }, { parentCounts with done := nofun }, childCounts, { delivered with }⟩
      · simp only [if_neg free]
        have bounded := Nat.le_of_succ_le parentCounts.bounded
        exact ⟨published, { indices with }, ⟨parentCounts.value, bounded, nofun⟩, childCounts, { delivered with }⟩
  | access =>
      cases stepped
      have slot : localHead = (child.localTail + published) % rbLen := indices.localHead
      have room : published < rbLen := Nat.lt_of_le_of_lt (by omega) indices.room
      refine ⟨published, { indices with localHead := ?_, room := indices.room }, parentCounts.next, childCounts,
        delivered.write room slot parentCounts.value⟩
      dsimp only [Pc.pending]
      rw [slot, Nat.mod_add_mod, Nat.add_assoc]
  | store =>
      cases stepped
      rw [List.append_nil]
      refine ⟨published + 1, ?_, ⟨parentCounts.value, parentCounts.bounded, nofun⟩, childCounts, { delivered with }⟩
      exact { indices with
        head := indices.localHead
        room := indices.room
        filled := indices.filled.trans (Nat.le_succ published) }
  | done => cases stepped

/-- Each step of the consumer keeps the invariant. -/
theorem Holds.childStep (small : maxCount.toNat < 2 ^ 31) (holds : Holds maxCount.toNat history published taken state)
    {child : Child} (stepped : Spsc.childStep maxCount state.ring state.child = some (ring, child, events)) :
    ∃ published taken, Holds maxCount.toNat (history ++ events) published taken ⟨ring, state.parent, child⟩ := by
  obtain ⟨indices, parentCounts, childCounts, delivered⟩ := holds
  rcases state with ⟨⟨buff, head, tail⟩, parent, ⟨pc, counter, localTail, entrySum⟩⟩
  dsimp only at indices parentCounts childCounts delivered
  cases pc with
  | test =>
      have counts := childCounts.test small
      cases stepped
      rw [List.append_nil]
      revert counts
      cases below counter maxCount with
      | true => exact fun counts => ⟨published, taken, { indices with }, parentCounts, counts, { delivered with }⟩
      | false => exact fun counts => ⟨published, taken, { indices with }, parentCounts, counts, { delivered with }⟩
  | load =>
      cases stepped
      rw [List.append_nil]
      by_cases filled : localTail ≠ head
      · simp only [if_pos filled]
        exact ⟨published, taken, { indices with filled := indices.notEmpty filled }, parentCounts,
          { childCounts with done := nofun }, { delivered with }⟩
      · simp only [if_neg filled]
        exact ⟨published, taken, { indices with filled := Nat.zero_le _ }, parentCounts,
          ⟨childCounts.value, Nat.le_of_succ_le childCounts.bounded, nofun⟩, { delivered with }⟩
  | access =>
      cases stepped
      obtain ⟨rest, rfl⟩ : ∃ rest, published = rest + 1 := Nat.exists_eq_add_of_le' indices.filled
      have inside : localTail < rbLen := indices.localTail.trans_lt (Nat.mod_lt _ (by decide))
      have bounded : taken < maxCount.toNat := childCounts.bounded
      have written : taken + (rest + 1) = taken + 1 + rest := by omega
      rw [Nat.add_right_comm] at delivered
      rw [written] at parentCounts
      exact ⟨rest, taken + 1, indices.take, parentCounts, childCounts.next,
        delivered.read inside (bounded.trans small)⟩
  | store =>
      cases stepped
      rw [List.append_nil]
      exact ⟨published, taken, indices.release, parentCounts,
        ⟨childCounts.value, childCounts.bounded, nofun⟩, { delivered with }⟩
  | done => cases stepped

/-- Every run keeps the invariant. -/
theorem run_holds (small : maxCount.toNat < 2 ^ 31) {schedule : List Action} {trace : List Event}
    (ran : (machine maxCount).run initial schedule = some (state, trace)) :
    ∃ published taken, Holds maxCount.toNat trace published taken state := by
  refine (machine maxCount).run_invariant
    (fun past state => ∃ published taken, Holds maxCount.toNat past published taken state)
    ?_ ⟨0, 0, initial_holds _⟩ ran
  rintro past state action next events ⟨published, taken, holds⟩ stepped
  cases action with
  | parent =>
      obtain ⟨⟨ring, parent, emitted⟩, moved, same⟩ := Option.map_eq_some_iff.mp stepped
      cases same
      obtain ⟨published, kept⟩ := holds.parentStep small moved
      exact ⟨published, taken, kept⟩
  | child =>
      obtain ⟨⟨ring, child, emitted⟩, moved, same⟩ := Option.map_eq_some_iff.mp stepped
      cases same
      exact holds.childStep small moved

theorem product_lt {count : Nat} (small : count < 2 ^ 31) : count * (count - 1) < 2 ^ 64 := by
  have fewer : count - 1 ≤ 2 ^ 31 := (Nat.sub_le count 1).trans small.le
  exact lt_of_le_of_lt (Nat.mul_le_mul small.le fewer) (by decide)

/-- The printed expression does not overflow below the bound, and it is zero when there are no values. -/
theorem expectedSum_toNat (small : maxCount.toNat < 2 ^ 31) :
    (expectedSum maxCount).toNat = maxCount.toNat * (maxCount.toNat - 1) / 2 := by
  rw [expectedSum, BitVec.sub_add_cancel, BitVec.toNat_udiv, BitVec.toNat_mul, Nat.mul_comm]
  by_cases empty : maxCount = 0
  · subst empty
    rfl
  · have positive : (1 : BitVec 64) ≤ maxCount := by
      have nonzero : maxCount.toNat ≠ 0 := fun zero => empty (BitVec.eq_of_toNat_eq zero)
      exact Nat.one_le_iff_ne_zero.mpr nonzero
    have smaller : (maxCount - 1).toNat = maxCount.toNat - 1 := BitVec.toNat_sub_of_le positive
    rw [smaller, Nat.mod_eq_of_lt (product_lt small)]
    rfl

/-- The consumer reads 0, 1, 2 and so on.
The producer writes no slot whose value has not been read, and at most `RB_LEN - 1` values are unread.
When the consumer leaves its loop it has read every value, and its sum is the printed expression. -/
theorem spsc_delivery (maxCount : BitVec 64) (small : maxCount.toNat < 2 ^ 31) (schedule : List Action)
    (state : State) (trace : List Event)
    (ran : (machine maxCount).run initial schedule = some (state, trace)) :
    reads trace = (List.range (reads trace).length).map (BitVec.ofNat 32) ∧
    Always (fun before event => ∀ slot value, event = .wrote slot value → slot ∉ unread before) trace ∧
    (unread trace).length ≤ rbLen - 1 ∧
    (state.child.pc = .done →
      (reads trace).length = maxCount.toNat ∧ state.child.entrySum = expectedSum maxCount ∧
      state.child.entrySum.toNat = maxCount.toNat * (maxCount.toNat - 1) / 2) := by
  obtain ⟨published, taken, holds⟩ := run_holds small ran
  have count : (reads trace).length = taken := by
    rw [holds.delivered.order, List.length_map, List.length_range]
  refine ⟨?_, holds.delivered.fresh, ?_, fun left => ?_⟩
  · rw [count]
    exact holds.delivered.order
  · rw [holds.delivered.slots, Circle.contents_length]
    have room := holds.indices.room
    omega
  · have all := holds.childCounts.done left
    have sum := holds.delivered.sum
    rw [all] at sum count
    have value : state.child.entrySum.toNat = maxCount.toNat * (maxCount.toNat - 1) / 2 := by
      rw [sum, BitVec.toNat_ofNat, Nat.mod_eq_of_lt ((Nat.div_le_self _ _).trans_lt (product_lt small))]
    exact ⟨count, BitVec.eq_of_toNat_eq (value.trans (expectedSum_toNat small).symm), value⟩

/-- The producer fills the ring, the processes alternate over its end, and the consumer reads the rest. -/
def twelveValues : List Action :=
  List.replicate 36 Action.parent ++
    (List.replicate 3 (List.replicate 4 Action.child ++ List.replicate 4 Action.parent)).flatten ++
    List.replicate 37 Action.child

/-- The consumer of twelve values leaves its loop with the sum 66. -/
theorem spsc_twelve_values :
    ∃ state trace, (machine 12).run initial twelveValues = some (state, trace) ∧
      reads trace = (List.range 12).map (BitVec.ofNat 32) ∧ state.child.entrySum.toNat = 66 := by
  have finished : ((machine 12).run initial twelveValues).map (fun result => result.1.child.pc) = some .done := by
    decide +kernel
  obtain ⟨⟨state, trace⟩, ran, left⟩ := Option.map_eq_some_iff.mp finished
  obtain ⟨order, -, -, ends⟩ := spsc_delivery 12 (by decide) _ state trace ran
  obtain ⟨count, -, sum⟩ := ends left
  rw [count] at order
  exact ⟨state, trace, ran, order, sum⟩

end Ostep.Spsc
