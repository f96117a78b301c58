import Ostep.Proof.PacketProc.Move

namespace Ostep.PacketProc

open Library

/-- A ring of `main` holds at most as many entries as it has slots. -/
structure Ringbuf.Bounded (ring : Ringbuf) : Prop where
  mask : ring.mask = ringMask
  bound : ring.entries ≤ bufferSize

variable {ring next : Ringbuf} {call : RingCall} {full : Ringbuf → Bool}

/-- The mirrored test sees a full ring only while the mirror bit of the tail is clear. -/
theorem mirrorFull_iff (bounded : ring.Bounded) :
    mirrorFull ring = true ↔ ring.entries = bufferSize ∧ ring.tail.getLsbD 7 = false := by
  have bound := bounded.bound
  have mirror : BitVec.ofNat 32 bufferSize = BitVec.twoPow 32 7 := by decide
  have lap : (BitVec.twoPow 32 7).toNat = 128 := by decide
  rw [mirrorFull, ringIsFull, beq_iff_eq, mirror, Ring.xor_twoPow]
  rw [Ringbuf.entries, bufferSize] at bound ⊢
  cases ring.tail.getLsbD 7 with
  | false =>
      rw [if_neg Bool.false_ne_true]
      simp only [and_true]
      bv_omega
  | true =>
      rw [if_pos rfl]
      simp only [reduceCtorEq, and_false, iff_false]
      bv_omega

/-- The slot of the head is unread exactly when all slots are. -/
theorem unread_head_iff (bounded : ring.Bounded) :
    ring.Unread (ring.head &&& ring.mask) ↔ ring.entries = bufferSize := by
  have bound := bounded.bound
  rw [Ringbuf.Unread, bounded.mask, ringMask_eq]
  constructor
  · rintro ⟨offset, inside, same⟩
    by_contra short
    have room : (ring.head - ring.tail).toNat < 2 ^ 7 := lt_of_le_of_ne bound short
    exact Ring.slot_ne (by decide) inside room same.symm
  · intro all
    refine ⟨0, by rw [all]; decide, ?_⟩
    apply BitVec.eq_of_toNat_eq
    rw [Ring.and_mask_toNat (by decide), Ring.and_mask_toNat (by decide)]
    rw [Ringbuf.entries, bufferSize] at all
    bv_omega

/-- A step keeps the bound when its push finds a free slot. -/
theorem Ringbuf.Bounded.step (bounded : ring.Bounded) {events : List Unit}
    (stepped : (ringMachine full).step ring call = some (next, events))
    (room : ∀ index, call = .push index → full ring = false → ring.entries < bufferSize) : next.Bounded := by
  have bound := bounded.bound
  obtain ⟨open_, made⟩ := Option.ite_none_left_eq_some.mp stepped
  obtain ⟨rfl, -⟩ := Prod.mk.inj (Option.some.inj made)
  refine ⟨?_, ?_⟩
  · cases call <;> exact bounded.mask
  · cases call with
    | push index =>
        have free := room index rfl (Bool.eq_false_iff.mpr open_)
        rw [Ringbuf.entries, bufferSize] at free
        change (ring.head + BitVec.ofNat 32 1 - ring.tail).toNat ≤ bufferSize
        rw [Ring.distance_write (by omega)]
        exact free
    | pop =>
        have some : ring.entries ≠ 0 := of_decide_eq_false (Bool.eq_false_iff.mpr open_)
        have different : ring.head ≠ ring.tail := mt (Ring.distance_eq_zero_iff ring.tail ring.head).mpr some
        have fewer := Ring.distance_read different
        change (ring.head - (ring.tail + BitVec.ofNat 32 1)).toNat ≤ bufferSize
        rw [Ringbuf.entries] at bound
        omega

theorem initial_bounded : initial.freeRing.Bounded ∧ initial.readyRing.Bounded :=
  ⟨⟨rfl, by decide⟩, ⟨rfl, by decide⟩⟩

/-- A producer that counts keeps the bound. -/
theorem run_counted_bounded {start final : Ringbuf} {schedule : List RingCall} {events : List Unit}
    (bounded : start.Bounded) (ran : (ringMachine countedFull).run start schedule = some (final, events)) :
    final.Bounded := by
  refine (ringMachine countedFull).run_invariant (fun _ ring => ring.Bounded) ?_ bounded ran
  intro _ ring call next events bounded stepped
  refine bounded.step stepped fun index _ free => ?_
  exact Nat.lt_of_not_le (of_decide_eq_false free)

/-- A push of the relying producer spares the unread slots exactly when it avoids the mirror. -/
theorem sparesUnread_iff (bounded : ring.Bounded) : SparesUnread ring call ↔ AvoidsMirror ring call := by
  cases call with
  | push index =>
      have full := mirrorFull_iff bounded
      have unread := unread_head_iff bounded
      rw [SparesUnread, AvoidsMirror, Ringbuf.Mirrored, unread, ← Bool.not_eq_true, full]
      cases ring.tail.getLsbD 7 <;> simp
  | pop => exact Iff.rfl

/-- A step of the relying producer that avoids the mirror keeps the bound. -/
theorem Ringbuf.Bounded.step_mirror (bounded : ring.Bounded) (avoids : AvoidsMirror ring call) {events : List Unit}
    (stepped : (ringMachine mirrorFull).step ring call = some (next, events)) : next.Bounded := by
  refine bounded.step stepped ?_
  rintro index rfl free
  have spares := (sparesUnread_iff bounded).mpr avoids free
  exact lt_of_le_of_ne bounded.bound fun all => spares ((unread_head_iff bounded).mpr all)

/-- The empty test is exact in every ring. -/
theorem ringIsEmpty_iff (ring : Ringbuf) : ringIsEmpty ring.head ring.tail = true ↔ ring.entries = 0 := by
  rw [ringIsEmpty, beq_iff_eq, Ringbuf.entries, Ring.distance_eq_zero_iff]

/-- Both tests are exact unless the mirror hides a full ring. -/
theorem testsExact_iff (bounded : ring.Bounded) : ring.TestsExact ↔ ¬ring.Mirrored := by
  have full := mirrorFull_iff bounded
  rw [mirrorFull] at full
  rw [Ringbuf.TestsExact, Ringbuf.Mirrored, full]
  simp only [ringIsEmpty_iff, iff_self, and_true]
  cases ring.tail.getLsbD 7 <;> simp

/-- From both rings of `main` and along every run of a producer that counts, the tests are exact in all states
exactly when no state has all slots unread and the mirror bit of the tail set; the empty test is always exact.
A producer that relies on the full test spares the unread slots exactly as long as no push comes in such a state,
and so it does when there is no such state. -/
theorem ring_mirror_exact_iff (start : Ringbuf) (started : start = initial.freeRing ∨ start = initial.readyRing)
    (schedule : List RingCall) :
    ((ringMachine countedFull).Reaches Ringbuf.TestsExact start schedule ↔
      (ringMachine countedFull).Reaches (¬·.Mirrored) start schedule) ∧
    (ringMachine countedFull).Reaches (fun ring => ringIsEmpty ring.head ring.tail = true ↔ ring.entries = 0)
      start schedule ∧
    ((ringMachine mirrorFull).Along SparesUnread start schedule ↔
      (ringMachine mirrorFull).Along AvoidsMirror start schedule) ∧
    ((ringMachine mirrorFull).Reaches (¬·.Mirrored) start schedule →
      (ringMachine mirrorFull).Along SparesUnread start schedule) := by
  have bounded : start.Bounded := by
    rcases started with rfl | rfl
    · exact initial_bounded.1
    · exact initial_bounded.2
  have spares : (ringMachine mirrorFull).Along SparesUnread start schedule ↔
      (ringMachine mirrorFull).Along AvoidsMirror start schedule := by
    constructor
    · exact (ringMachine mirrorFull).along_of_along Ringbuf.Bounded
        (fun _ _ _ _ bounded _ avoids stepped => bounded.step_mirror avoids stepped)
        (fun _ _ bounded => (sparesUnread_iff bounded).mp) bounded
    · exact (ringMachine mirrorFull).along_of_along Ringbuf.Bounded
        (fun _ _ _ _ bounded avoids _ stepped => bounded.step_mirror avoids stepped)
        (fun _ _ bounded => (sparesUnread_iff bounded).mpr) bounded
  refine ⟨⟨?_, ?_⟩, ?_, spares, fun clear => spares.mpr ?_⟩
  · intro exact before ring events inside ran
    exact (testsExact_iff (run_counted_bounded bounded ran)).mp (exact before ring events inside ran)
  · intro clear before ring events inside ran
    exact (testsExact_iff (run_counted_bounded bounded ran)).mpr (clear before ring events inside ran)
  · intro before ring events inside ran
    exact ringIsEmpty_iff ring
  · refine (ringMachine mirrorFull).along_of_reaches (fun ring call clear => ?_) clear
    cases call with
    | push index => exact clear
    | pop => trivial

/-- One entry in the ready ring is seen by both tests. -/
theorem ring_mirror_one_entry : ∃ ring events,
    (ringMachine countedFull).run initial.readyRing [.push 5] = some (ring, events) ∧
      ringIsEmpty ring.head ring.tail = false ∧ ringIsFull ring.head ring.tail = false := by
  have ran : (ringMachine countedFull).run initial.readyRing [.push 5] =
      some (initial.readyRing.perform (.push 5), []) := rfl
  have clear : (ringMachine countedFull).Reaches (¬·.Mirrored) initial.readyRing [.push 5] := by
    refine (ringMachine countedFull).reaches_cons_iff.mpr ⟨fun mirrored => absurd mirrored.1 (by decide), ?_⟩
    intro next events stepped
    cases stepped
    exact (ringMachine countedFull).reaches_nil fun mirrored => absurd mirrored.1 (by decide)
  obtain ⟨full, empty⟩ := (ring_mirror_exact_iff initial.readyRing (Or.inr rfl) [.push 5]).1.mpr clear _ _ _
    List.prefix_rfl ran
  refine ⟨_, _, ran, ?_, ?_⟩
  · exact Bool.eq_false_iff.mpr (mt empty.mp (by decide))
  · exact Bool.eq_false_iff.mpr (mt full.mp (by decide))

/-- The producer empties the free ring, and the consumer gives all indices back. -/
def firstLap : List RingCall :=
  List.replicate bufferSize .pop ++ (List.range bufferSize).map fun index => RingCall.push (BitVec.ofNat 32 index)

/-- After one lap of the free ring all 128 entries are unread, the test does not see it,
and the next push overwrites the oldest of them. -/
theorem ring_mirror_misses_full :
    (∃ ring events, (ringMachine countedFull).run initial.freeRing firstLap = some (ring, events) ∧
      ring.entries = bufferSize ∧ ringIsFull ring.head ring.tail = false) ∧
    ∃ ring events, (ringMachine mirrorFull).run initial.freeRing firstLap = some (ring, events) ∧
      mirrorFull ring = false ∧ ring.Unread (ring.head &&& ring.mask) := by
  constructor
  · have missed : ((ringMachine countedFull).run initial.freeRing firstLap).map
        (fun result => (result.1.entries, ringIsFull result.1.head result.1.tail)) = some (128, false) := by
      decide +kernel
    obtain ⟨⟨ring, events⟩, ran, seen⟩ := Option.map_eq_some_iff.mp missed
    obtain ⟨all, unseen⟩ := Prod.mk.inj seen
    exact ⟨ring, events, ran, all, unseen⟩
  · have missed : ((ringMachine mirrorFull).run initial.freeRing firstLap).map
        (fun result => (mirrorFull result.1, decide (0 < result.1.entries),
          decide (result.1.head &&& result.1.mask = (result.1.tail + BitVec.ofNat 32 0) &&& result.1.mask))) =
        some (false, true, true) := by
      decide +kernel
    obtain ⟨⟨ring, events⟩, ran, seen⟩ := Option.map_eq_some_iff.mp missed
    simp only [Prod.mk.injEq, decide_eq_true_eq] at seen
    obtain ⟨unseen, some, oldest⟩ := seen
    exact ⟨ring, events, ran, unseen, 0, some, oldest⟩

end Ostep.PacketProc
