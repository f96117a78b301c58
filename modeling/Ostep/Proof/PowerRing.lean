import Ostep.Construction.PowerRing

namespace Ostep.PowerRing

open Library

theorem ringMask_eq : ringMask = Ring.mask 32 10 := by decide

/-- The occupied entries of the ring are the queue. -/
structure Refines (r : Ring) (queue : List Word) : Prop where
  contents : Ring.contents (Ring.mask 32 10) r.entries r.head r.tail = queue
  bound : queue.length ≤ ringCap

variable {r : Ring} {queue : List Word}

theorem Refines.size (refines : Refines r queue) : (ringSize r).toNat = queue.length := by
  rw [← refines.contents, Ring.contents_length, ringSize]

theorem ringEmpty_iff (r : Ring) : ringEmpty r = true ↔ (ringSize r).toNat = 0 := by
  rw [ringEmpty, beq_iff_eq, ringSize, Ring.distance_eq_zero_iff, eq_comm]

theorem ringFull_iff (r : Ring) : ringFull r = true ↔ (ringSize r).toNat = ringCap := by
  rw [ringFull, beq_iff_eq, ← BitVec.toNat_inj]
  rfl

/-- A push refines the push of the queue. -/
theorem Refines.push (refines : Refines r queue) (value : Word) :
    (step r (.push value)).2 = (Fifo.step ringCap queue (.push value)).2 ∧
      Refines (step r (.push value)).1 (Fifo.step ringCap queue (.push value)).1 := by
  have bound := refines.bound
  have full := ringFull_iff r
  rw [refines.size] at full
  by_cases room : queue.length < ringCap
  · have notFull : ¬ringFull r = true := fun isFull => room.ne (full.mp isFull)
    rw [step, ringPush, if_neg notFull, Fifo.step, if_pos room]
    have distance : (r.tail - r.head).toNat < 2 ^ 10 := refines.size ▸ room
    refine ⟨rfl, ?_, by rwa [List.length_append, List.length_singleton, Nat.succ_le_iff]⟩
    rw [ringMask_eq, ← refines.contents]
    exact Ring.contents_push (by decide) distance (by omega) value
  · have isFull : ringFull r = true := full.mpr (le_antisymm bound (Nat.not_lt.mp room))
    rw [step, ringPush, if_pos isFull, Fifo.step, if_neg room]
    exact ⟨rfl, refines⟩

/-- A pop refines the pop of the queue. -/
theorem Refines.pop (refines : Refines r queue) :
    (step r .pop).2 = (Fifo.step ringCap queue .pop).2 ∧
      Refines (step r .pop).1 (Fifo.step ringCap queue .pop).1 := by
  have empty := ringEmpty_iff r
  rw [refines.size, List.length_eq_zero_iff] at empty
  by_cases isEmpty : ringEmpty r = true
  · obtain rfl := empty.mp isEmpty
    rw [step, ringPop, if_pos isEmpty]
    exact ⟨rfl, refines⟩
  · have different : r.tail ≠ r.head := fun same => isEmpty (beq_iff_eq.mpr same.symm)
    have contents := refines.contents
    rw [Ring.contents_advance_read different] at contents
    subst contents
    rw [step, ringPop, if_neg isEmpty, ringMask_eq]
    exact ⟨rfl, rfl, (Nat.le_succ _).trans refines.bound⟩

theorem Refines.step (refines : Refines r queue) (call : Fifo.Call Word) :
    (step r call).2 = (Fifo.step ringCap queue call).2 ∧
      Refines (step r call).1 (Fifo.step ringCap queue call).1 := by
  cases call with
  | push value => exact refines.push value
  | pop => exact refines.pop

/-- The ring answers as its queue does. -/
theorem Refines.answers (refines : Refines r queue) : Answers r queue.length where
  size := refines.size
  bound := refines.bound
  empty := by rw [ringEmpty_iff, refines.size]
  full := by rw [ringFull_iff, refines.size]
  pushFails value := by
    rw [← refines.size, ← ringFull_iff, ringPush]
    split <;> simp_all
  popFails := by
    rw [← refines.size, ← ringEmpty_iff, ringPop]
    split <;> simp_all
  pushKeeps value fails := by
    rw [ringPush] at fails ⊢
    split <;> simp_all
  popKeeps fails := by
    rw [ringPop] at fails ⊢
    split <;> simp_all

/-- The ring is a queue of 1024 values for every common start of its counters and every sequence of calls. -/
theorem ring_refines_queue (start : Word) (entries : Word → Word) (schedule : List (Fifo.Call Word)) :
    ∃ r queue replies, machine.run ⟨start, start, entries⟩ schedule = some (r, replies) ∧
      (Fifo.machine ringCap).run [] schedule = some (queue, replies) ∧ Answers r queue.length := by
  obtain ⟨queue, replies, ran, -⟩ := Fifo.run_exists ringCap schedule
  have initial : Refines ⟨start, start, entries⟩ [] := ⟨Ring.contents_self _ _ _, Nat.zero_le ringCap⟩
  obtain ⟨r, ringRan, refines⟩ := (Fifo.machine ringCap).run_simulation machine (fun _ => True) Refines
    (fun _ _ _ _ _ => id) (fun low state call next events refines _ stepped => by
      obtain ⟨rfl, rfl⟩ := Prod.mk.inj (Option.some.inj stepped)
      obtain ⟨same, kept⟩ := refines.step call
      exact ⟨_, congrArg (fun reply => some (_, [reply])) same, kept⟩) initial ran trivial
  exact ⟨r, queue, replies, ringRan, ran, refines.answers⟩

end Ostep.PowerRing
