import Ostep.Library.History
import Ostep.Construction.EventQueue

namespace Ostep.EventQueue

open Library Library.History

theorem evtQMask_eq : evtQMask = Ring.mask 32 6 := by decide

/-- The events that have not been released, the oldest first. -/
def EventQ.items (q : EventQ) : List Event := Ring.contents evtQMask q.entries q.tail q.head

theorem accepted_append (past reports : List Report) :
    accepted (past ++ reports) = accepted past ++ accepted reports := List.filterMap_append

theorem delivered_append (past reports : List Report) :
    delivered (past ++ reports) = delivered past ++ delivered reports := List.filterMap_append

variable {history reports : List Report}

/-- Reports other than a load of the head keep the last load. -/
theorem LoadedEmpty.append (loaded : LoadedEmpty history) (unloaded : .loadedHead ∉ reports) :
    LoadedEmpty (history ++ reports) := by
  obtain ⟨before, after, rfl, last, empty⟩ := loaded
  refine ⟨before, after ++ reports, by simp, ?_, empty⟩
  rw [List.mem_append, not_or]
  exact ⟨last, unloaded⟩

/-- A load of the head of the empty queue. -/
theorem loadedEmpty_of_empty (empty : accepted history = delivered history) :
    LoadedEmpty (history ++ [Report.loadedHead]) :=
  ⟨history, [], rfl, List.not_mem_nil, empty⟩

/-- What the task knows from its loads. -/
def Pc.Sound (history : List Report) (q : EventQ) : Pc → Prop
  | .testTail head => head = q.tail ∧ LoadedEmpty history ∨ head ≠ q.tail ∧ q.items ≠ []
  | .testHead tail => tail = q.tail
  | .loadIndex => q.items ≠ []
  | .copy tail => tail = q.tail ∧ q.items ≠ []
  | .advance event => q.items.head? = some event
  | _ => True

/-- The queue holds the accepted events that have not been delivered. -/
structure Holds (history : List Report) (state : State) : Prop where
  bounded : (state.q.head - state.q.tail).toNat ≤ evtQCap.toNat
  order : accepted history = delivered history ++ state.q.items
  sound : state.task.Sound history state.q
  full : Always (fun before report => report = .refused →
    (accepted before).length = (delivered before).length + evtQCap.toNat) history
  empty : Always (fun before report => report = .missed → LoadedEmpty before) history

/-- The queue starts empty. -/
theorem initial_holds (start : Word) (entries : Word → Event) : Holds [] (initial start entries) where
  bounded := by simp [initial]
  order := (Ring.contents_self evtQMask entries start).symm
  sound := trivial
  full := always_nil
  empty := always_nil

variable {q : EventQ} {state : State} {event : Event}

/-- The queue is empty exactly when the counters agree. -/
theorem items_eq_nil_iff : q.items = [] ↔ q.head = q.tail := by
  rw [← List.length_eq_zero_iff, EventQ.items, Ring.contents_length, Ring.distance_eq_zero_iff]

/-- A push into a queue with room adds its event behind the others. -/
theorem items_push (room : (q.head - q.tail).toNat < evtQCap.toNat) (event : Event) :
    EventQ.items { q with
      entries := Function.update q.entries (q.head &&& evtQMask) event
      head := q.head + 1 } = q.items ++ [event] := by
  simp only [EventQ.items, evtQMask_eq]
  have fits : evtQCap.toNat + 1 < 2 ^ 32 := by decide
  exact Ring.contents_push (by decide) room (by omega) event

/-- A pop takes the oldest event. -/
theorem items_pop (nonempty : q.items ≠ []) :
    q.items = q.entries (q.tail &&& evtQMask) :: EventQ.items { q with tail := q.tail + 1 } :=
  Ring.contents_advance_read fun same => nonempty (items_eq_nil_iff.mpr same)

/-- What the task knows survives an interrupt. -/
theorem Pc.Sound.interrupt {pc : Pc} (sound : pc.Sound history q) {after : EventQ} (tail : after.tail = q.tail)
    {added : List Event} (items : after.items = q.items ++ added) (unloaded : .loadedHead ∉ reports) :
    pc.Sound (history ++ reports) after := by
  have nonempty (some : q.items ≠ []) : after.items ≠ [] := by
    rw [items]
    exact List.append_ne_nil_of_left_ne_nil some added
  cases pc with
  | testTail head =>
      rcases sound with ⟨same, loaded⟩ | ⟨different, some⟩
      · exact Or.inl ⟨same.trans tail.symm, loaded.append unloaded⟩
      · exact Or.inr ⟨fun same => different (same.trans tail), nonempty some⟩
  | testHead loaded => exact sound.trans tail.symm
  | loadIndex => exact nonempty sound
  | copy loaded => exact ⟨sound.1.trans tail.symm, nonempty sound.2⟩
  | advance event =>
      have first : q.items.head? = some event := sound
      change after.items.head? = some event
      rw [items, List.head?_append, first]
      rfl
  | _ => trivial

/-- A report that no event was accepted or delivered keeps the order. -/
theorem Holds.order_report (holds : Holds history state) {report : Report}
    (silent : accepted [report] = [] ∧ delivered [report] = []) :
    accepted (history ++ [report]) = delivered (history ++ [report]) ++ state.q.items := by
  rw [accepted_append, delivered_append, silent.1, silent.2, List.append_nil, List.append_nil, holds.order]

/-- A push keeps the queue in order. It is refused only when the queue is full. -/
theorem Holds.push (holds : Holds history state) (event : Event) :
    Holds (history ++ [if (eventQPushFromIsr state.q event).2 then .accepted event else .refused])
      { state with q := (eventQPushFromIsr state.q event).1 } := by
  have order := holds.order
  unfold eventQPushFromIsr
  split
  · next full =>
      refine ⟨holds.bounded, holds.order_report ⟨rfl, rfl⟩,
        holds.sound.interrupt rfl (List.append_nil _).symm (by simp), ?_, holds.empty.append nofun⟩
      apply holds.full.append
      intro _
      rw [order, List.length_append, EventQ.items, Ring.contents_length, full]
  · next room =>
      have free : (state.q.head - state.q.tail).toNat < evtQCap.toNat :=
        lt_of_le_of_ne holds.bounded fun same => room (BitVec.eq_of_toNat_eq same)
      have items := items_push free event
      have wraps : (state.q.head - state.q.tail).toNat + 1 < 2 ^ 32 := lt_of_le_of_lt free (by decide)
      refine ⟨?_, ?_, holds.sound.interrupt rfl items (by simp), holds.full.append nofun, holds.empty.append nofun⟩
      · exact (Ring.distance_write wraps).trans_le free
      · rw [accepted_append, delivered_append, order, items]
        simp [accepted, delivered]

/-- The events of an empty queue have all been delivered. -/
theorem Holds.drained (holds : Holds history state) (empty : state.q.items = []) :
    accepted history = delivered history := by
  rw [holds.order, empty, List.append_nil]

/-- The task reports a load of the head. -/
theorem Holds.load {pc : Pc} (holds : Holds history ⟨q, pc⟩) {next : Pc}
    (sound : next.Sound (history ++ [Report.loadedHead]) q) : Holds (history ++ [Report.loadedHead]) ⟨q, next⟩ where
  bounded := holds.bounded
  order := holds.order_report ⟨rfl, rfl⟩
  sound := sound
  full := holds.full.append nofun
  empty := holds.empty.append nofun

/-- The task finds the queue empty. -/
theorem Holds.miss {pc : Pc} (holds : Holds history ⟨q, pc⟩) (loaded : LoadedEmpty history) :
    Holds (history ++ [Report.missed]) ⟨q, .idle⟩ where
  bounded := holds.bounded
  order := holds.order_report ⟨rfl, rfl⟩
  sound := trivial
  full := holds.full.append nofun
  empty := holds.empty.append fun _ => loaded

/-- The task takes the oldest event and releases its entry. -/
theorem Holds.release (holds : Holds history ⟨q, .advance event⟩) :
    Holds (history ++ [Report.delivered event]) ⟨{ q with tail := q.tail + 1 }, .idle⟩ := by
  have first : q.items.head? = some event := holds.sound
  have nonempty : q.items ≠ [] := by
    intro empty
    rw [empty] at first
    cases first
  have items := items_pop nonempty
  rw [items, List.head?_cons, Option.some.injEq] at first
  rw [first] at items
  have order : accepted history = delivered history ++ q.items := holds.order
  refine ⟨?_, ?_, trivial, holds.full.append nofun, holds.empty.append nofun⟩
  · have different : q.head ≠ q.tail := fun same => nonempty (items_eq_nil_iff.mpr same)
    have bounded : (q.head - q.tail).toNat ≤ evtQCap.toNat := holds.bounded
    have shorter : (q.head - (q.tail + 1)).toNat + 1 = (q.head - q.tail).toNat := Ring.distance_read different
    exact (Nat.le_succ _).trans (shorter.trans_le bounded)
  · rw [accepted_append, delivered_append, order, items]
    simp [accepted, delivered]

/-- Each access of the task keeps the queue in order. -/
theorem Holds.pop {after : EventQ} {pc task : Pc} (holds : Holds history ⟨q, pc⟩)
    (stepped : popStep q pc = some (after, task, reports)) : Holds (history ++ reports) ⟨after, task⟩ := by
  have sound := holds.sound
  dsimp only at sound
  cases pc with
  | idle => cases stepped
  | loadHead =>
      cases stepped
      apply holds.load
      by_cases same : q.head = q.tail
      · exact Or.inl ⟨same, loadedEmpty_of_empty (holds.drained (items_eq_nil_iff.mpr same))⟩
      · exact Or.inr ⟨same, fun empty => same (items_eq_nil_iff.mp empty)⟩
  | loadTail =>
      cases stepped
      rw [List.append_nil]
      exact { holds with sound := rfl }
  | testTail head =>
      simp only [popStep, Option.some.injEq, Prod.mk.injEq, tested] at stepped
      rcases sound with ⟨same, loaded⟩ | ⟨different, some⟩
      · rw [if_pos same] at stepped
        obtain ⟨rfl, same⟩ := stepped
        cases same
        exact holds.miss loaded
      · rw [if_neg different] at stepped
        obtain ⟨rfl, same⟩ := stepped
        cases same
        rw [List.append_nil]
        exact { holds with sound := some }
  | testHead tail =>
      cases sound
      simp only [popStep, Option.some.injEq, Prod.mk.injEq, tested] at stepped
      by_cases same : q.head = q.tail
      · simp only [if_pos same] at stepped
        obtain ⟨rfl, rfl, rfl⟩ := stepped
        have loaded := loadedEmpty_of_empty (holds.drained (items_eq_nil_iff.mpr same))
        have read : Holds (history ++ [Report.loadedHead]) ⟨q, .idle⟩ := holds.load trivial
        rw [← List.singleton_append, ← List.append_assoc]
        exact read.miss loaded
      · simp only [if_neg same] at stepped
        obtain ⟨rfl, rfl, rfl⟩ := stepped
        exact holds.load fun empty => same (items_eq_nil_iff.mp empty)
  | loadIndex =>
      cases stepped
      rw [List.append_nil]
      exact { holds with sound := ⟨rfl, sound⟩ }
  | copy tail =>
      cases stepped
      obtain ⟨rfl, some⟩ := sound
      rw [List.append_nil]
      refine { holds with sound := ?_ }
      dsimp only [Pc.Sound]
      rw [items_pop some]
      rfl
  | advance event =>
      cases stepped
      exact holds.release

/-- Every run keeps the queue in order. -/
theorem run_holds {start : Word} {entries : Word → Event} {schedule : List Action}
    (ran : machine.run (initial start entries) schedule = some (state, history)) : Holds history state := by
  refine machine.run_invariant Holds ?_ (initial_holds start entries) ran
  intro past state action next reports holds stepped
  cases action with
  | push event =>
      cases stepped
      exact holds.push event
  | call headFirst =>
      simp only [machine, Option.ite_none_right_eq_some] at stepped
      obtain ⟨-, same⟩ := stepped
      cases same
      rw [List.append_nil]
      refine { holds with sound := ?_ }
      cases headFirst <;> trivial
  | pop =>
      obtain ⟨⟨q, task, emitted⟩, moved, same⟩ := Option.map_eq_some_iff.mp stepped
      cases same
      exact holds.pop moved

/-- The counters are at most one lap apart, also across the wrap of the counters.
The delivered events begin the accepted ones.
A push is refused only when the queue holds as many events as it has entries.
A pop fails only if every accepted event had been delivered at its load of the head. -/
theorem eventQueue_fifo (start : Word) (entries : Word → Event) (schedule : List Action) (state : State)
    (trace : List Report) (ran : machine.run (initial start entries) schedule = some (state, trace)) :
    (state.q.head - state.q.tail).toNat ≤ evtQCap.toNat ∧
    delivered trace <+: accepted trace ∧
    Always (fun before report => report = .refused →
      (accepted before).length = (delivered before).length + evtQCap.toNat) trace ∧
    Always (fun before report => report = .missed → LoadedEmpty before) trace := by
  have holds := run_holds ran
  exact ⟨holds.bounded, ⟨_, holds.order.symm⟩, holds.full, holds.empty⟩

/-- The counters wrap at the first of 65 pushes, and the handler fires once more during the pop. -/
def acrossWrap : List Action :=
  (List.range 65).map (fun data => Action.push ⟨.cmdDone, BitVec.ofNat 32 data⟩) ++
    [Action.call true, .pop, .pop, .push ⟨.error, 65⟩, .pop, .pop, .pop, .push ⟨.error, 66⟩]

/-- Two pushes are refused, and the delivered event begins the accepted ones. -/
theorem eventQueue_across_wrap :
    ∃ state trace, machine.run (initial (-1) fun _ => ⟨.linkUp, 0⟩) acrossWrap = some (state, trace) ∧
      trace.count .refused = 2 ∧ delivered trace = [⟨.cmdDone, 0⟩] ∧ delivered trace <+: accepted trace ∧
      (state.q.head - state.q.tail).toNat ≤ 64 := by
  have wrapped : (machine.run (initial (-1) fun _ => ⟨.linkUp, 0⟩) acrossWrap).map
      (fun result => (result.2.count .refused, delivered result.2)) = some (2, [⟨.cmdDone, 0⟩]) := by
    decide +kernel
  obtain ⟨⟨state, trace⟩, ran, results⟩ := Option.map_eq_some_iff.mp wrapped
  obtain ⟨refusals, deliveries⟩ := Prod.mk.inj results
  obtain ⟨bounded, begins, -⟩ := eventQueue_fifo _ _ _ state trace ran
  exact ⟨state, trace, ran, refusals, deliveries, begins, bounded⟩

end Ostep.EventQueue
