import Mathlib.Data.List.FinRange
import Mathlib.Data.Multiset.AddSub
import Ostep.Construction.Dispatcher
import Ostep.Library.History

namespace Ostep.Dispatcher

open Library Library.Machine Library.History

variable {Thread Cb Ctx : Type}

section Table

variable {subs : Subs Cb Ctx}

/-- There is no slot to take exactly when the multiset is full. -/
theorem findSlot_eq_none_iff : findSlot subs = none ↔ (contents subs).card = maxSubs := by
  have full := List.length_filter_eq_length_iff (p := fun i => (subs i).active) (l := List.finRange maxSubs)
  rw [List.length_finRange] at full
  rw [findSlot, List.find?_eq_none, contents, Multiset.coe_card, List.length_map, full]
  simp only [Bool.not_eq_true', Bool.not_eq_false]

theorem card_contents_le (subs : Subs Cb Ctx) : (contents subs).card ≤ maxSubs := by
  rw [contents, Multiset.coe_card, List.length_map]
  exact (List.length_filter_le _ _).trans_eq List.length_finRange

/-- A slot that becomes active adds its entry. -/
theorem contents_update {i : Fin maxSubs} (inactive : (subs i).active = false) {sub : Subscriber Cb Ctx}
    (active : sub.active = true) : contents (Function.update subs i sub) = sub.entry ::ₘ contents subs := by
  have order := List.perm_cons_erase (List.mem_finRange i)
  have others : ∀ j ∈ (List.finRange maxSubs).erase i, Function.update subs i sub j = subs j := by
    intro j member
    exact Function.update_of_ne ((List.nodup_finRange maxSubs).mem_erase_iff.mp member).1 sub subs
  have actives := List.filter_congr fun j member => congrArg Subscriber.active (others j member)
  have entries : ∀ j ∈ ((List.finRange maxSubs).erase i).filter fun j => (subs j).active,
      (Function.update subs i sub j).entry = (subs j).entry :=
    fun j member => congrArg Subscriber.entry (others j (List.mem_of_mem_filter member))
  have before : contents subs = (((List.finRange maxSubs).erase i).filter fun j => (subs j).active).map
      fun j => (subs j).entry := by
    rw [contents, Multiset.coe_eq_coe.mpr ((order.filter _).map _), List.filter_cons_of_neg (by simp [inactive])]
  rw [before, contents, Multiset.coe_eq_coe.mpr ((order.filter _).map _),
    List.filter_cons_of_pos (by simp [active]), List.map_cons, Function.update_self, actives,
    List.map_congr_left entries, Multiset.cons_coe]

/-- A subscription fails exactly on a full table. -/
theorem subscribe_cases (subs : Subs Cb Ctx) (topic : BitVec 32) (cb : Cb) (ctx : Ctx) :
    ((contents subs).card = maxSubs ∧ subscribe true subs topic cb ctx = (-2, subs)) ∨
      ((contents subs).card < maxSubs ∧ ∃ next, subscribe true subs topic cb ctx = (0, next) ∧
        contents next = ⟨topic, cb, ctx⟩ ::ₘ contents subs) := by
  cases found : findSlot subs with
  | none => exact .inl ⟨findSlot_eq_none_iff.mp found, by simp [subscribe, found]⟩
  | some i =>
      have inactive : (subs i).active = false := by simpa using List.find?_some found
      have room : (contents subs).card ≠ maxSubs := fun full => by
        rw [findSlot_eq_none_iff.mpr full] at found
        cases found
      exact .inr ⟨lt_of_le_of_ne (card_contents_le subs) room, Function.update subs i ⟨true, topic, cb, ctx⟩,
        by simp [subscribe, found], contents_update inactive rfl⟩

/-- The copies of `publish` are the entries of its topic. -/
theorem coe_snapshot (subs : Subs Cb Ctx) (topic eventId : BitVec 32) :
    (((snapshot subs topic).map fun call => (call.1, call.2, eventId) : List _) : Multiset (Cb × Ctx × BitVec 32)) =
      expected (contents subs) topic eventId := by
  rw [expected, contents, Multiset.filter_coe, Multiset.map_coe, List.filter_map, List.filter_filter, snapshot,
    List.map_map, List.map_map]
  simp [Function.comp_def, Subscriber.entry, Bool.and_comm]

variable [DecidableEq Cb] [DecidableEq Ctx]

/-- The test of `unsubscribe` reads the entry of an active slot. -/
theorem isSub_iff {cb : Cb} {ctx : Ctx} {sub : Subscriber Cb Ctx} :
    isSub cb ctx sub = true ↔ sub.active = true ∧ sub.entry.Matches cb ctx := by
  simp only [isSub, Bool.and_eq_true, decide_eq_true_eq, Entry.Matches, Subscriber.entry, and_comm]

/-- The slots that `unsubscribe` leaves active are those that do not match. -/
theorem contents_unsubscribe (subs : Subs Cb Ctx) (cb : Cb) (ctx : Ctx) :
    contents (unsubscribe true subs cb ctx).2 = (contents subs).filter fun entry => ¬entry.Matches cb ctx := by
  have entries : ∀ i, ((unsubscribe true subs cb ctx).2 i).entry = (subs i).entry := by
    intro i
    change (if isSub cb ctx (subs i) then { subs i with active := false } else subs i).entry = _
    split <;> rfl
  have actives : ∀ i, ((unsubscribe true subs cb ctx).2 i).active =
      (decide (¬(subs i).entry.Matches cb ctx) && (subs i).active) := by
    intro i
    change (if isSub cb ctx (subs i) then { subs i with active := false } else subs i).active = _
    split <;> rename_i found <;> simp_all [isSub_iff]
  simp only [contents, entries, actives, Multiset.filter_coe, List.filter_map, List.filter_filter, Function.comp_def]

/-- The loop of `unsubscribe` fails exactly when no entry matches. -/
theorem unsubscribe_code (subs : Subs Cb Ctx) (cb : Cb) (ctx : Ctx) :
    ((unsubscribe true subs cb ctx).1 = -2 ∧ ∀ entry ∈ contents subs, ¬entry.Matches cb ctx) ∨
      ((unsubscribe true subs cb ctx).1 = 0 ∧ ∃ entry ∈ contents subs, entry.Matches cb ctx) := by
  have found : ((List.finRange maxSubs).any fun i => isSub cb ctx (subs i)) = true ↔
      ∃ entry ∈ contents subs, entry.Matches cb ctx := by
    simp [contents, isSub_iff]
  by_cases some : ∃ entry ∈ contents subs, entry.Matches cb ctx
  · exact .inr ⟨if_pos (found.mpr some), some⟩
  · exact .inl ⟨if_neg (mt found.mp some), by simpa using some⟩

end Table

section Histories

variable [DecidableEq Thread] {trace : List (Event Thread Cb Ctx)} {event : Event Thread Cb Ctx}

/-- One more event may invoke one more callback. -/
theorem invocations_concat (thread : Thread) (serial : Nat) :
    invocations thread serial (trace ++ [event]) =
      invocations thread serial trace + (event.invocation? thread serial).toList := by
  rw [invocations, invocations, List.filterMap_append, Multiset.coe_add]
  cases found : event.invocation? thread serial <;> simp [found]

/-- An event invokes a callback only for the publish that it belongs to. -/
theorem invocation?_eq_none {thread : Thread} {serial : Nat} (other : event.serial? ≠ some serial) :
    event.invocation? thread serial = none := by
  cases event with
  | invoked caller publish cb ctx eventId => exact if_neg fun same => other (congrArg some same.2)
  | _ => rfl

/-- A publish without events has invoked nothing. -/
theorem invocations_eq_zero {thread : Thread} {serial : Nat} (none : ∀ event ∈ trace, event.serial? ≠ some serial) :
    invocations thread serial trace = 0 := by
  rw [invocations, Multiset.coe_eq_zero, List.filterMap_eq_nil_iff]
  exact fun event member => invocation?_eq_none (none event member)

omit [DecidableEq Thread] in
/-- The locked sections act in their order. -/
theorem replay_concat [DecidableEq Cb] [DecidableEq Ctx] : replay (trace ++ [event]) = event.apply (replay trace) := by
  rw [replay, List.foldl_append]
  rfl

end Histories

section Publishes

/-- The copies of one publish that are still to be invoked. -/
def pending (serial : Nat) (frames : List (Frame Cb Ctx)) : Multiset (Cb × Ctx × BitVec 32) :=
  frames.flatMap fun frame =>
    if frame.serial = serial then frame.calls.map fun call => (call.1, call.2, frame.eventId) else []

/-- The innermost publish stands before the others. -/
theorem pending_cons (serial : Nat) (frame : Frame Cb Ctx) (below : List (Frame Cb Ctx)) :
    pending serial (frame :: below) =
      (if frame.serial = serial then
        (frame.calls.map fun call => (call.1, call.2, frame.eventId) : Multiset (Cb × Ctx × BitVec 32)) else 0) +
        pending serial below := by
  rw [pending, List.flatMap_cons, ← Multiset.coe_add, ← pending]
  split <;> rfl

theorem pending_eq_zero {serial : Nat} {frames : List (Frame Cb Ctx)} (gone : serial ∉ frames.map Frame.serial) :
    pending serial frames = 0 := by
  rw [pending, Multiset.coe_eq_zero, List.flatMap_eq_nil_iff]
  exact fun frame member => if_neg fun same => gone (List.mem_map.mpr ⟨frame, member, same⟩)

variable [DecidableEq Thread] [DecidableEq Cb] [DecidableEq Ctx]

/-- The invoked and the pending copies of a publish are its entries. It has returned when it left its stack. -/
def Accounted (history : List (Event Thread Cb Ctx)) (frames : Thread → List (Frame Cb Ctx))
    (before : List (Event Thread Cb Ctx)) : Event Thread Cb Ctx → Prop
  | .published thread serial topic eventId =>
      invocations thread serial history + pending serial (frames thread) = expected (replay before) topic eventId ∧
        (.returned thread serial 0 ∈ history ↔ serial ∉ (frames thread).map Frame.serial)
  | _ => True

/-- Serial numbers are used once, and callbacks are invoked by publishes. -/
def Placed (before : List (Event Thread Cb Ctx)) : Event Thread Cb Ctx → Prop
  | .published _ serial _ _ => ∀ other ∈ before, other.serial? ≠ some serial
  | .invoked thread serial _ _ eventId => ∃ topic, .published thread serial topic eventId ∈ before
  | _ => True

/-- The table holds the multiset, and every publish keeps its account. -/
structure Holds (trace : List (Event Thread Cb Ctx)) (state : State Thread Cb Ctx) : Prop where
  table : replay trace = contents state.subs
  answers : Always Answers trace
  placed : Always Placed trace
  fresh : ∀ event ∈ trace, ∀ serial, event.serial? = some serial → serial < state.published
  distinct : ∀ thread, ((state.frames thread).map Frame.serial).Nodup
  known : ∀ thread, ∀ frame ∈ state.frames thread,
    ∃ topic, .published thread frame.serial topic frame.eventId ∈ trace
  accounts : Always (Accounted trace state.frames) trace

variable {trace : List (Event Thread Cb Ctx)} {state : State Thread Cb Ctx}

/-- A dispatcher without active slots holds nothing. -/
theorem holds_initial {subs : Subs Cb Ctx} (inactive : ∀ i, (subs i).active = false) :
    Holds ([] : List (Event Thread Cb Ctx)) (initial subs) where
  table := by simp [replay, contents, initial, inactive]
  answers := always_nil
  placed := always_nil
  fresh := nofun
  distinct _ := List.nodup_nil
  known := nofun
  accounts := always_nil

/-- A publish on a stack is not yet the next one. -/
theorem Holds.serial_lt (holds : Holds trace state) {thread : Thread} {serial : Nat}
    (member : serial ∈ (state.frames thread).map Frame.serial) : serial < state.published := by
  obtain ⟨frame, inside, rfl⟩ := List.mem_map.mp member
  obtain ⟨topic, published⟩ := holds.known thread frame inside
  exact holds.fresh _ published _ rfl

/-- Accounts are kept by an event of one thread that moves what it invokes out of its pending copies
and marks the return of the publish that leaves its stack. -/
theorem accounts_carry {frames : Thread → List (Frame Cb Ctx)} {event : Event Thread Cb Ctx} {thread : Thread}
    {stack : List (Frame Cb Ctx)} (accounts : Always (Accounted trace frames) trace)
    (foreign : ∀ other serial, other ≠ thread →
      event.invocation? other serial = none ∧ event ≠ .returned other serial 0)
    (moves : ∀ serial topic eventId, .published thread serial topic eventId ∈ trace →
      (event.invocation? thread serial).toList + pending serial stack = pending serial (frames thread))
    (returns : ∀ serial topic eventId, .published thread serial topic eventId ∈ trace →
      (serial ∉ stack.map Frame.serial ↔
        serial ∉ (frames thread).map Frame.serial ∨ event = .returned thread serial 0)) :
    Always (Accounted (trace ++ [event]) (Function.update frames thread stack)) trace := by
  intro before publish after split
  have account := accounts before publish after split
  cases publish with
  | published other serial topic eventId =>
      have member : .published other serial topic eventId ∈ trace := by simp [split]
      have returned : .returned other serial 0 ∈ trace ++ [event] ↔
          serial ∉ (frames other).map Frame.serial ∨ event = .returned other serial 0 := by
        rw [List.mem_append, account.2, List.mem_singleton, eq_comm (a := event)]
      by_cases same : other = thread
      · subst same
        simp only [Accounted, Function.update_self]
        rw [returned, returns serial topic eventId member, invocations_concat, Multiset.add_assoc,
          moves serial topic eventId member]
        exact ⟨account.1, Iff.rfl⟩
      · obtain ⟨silent, stays⟩ := foreign other serial same
        simp only [Accounted, Function.update_of_ne same]
        rw [returned, or_iff_left stays, invocations_concat, silent]
        exact ⟨by simpa using account.1, Iff.rfl⟩
  | _ => trivial

/-- A step of one thread keeps the invariant when it does with its own stack and the table what its event says. -/
theorem Holds.advance (holds : Holds trace state) (event : Event Thread Cb Ctx) (thread : Thread)
    (stack : List (Frame Cb Ctx)) {subs : Subs Cb Ctx} {published : Nat}
    (table : event.apply (contents state.subs) = contents subs) (answers : Answers trace event)
    (placed : Placed trace event) (grows : state.published ≤ published)
    (fresh : ∀ serial, event.serial? = some serial → serial < published)
    (distinct : (stack.map Frame.serial).Nodup)
    (known : ∀ frame ∈ stack, ∃ topic, .published thread frame.serial topic frame.eventId ∈ trace ++ [event])
    (foreign : ∀ other serial, other ≠ thread →
      event.invocation? other serial = none ∧ event ≠ .returned other serial 0)
    (moves : ∀ serial topic eventId, .published thread serial topic eventId ∈ trace →
      (event.invocation? thread serial).toList + pending serial stack = pending serial (state.frames thread))
    (returns : ∀ serial topic eventId, .published thread serial topic eventId ∈ trace →
      (serial ∉ stack.map Frame.serial ↔
        serial ∉ (state.frames thread).map Frame.serial ∨ event = .returned thread serial 0))
    (account : Accounted (trace ++ [event]) (Function.update state.frames thread stack) trace event) :
    Holds (trace ++ [event]) ⟨subs, Function.update state.frames thread stack, published⟩ where
  table := by rw [replay_concat, holds.table, table]
  answers := holds.answers.append answers
  placed := holds.placed.append placed
  fresh := by
    intro other member serial belongs
    rcases List.mem_append.mp member with earlier | latest
    · exact (holds.fresh other earlier serial belongs).trans_le grows
    · exact fresh serial (List.mem_singleton.mp latest ▸ belongs)
  distinct other := by
    rcases eq_or_ne other thread with rfl | different
    · simpa only [Function.update_self] using distinct
    · simpa only [Function.update_of_ne different] using holds.distinct other
  known other := by
    rcases eq_or_ne other thread with rfl | different
    · simpa only [Function.update_self] using known
    · intro frame member
      simp only [Function.update_of_ne different] at member
      obtain ⟨topic, published⟩ := holds.known other frame member
      exact ⟨topic, List.mem_append_left _ published⟩
  accounts := (accounts_carry holds.accounts foreign moves returns).append account

/-- A locked section that changes the table as the multiset leaves every publish alone. -/
theorem Holds.locked (holds : Holds trace state) {event : Event Thread Cb Ctx} {subs : Subs Cb Ctx} (thread : Thread)
    (own : event.serial? = none) (answers : Answers trace event)
    (table : event.apply (contents state.subs) = contents subs) :
    Holds (trace ++ [event]) { state with subs } := by
  have silent : ∀ other serial, event.invocation? other serial = none :=
    fun other serial => invocation?_eq_none (by simp [own])
  have stays : ∀ other serial, event ≠ .returned other serial 0 := by
    rintro other serial rfl
    cases own
  have advanced := holds.advance event thread (state.frames thread) table answers (by cases event <;> trivial) le_rfl
    (by simp [own]) (holds.distinct thread)
    (fun frame member => (holds.known thread frame member).imp fun _ => List.mem_append_left _)
    (fun other serial _ => ⟨silent other serial, stays other serial⟩) (fun serial _ _ _ => by simp [silent])
    (fun serial _ _ _ => by simp [stays]) (by cases event <;> trivial)
  rwa [Function.update_eq_self] at advanced

/-- A subscription adds its entry to a multiset that is not full. -/
theorem Holds.subscribe (holds : Holds trace state) (thread : Thread) (topic : BitVec 32) (cb : Cb) (ctx : Ctx) :
    Holds (trace ++ [.subscribed thread topic cb ctx (subscribe true state.subs topic cb ctx).1])
      { state with subs := (subscribe true state.subs topic cb ctx).2 } := by
  have table := holds.table
  rcases subscribe_cases state.subs topic cb ctx with ⟨full, result⟩ | ⟨room, subs, result, added⟩
  · rw [result]
    have same : (Event.subscribed thread topic cb ctx (-2)).apply (contents state.subs) = contents state.subs :=
      if_pos full
    exact holds.locked thread rfl (.inl ⟨rfl, table ▸ full, table ▸ same⟩) same
  · rw [result]
    have grown : (Event.subscribed thread topic cb ctx 0).apply (contents state.subs) =
        ⟨topic, cb, ctx⟩ ::ₘ contents state.subs := if_neg room.ne
    exact holds.locked thread rfl (.inr ⟨rfl, table ▸ room, table ▸ grown⟩) (grown.trans added.symm)

/-- A call of `unsubscribe` removes all entries that match. -/
theorem Holds.unsubscribe (holds : Holds trace state) (thread : Thread) (cb : Cb) (ctx : Ctx) :
    Holds (trace ++ [.unsubscribed thread cb ctx (unsubscribe true state.subs cb ctx).1])
      { state with subs := (unsubscribe true state.subs cb ctx).2 } := by
  refine holds.locked thread rfl ?_ (contents_unsubscribe state.subs cb ctx).symm
  have code := unsubscribe_code state.subs cb ctx
  rw [← holds.table] at code
  exact code.imp_left fun missing => ⟨missing.1, missing.2, Multiset.filter_eq_self.mpr missing.2⟩

/-- A publish copies the entries of its topic before it invokes any of them. -/
theorem Holds.publish (holds : Holds trace state) (thread : Thread) (topic eventId : BitVec 32) :
    Holds (trace ++ [.published thread state.published topic eventId])
      ⟨state.subs, Function.update state.frames thread
        (⟨state.published, eventId, snapshot state.subs topic, false⟩ :: state.frames thread),
        state.published + 1⟩ := by
  have unused : ∀ event ∈ trace, event.serial? ≠ some state.published :=
    fun event member belongs => (holds.fresh event member _ belongs).false
  have absent : state.published ∉ (state.frames thread).map Frame.serial :=
    fun member => (holds.serial_lt member).false
  have older : ∀ serial topic eventId, .published thread serial topic eventId ∈ trace → serial ≠ state.published :=
    fun serial _ _ member => (holds.fresh _ member serial rfl).ne
  apply holds.advance (.published thread state.published topic eventId) thread _ rfl trivial unused (Nat.le_succ _)
  · rintro serial ⟨⟩
    exact Nat.lt_succ_self _
  · exact List.nodup_cons.mpr ⟨absent, holds.distinct thread⟩
  · refine List.forall_mem_cons.mpr ⟨⟨topic, ?_⟩, fun frame member => ?_⟩
    · exact List.mem_append_right _ (List.mem_singleton_self _)
    · exact (holds.known thread frame member).imp fun _ => List.mem_append_left _
  · exact fun other serial _ => ⟨rfl, nofun⟩
  · intro serial _ _ member
    rw [pending_cons, if_neg (older _ _ _ member).symm]
    simp [Event.invocation?]
  · intro serial _ _ member
    simp [older _ _ _ member]
  · constructor
    · rw [invocations_concat, invocations_eq_zero unused, Function.update_self, pending_cons, if_pos rfl,
        pending_eq_zero absent, holds.table, ← coe_snapshot]
      simp [Event.invocation?]
    · refine iff_of_false (fun member => ?_) (by simp)
      rcases List.mem_append.mp member with earlier | latest
      · exact unused _ earlier rfl
      · cases List.mem_singleton.mp latest

/-- The innermost publish and those below it are known, and their serial numbers differ. -/
theorem Holds.innermost (holds : Holds trace state) {thread : Thread} {frame : Frame Cb Ctx}
    {below : List (Frame Cb Ctx)} (innermost : state.frames thread = frame :: below) :
    (∃ topic, .published thread frame.serial topic frame.eventId ∈ trace) ∧
      (∀ other ∈ below, ∃ topic, .published thread other.serial topic other.eventId ∈ trace) ∧
      (frame.serial :: below.map Frame.serial).Nodup := by
  have known := holds.known thread
  have distinct := holds.distinct thread
  rw [innermost] at known distinct
  obtain ⟨top, others⟩ := List.forall_mem_cons.mp known
  exact ⟨top, others, distinct⟩

/-- An invocation takes its callback from the copies of the innermost publish. -/
theorem Holds.invoke (holds : Holds trace state) {thread : Thread} {serial : Nat} {eventId : BitVec 32} {cb : Cb}
    {ctx : Ctx} {rest : List (Cb × Ctx)} {running : Bool} {below : List (Frame Cb Ctx)}
    (innermost : state.frames thread = ⟨serial, eventId, (cb, ctx) :: rest, running⟩ :: below) :
    Holds (trace ++ [.invoked thread serial cb ctx eventId])
      { state with frames := Function.update state.frames thread (⟨serial, eventId, rest, true⟩ :: below) } := by
  obtain ⟨⟨topic, published⟩, others, distinct⟩ := holds.innermost innermost
  apply holds.advance (.invoked thread serial cb ctx eventId) thread _ rfl trivial ⟨topic, published⟩ le_rfl
  · rintro _ ⟨⟩
    exact holds.fresh _ published _ rfl
  · exact distinct
  · refine List.forall_mem_cons.mpr ⟨⟨topic, List.mem_append_left _ published⟩, fun frame member => ?_⟩
    exact (others frame member).imp fun _ => List.mem_append_left _
  · exact fun other serial different => ⟨if_neg fun same => different same.1.symm, nofun⟩
  · intro publish _ _ _
    rw [innermost, pending_cons, pending_cons]
    by_cases same : serial = publish <;> simp [Event.invocation?, same, ← Multiset.cons_coe]
  · intro publish _ _ _
    simp [innermost]
  · trivial

/-- A publish returns when it has invoked all its copies. -/
theorem Holds.leave (holds : Holds trace state) {thread : Thread} {serial : Nat} {eventId : BitVec 32}
    {running : Bool} {below : List (Frame Cb Ctx)}
    (innermost : state.frames thread = ⟨serial, eventId, [], running⟩ :: below) :
    Holds (trace ++ [.returned thread serial 0])
      { state with frames := Function.update state.frames thread below } := by
  obtain ⟨⟨topic, published⟩, others, distinct⟩ := holds.innermost innermost
  obtain ⟨left, distinct⟩ := List.nodup_cons.mp distinct
  apply holds.advance (.returned thread serial 0) thread _ rfl rfl trivial le_rfl
  · rintro _ ⟨⟩
    exact holds.fresh _ published _ rfl
  · exact distinct
  · exact fun frame member => (others frame member).imp fun _ => List.mem_append_left _
  · exact fun other serial different => ⟨rfl, fun same => different (Event.returned.inj same).1.symm⟩
  · intro publish _ _ _
    rw [innermost, pending_cons]
    simp [Event.invocation?]
  · intro publish _ _ _
    rcases eq_or_ne publish serial with rfl | different
    · simpa using left
    · simp [innermost, different, different.symm]
  · trivial

/-- Every step of the dispatcher keeps the invariant. -/
theorem holds_step {action : Action Thread Cb Ctx} {next : State Thread Cb Ctx} {events : List (Event Thread Cb Ctx)}
    (holds : Holds trace state) (stepped : step state action = some (next, events)) : Holds (trace ++ events) next := by
  cases action with
  | subscribe thread topic cb ctx =>
      simp only [step, Option.ite_none_right_eq_some, Option.some.injEq, Prod.mk.injEq] at stepped
      obtain ⟨-, rfl, rfl⟩ := stepped
      exact holds.subscribe thread topic cb ctx
  | unsubscribe thread cb ctx =>
      simp only [step, Option.ite_none_right_eq_some, Option.some.injEq, Prod.mk.injEq] at stepped
      obtain ⟨-, rfl, rfl⟩ := stepped
      exact holds.unsubscribe thread cb ctx
  | publish thread topic eventId =>
      simp only [step, Option.ite_none_right_eq_some, Option.some.injEq, Prod.mk.injEq] at stepped
      obtain ⟨-, rfl, rfl⟩ := stepped
      exact holds.publish thread topic eventId
  | next thread =>
      simp only [step] at stepped
      split at stepped
      · cases stepped
      · rename_i serial eventId running below innermost
        cases stepped
        exact holds.leave innermost
      · rename_i serial eventId cb ctx rest running below innermost
        cases stepped
        exact holds.invoke innermost

/-- Callbacks that make no more calls let the innermost publish return. -/
theorem run_innermost {thread : Thread} {serial : Nat} {eventId : BitVec 32} {calls : List (Cb × Ctx)}
    {running : Bool} {below : List (Frame Cb Ctx)}
    (innermost : state.frames thread = ⟨serial, eventId, calls, running⟩ :: below) :
    ∃ count next events, machine.run state (List.replicate count (.next thread)) = some (next, events) ∧
      next.frames thread = below := by
  induction calls generalizing state running with
  | nil =>
      let left : State Thread Cb Ctx := { state with frames := Function.update state.frames thread below }
      have stepped : machine.step state (.next thread) = some (left, [.returned thread serial 0]) := by
        simp only [machine, step, innermost, left]
      exact ⟨1, left, _, machine.run_cons_eq_some.mpr ⟨_, _, _, stepped, rfl, rfl⟩, Function.update_self ..⟩
  | cons call rest ih =>
      let invoked : State Thread Cb Ctx := { state with
        frames := Function.update state.frames thread (⟨serial, eventId, rest, true⟩ :: below) }
      have stepped : machine.step state (.next thread) =
          some (invoked, [.invoked thread serial call.1 call.2 eventId]) := by
        simp only [machine, step, innermost, invoked]
      have shorter : invoked.frames thread = ⟨serial, eventId, rest, true⟩ :: below := Function.update_self ..
      obtain ⟨count, next, events, ran, left⟩ := ih shorter
      exact ⟨count + 1, next, _, machine.run_cons_eq_some.mpr ⟨_, _, _, stepped, ran, rfl⟩, left⟩

/-- Callbacks that make no more calls let every publish of a thread return. -/
theorem run_finish (state : State Thread Cb Ctx) (thread : Thread) :
    ∃ count next events, machine.run state (List.replicate count (.next thread)) = some (next, events) ∧
      next.frames thread = [] := by
  induction frames : state.frames thread generalizing state with
  | nil => exact ⟨0, state, [], rfl, frames⟩
  | cons frame below ih =>
      obtain ⟨first, middle, early, began, left⟩ := run_innermost frames
      obtain ⟨second, next, late, continued, finished⟩ := ih middle left
      refine ⟨first + second, next, early ++ late, ?_, finished⟩
      rw [← List.replicate_append_replicate]
      exact machine.run_append began continued

end Publishes

/-- The dispatcher refines the bounded multiset of subscriptions: the active slots hold what the locked sections
leave of it, it decides the return codes, and each publish invokes the entries that stood at its locked section. -/
theorem dispatcher_refines_multiset [DecidableEq Thread] [DecidableEq Cb] [DecidableEq Ctx] (subs : Subs Cb Ctx)
    (inactive : ∀ i, (subs i).active = false) (schedule : List (Action Thread Cb Ctx)) (final : State Thread Cb Ctx)
    (trace : List (Event Thread Cb Ctx)) (ran : machine.run (initial subs) schedule = some (final, trace)) :
    contents final.subs = replay trace ∧ Always Answers trace ∧ Always (Publishes trace) trace ∧
      ∀ thread, ∃ count next events, machine.run final (List.replicate count (.next thread)) = some (next, events) ∧
        next.frames thread = [] := by
  have holds : Holds trace final :=
    machine.run_invariant Holds (fun _ _ _ _ _ => holds_step) (holds_initial inactive) ran
  refine ⟨holds.table.symm, holds.answers, fun before event after split => ?_, run_finish final⟩
  have placed := holds.placed before event after split
  have account := holds.accounts before event after split
  cases event with
  | published thread serial topic eventId =>
      refine ⟨placed, account.1 ▸ Multiset.le_add_right _ _, fun code returned => ?_⟩
      obtain ⟨earlier, later, located⟩ := List.append_of_mem returned
      obtain rfl : code = 0 := holds.answers earlier _ later located
      rw [← account.1, pending_eq_zero (account.2.mp returned), Multiset.add_zero]
  | invoked thread serial cb ctx eventId => exact placed
  | _ => trivial

/-- The first callback removes both of its subscriptions and publishes again. -/
def nestedCalls : List (Action Unit Nat Nat) :=
  [.subscribe () 7 1 2, .subscribe () 7 1 2, .publish () 7 9, .next (), .unsubscribe () 1 2, .publish () 7 5,
    .next (), .next (), .next ()]

/-- The outer publish invokes both copies, and the nested one nothing. -/
theorem dispatcher_refines_nested : ∃ final trace,
    machine.run (initial fun _ => ⟨false, 0, 0, 0⟩) nestedCalls = some (final, trace) ∧
      contents final.subs = replay trace ∧ invocations () 0 trace = {(1, 2, 9), (1, 2, 9)} ∧
        invocations () 1 trace = 0 := by
  let early : List (Event Unit Nat Nat) := [.subscribed () 7 1 2 0, .subscribed () 7 1 2 0]
  let late : List (Event Unit Nat Nat) := [.invoked () 0 1 2 9, .unsubscribed () 1 2 0]
  let rest : List (Event Unit Nat Nat) := [.returned () 1 0, .invoked () 0 1 2 9, .returned () 0 0]
  have ran : machine.run (initial fun _ => ⟨false, 0, 0, 0⟩) nestedCalls =
      some (_, early ++ .published () 0 7 9 :: (late ++ .published () 1 7 5 :: rest)) := rfl
  obtain ⟨table, -, publishes, -⟩ := dispatcher_refines_multiset _ (fun _ => rfl) nestedCalls _ _ ran
  have outer := (publishes early (.published () 0 7 9) _ rfl).2.2 0 (by simp [rest])
  have nested := (publishes (early ++ .published () 0 7 9 :: late) (.published () 1 7 5) rest rfl).2.2 0
    (by simp [rest])
  exact ⟨_, _, ran, table, outer, nested⟩

end Ostep.Dispatcher
