import Mathlib.Data.List.Basic
import Mathlib.Logic.Function.Basic

namespace Ostep.Library.StoreBuffer

/-- A processor issues stores and barriers. -/
inductive Item (Loc Value : Type) where
  | store (loc : Loc) (value : Value)
  | barrier
  deriving Repr, DecidableEq

/-- The stores reach the memory in program order, or in any order that keeps the barriers and the order at each
location. -/
inductive Order where
  | program
  | weak
  deriving Repr, DecidableEq

/-- The items that have not reached the memory, with their numbers in program order. -/
structure Buffer (Loc Value : Type) where
  memory : Loc → Value
  pending : List (Nat × Item Loc Value)
  issued : Nat

variable {Loc Value : Type}

/-- The first item has to reach the memory before the second one. -/
def Order.Keeps : Order → Item Loc Value → Item Loc Value → Prop
  | .weak, .store loc _, .store other _ => loc = other
  | _, _, _ => True

instance [DecidableEq Loc] (order : Order) (first second : Item Loc Value) : Decidable (order.Keeps first second) :=
  match order, first, second with
  | .weak, .store loc _, .store other _ => inferInstanceAs (Decidable (loc = other))
  | .weak, .store _ _, .barrier | .weak, .barrier, _ | .program, _, _ => .isTrue trivial

def Buffer.issue (buffer : Buffer Loc Value) (item : Item Loc Value) : Buffer Loc Value :=
  { buffer with pending := buffer.pending ++ [(buffer.issued, item)], issued := buffer.issued + 1 }

def Buffer.issueAll (buffer : Buffer Loc Value) (items : List (Item Loc Value)) : Buffer Loc Value :=
  items.foldl issue buffer

def Item.apply [DecidableEq Loc] (memory : Loc → Value) : Item Loc Value → Loc → Value
  | .store loc value => Function.update memory loc value
  | .barrier => memory

/-- An item leaves the buffer when no earlier item has to leave before it. -/
def Buffer.drain [DecidableEq Loc] (order : Order) (buffer : Buffer Loc Value) (position : Nat) :
    Option (Buffer Loc Value) :=
  buffer.pending[position]?.bind fun entry =>
    if ∀ earlier ∈ buffer.pending.take position, ¬order.Keeps earlier.2 entry.2 then
      some { buffer with memory := entry.2.apply buffer.memory, pending := buffer.pending.eraseIdx position }
    else none

def Buffer.drainAll [DecidableEq Loc] (order : Order) : List Nat → Buffer Loc Value → Option (Buffer Loc Value)
  | [], buffer => some buffer
  | position :: rest, buffer => (buffer.drain order position).bind (drainAll order rest)

/-- The item with the number has not reached the memory. -/
def Buffer.Waits (buffer : Buffer Loc Value) (number : Nat) : Prop := number ∈ buffer.pending.map Prod.fst

/-- The memory after some of the items of a history have reached it. -/
structure Arrived (order : Order) (start : Loc → Value) (history : List (Item Loc Value))
    (buffer : Buffer Loc Value) : Prop where
  issued : buffer.issued = history.length
  entries : ∀ entry ∈ buffer.pending, history[entry.1]? = some entry.2
  sorted : (buffer.pending.map Prod.fst).Pairwise (· < ·)
  kept : ∀ i j first second, i < j → history[i]? = some first → history[j]? = some second →
    order.Keeps first second → buffer.Waits i → buffer.Waits j
  latest : ∀ i loc value, history[i]? = some (.store loc value) → ¬buffer.Waits i →
    (∀ j other, i < j → history[j]? = some (.store loc other) → buffer.Waits j) → buffer.memory loc = value
  untouched : ∀ loc, (∀ j other, history[j]? = some (.store loc other) → buffer.Waits j) →
    buffer.memory loc = start loc

variable {order : Order} {start : Loc → Value} {history : List (Item Loc Value)} {buffer : Buffer Loc Value}

theorem arrived_nil (order : Order) (start : Loc → Value) : Arrived order start [] ⟨start, [], 0⟩ where
  issued := rfl
  entries _ member := by cases member
  sorted := List.Pairwise.nil
  kept _ _ _ _ _ found := by cases found
  latest _ _ _ found := by cases found
  untouched _ _ := rfl

/-- A waiting item was issued. -/
theorem Arrived.lt_of_waits (arrived : Arrived order start history buffer) {number : Nat}
    (waits : buffer.Waits number) : number < history.length := by
  obtain ⟨entry, member, rfl⟩ := List.mem_map.mp waits
  exact (List.getElem?_eq_some_iff.mp (arrived.entries entry member)).1

section Issue

theorem Buffer.waits_issue (buffer : Buffer Loc Value) (item : Item Loc Value) (number : Nat) :
    (buffer.issue item).Waits number ↔ buffer.Waits number ∨ number = buffer.issued := by
  simp [Buffer.Waits, Buffer.issue]

theorem Buffer.waits_issueAll (buffer : Buffer Loc Value) (items : List (Item Loc Value)) (number : Nat) :
    (buffer.issueAll items).Waits number ↔
      buffer.Waits number ∨ buffer.issued ≤ number ∧ number < buffer.issued + items.length := by
  induction items generalizing buffer with
  | nil =>
      simp only [Buffer.issueAll, List.foldl_nil, List.length_nil, Nat.add_zero, iff_self_or]
      omega
  | cons item rest ih =>
      rw [Buffer.issueAll, List.foldl_cons, ← Buffer.issueAll, ih, Buffer.waits_issue, List.length_cons]
      simp only [Buffer.issue]
      rw [or_assoc]
      refine or_congr_right ?_
      omega

/-- An issued item waits behind the others. -/
theorem Arrived.issue (arrived : Arrived order start history buffer) (item : Item Loc Value) :
    Arrived order start (history ++ [item]) (buffer.issue item) := by
  have inside {number : Nat} {found : Item Loc Value} (old : history[number]? = some found) :
      number < history.length ∧ (history ++ [item])[number]? = some found := by
    have below := (List.getElem?_eq_some_iff.mp old).1
    exact ⟨below, (List.getElem?_append_left below).trans old⟩
  have split {number : Nat} {found : Item Loc Value} (new : (history ++ [item])[number]? = some found) :
      history[number]? = some found ∨ number = buffer.issued := by
    rw [arrived.issued]
    by_cases below : number < history.length
    · exact Or.inl ((List.getElem?_append_left below).symm.trans new)
    · have bound := (List.getElem?_eq_some_iff.mp new).1
      rw [List.length_append, List.length_singleton] at bound
      exact Or.inr (by omega)
  refine ⟨?_, fun entry member => ?_, ?_, fun i j first second less former later keeps waits => ?_,
    fun i loc value found gone others => ?_, fun loc others => ?_⟩
  · rw [List.length_append, List.length_singleton, ← arrived.issued]
    rfl
  · rcases List.mem_append.mp member with old | new
    · exact (inside (arrived.entries entry old)).2
    · rw [List.mem_singleton.mp new, arrived.issued]
      exact List.getElem?_concat_length
  · simp only [Buffer.issue, List.map_append, List.map_cons, List.map_nil, List.pairwise_append,
      List.pairwise_singleton, List.mem_singleton, forall_eq, true_and]
    exact ⟨arrived.sorted, fun number waits => arrived.issued ▸ arrived.lt_of_waits waits⟩
  · rw [Buffer.waits_issue] at waits ⊢
    rcases split later with old | new
    · have bound := (inside old).1
      refine Or.inl (arrived.kept i j first second less ?_ old keeps (waits.resolve_right ?_))
      · exact (split former).resolve_right (by rw [arrived.issued]; omega)
      · rw [arrived.issued]
        omega
    · exact Or.inr new
  · rw [Buffer.waits_issue, not_or] at gone
    refine arrived.latest i loc value ((split found).resolve_right gone.2) gone.1 fun j other less old => ?_
    have waits := (buffer.waits_issue item j).mp (others j other less (inside old).2)
    refine waits.resolve_right ?_
    have bound := (inside old).1
    rw [arrived.issued]
    omega
  · refine arrived.untouched loc fun j other old => ?_
    have waits := (buffer.waits_issue item j).mp (others j other (inside old).2)
    refine waits.resolve_right ?_
    have bound := (inside old).1
    rw [arrived.issued]
    omega

theorem Arrived.issueAll (arrived : Arrived order start history buffer) (items : List (Item Loc Value)) :
    Arrived order start (history ++ items) (buffer.issueAll items) := by
  induction items generalizing history buffer with
  | nil => rwa [List.append_nil]
  | cons item rest ih => simpa [Buffer.issueAll] using ih (arrived.issue item)

end Issue

/-- A store has reached the memory before a later one behind a barrier, and always in program order. -/
theorem Arrived.gone_of_gone (arrived : Arrived order start history buffer) {i j : Nat} {first second : Item Loc Value}
    (less : i < j) (former : history[i]? = some first) (later : history[j]? = some second)
    (apart : order = .program ∨ ∃ k, i < k ∧ k < j ∧ history[k]? = some .barrier) (gone : ¬buffer.Waits j) :
    ¬buffer.Waits i := by
  intro waits
  rcases apart with rfl | ⟨k, after, before, barrier⟩
  · exact gone (arrived.kept i j first second less former later trivial waits)
  · have behind := arrived.kept i k first _ after former barrier (by cases order <;> cases first <;> trivial) waits
    exact gone (arrived.kept k j _ second before barrier later (by cases order <;> trivial) behind)

section Drain

variable [DecidableEq Loc]

/-- One item leaves the buffer and changes the memory. -/
structure Drains (order : Order) (buffer next : Buffer Loc Value) (number : Nat) (item : Item Loc Value) : Prop where
  member : (number, item) ∈ buffer.pending
  first : ∀ earlier ∈ buffer.pending, earlier.1 < number → ¬order.Keeps earlier.2 item
  waits : ∀ other, next.Waits other ↔ buffer.Waits other ∧ other ≠ number
  memory : next.memory = item.apply buffer.memory

theorem Arrived.drains (arrived : Arrived order start history buffer) {position : Nat} {next : Buffer Loc Value}
    (drained : buffer.drain order position = some next) :
    ∃ number item, Drains order buffer next number item ∧ next.issued = buffer.issued ∧
      (next.pending.map Prod.fst).Pairwise (· < ·) ∧ ∀ entry ∈ next.pending, entry ∈ buffer.pending := by
  obtain ⟨⟨number, item⟩, found, kept⟩ := Option.bind_eq_some_iff.mp drained
  split at kept
  case isFalse => cases kept
  case isTrue free =>
  cases kept
  obtain ⟨inside, here⟩ := List.getElem?_eq_some_iff.mp found
  have parts : buffer.pending =
      buffer.pending.take position ++ (number, item) :: buffer.pending.drop (position + 1) := by
    rw [← here, List.getElem_cons_drop, List.take_append_drop]
  have sorted := arrived.sorted
  rw [parts, List.map_append, List.map_cons, List.pairwise_append, List.pairwise_cons] at sorted
  obtain ⟨_, ⟨after, _⟩, before⟩ := sorted
  have removed : buffer.pending.eraseIdx position =
      buffer.pending.take position ++ buffer.pending.drop (position + 1) := List.eraseIdx_eq_take_drop_succ ..
  refine ⟨number, item, ⟨List.mem_of_getElem? found, fun earlier member less => ?_, fun other => ?_, rfl⟩, rfl, ?_,
    fun entry member => (List.eraseIdx_sublist ..).subset member⟩
  · rw [parts] at member
    rcases List.mem_append.mp member with early | late
    · exact free earlier early
    · rcases List.mem_cons.mp late with rfl | late
      · exact absurd less (Nat.lt_irrefl _)
      · exact absurd (after _ (List.mem_map_of_mem late)) (Nat.lt_asymm less)
  · simp only [Buffer.Waits, removed]
    nth_rewrite 3 [parts]
    simp only [List.map_append, List.map_cons, List.mem_append, List.mem_cons]
    constructor
    · rintro (early | late)
      · exact ⟨Or.inl early, Nat.ne_of_lt (before _ early _ (List.mem_cons_self ..))⟩
      · exact ⟨Or.inr (Or.inr late), (Nat.ne_of_lt (after _ late)).symm⟩
    · rintro ⟨early | rfl | late, different⟩
      · exact Or.inl early
      · exact absurd rfl different
      · exact Or.inr late
  · exact arrived.sorted.sublist ((List.eraseIdx_sublist ..).map _)

/-- A drained item was the first one that had to leave before the items after it. -/
theorem Arrived.drain (arrived : Arrived order start history buffer) {position : Nat} {next : Buffer Loc Value}
    (drained : buffer.drain order position = some next) :
    Arrived order start history next ∧ ∃ number item, Drains order buffer next number item := by
  obtain ⟨number, item, drains, same, sorted, fewer⟩ := arrived.drains drained
  have issued : history[number]? = some item := arrived.entries _ drains.member
  refine ⟨⟨same.trans arrived.issued, fun entry member => arrived.entries entry (fewer entry member), sorted,
    fun i j first second less former later keeps waits => ?_, fun i loc value found gone others => ?_,
    fun loc others => ?_⟩, number, item, drains⟩
  · obtain ⟨waits, different⟩ := (drains.waits i).mp waits
    refine (drains.waits j).mpr ⟨arrived.kept i j first second less former later keeps waits, ?_⟩
    rintro rfl
    obtain ⟨entry, member, rfl⟩ := List.mem_map.mp waits
    refine drains.first entry member less ?_
    rwa [Option.some.inj ((arrived.entries entry member).symm.trans former), Option.some.inj (issued.symm.trans later)]
  · rw [drains.memory]
    by_cases this : i = number
    · obtain rfl := Option.some.inj (issued.symm.trans (this ▸ found))
      exact Function.update_self ..
    · have before : ¬buffer.Waits i := fun waits => gone ((drains.waits i).mpr ⟨waits, this⟩)
      have old := arrived.latest i loc value found before fun j other less later =>
        ((drains.waits j).mp (others j other less later)).1
      cases item with
      | barrier => exact old
      | store place stored =>
          refine (Function.update_of_ne ?_ _ _).trans old
          rintro rfl
          rcases Nat.lt_or_gt_of_ne this with less | greater
          · exact ((drains.waits number).mp (others number stored less issued)).2 rfl
          · refine before (arrived.kept number i _ _ greater issued found ?_ (List.mem_map_of_mem drains.member))
            cases order
            · trivial
            · rfl
  · rw [drains.memory]
    have old := arrived.untouched loc fun j other found => ((drains.waits j).mp (others j other found)).1
    cases item with
    | barrier => exact old
    | store place stored =>
        refine (Function.update_of_ne ?_ _ _).trans old
        rintro rfl
        exact ((drains.waits number).mp (others number stored issued)).2 rfl

/-- No item of a buffer has to wait for another one. -/
def Order.Frees (order : Order) (pending : List (Nat × Item Loc Value)) : Prop :=
  pending.Pairwise fun first second => ¬order.Keeps first.2 second.2

/-- Any of the items that may overtake each other can reach the memory before the others. -/
theorem exists_drainAll (chosen : Item Loc Value → Bool) (memory : Loc → Value) (issued : Nat)
    (rest kept : List (Nat × Item Loc Value))
    (free : order.Frees (kept ++ rest)) :
    ∃ positions, Buffer.drainAll order positions ⟨memory, kept ++ rest, issued⟩ =
      some ⟨rest.foldl (fun memory entry => if chosen entry.2 then entry.2.apply memory else memory) memory,
        kept ++ rest.filter (fun entry => !chosen entry.2), issued⟩ := by
  induction rest generalizing kept memory with
  | nil => exact ⟨[], by simp [Buffer.drainAll]⟩
  | cons entry rest ih =>
      by_cases leaves : chosen entry.2
      · have parts := List.pairwise_append.mp free
        have overtakes : ∀ earlier ∈ kept, ¬order.Keeps earlier.2 entry.2 := fun earlier member =>
          parts.2.2 earlier member entry (List.mem_cons_self ..)
        obtain ⟨positions, drained⟩ := ih (entry.2.apply memory) kept
          (free.sublist ((List.sublist_cons_self entry rest).append_left kept))
        have first : Buffer.drain order ⟨memory, kept ++ entry :: rest, issued⟩ kept.length =
            some ⟨entry.2.apply memory, kept ++ rest, issued⟩ := by
          simpa [Buffer.drain, List.eraseIdx_append_of_length_le] using overtakes
        refine ⟨kept.length :: positions, ?_⟩
        rw [Buffer.drainAll, first, Option.bind_some, drained]
        simp [leaves]
      · obtain ⟨positions, drained⟩ := ih memory (kept ++ [entry]) (by simpa using free)
        exact ⟨positions, by simpa [leaves] using drained⟩

end Drain

end Ostep.Library.StoreBuffer
