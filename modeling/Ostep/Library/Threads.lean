import Mathlib.Algebra.BigOperators.Group.Finset.Piecewise
import Mathlib.Algebra.Order.BigOperators.Group.Finset
import Mathlib.Data.Fintype.BigOperators
import Mathlib.Data.List.Infix
import Ostep.Library.Machine

namespace Ostep.Library.Threads

/-- Threads print messages, use semaphores, and start and join each other. The first exit ends all of them. -/
inductive Instr (Thread Sem Message : Type) where
  | emit (message : Message)
  | wait (sem : Sem)
  | post (sem : Sem)
  | create (thread : Thread)
  | join (thread : Thread)
  | exit
  deriving Repr, DecidableEq

/-- The rest of the code of each thread that was started. -/
structure State (Thread Sem Message : Type) where
  values : Sem → Nat
  rest : Thread → Option (List (Instr Thread Sem Message))
  halted : Bool

variable {Thread Sem Message : Type} [DecidableEq Thread] [DecidableEq Sem] [DecidableEq Message]

def perform (code : Thread → List (Instr Thread Sem Message)) (state : State Thread Sem Message) :
    Instr Thread Sem Message → Option (State Thread Sem Message)
  | .emit _ => some state
  | .wait sem =>
      if state.values sem = 0 then none
      else some { state with values := Function.update state.values sem (state.values sem - 1) }
  | .post sem => some { state with values := Function.update state.values sem (state.values sem + 1) }
  | .create thread =>
      if state.rest thread = none then
        some { state with rest := Function.update state.rest thread (some (code thread)) }
      else none
  | .join thread => if state.rest thread = some [] then some state else none
  | .exit => some { state with halted := true }

def step (code : Thread → List (Instr Thread Sem Message)) (state : State Thread Sem Message) (thread : Thread) :
    Option (State Thread Sem Message × List (Thread × Instr Thread Sem Message)) :=
  if state.halted then none
  else
    match state.rest thread with
    | some (instr :: rest) =>
        (perform code { state with rest := Function.update state.rest thread (some rest) } instr).map fun next =>
          (next, [(thread, instr)])
    | _ => none

def machine (code : Thread → List (Instr Thread Sem Message)) :
    Machine (State Thread Sem Message) Thread (Thread × Instr Thread Sem Message) := ⟨step code⟩

/-- Only the first thread has been started. -/
def initial (code : Thread → List (Instr Thread Sem Message)) (values : Sem → Nat) (main : Thread) :
    State Thread Sem Message :=
  ⟨values, Function.update (fun _ => none) main (some (code main)), false⟩

/-- The instructions that a thread has run. -/
def executed (thread : Thread) (trace : List (Thread × Instr Thread Sem Message)) :
    List (Instr Thread Sem Message) :=
  trace.filterMap fun event => if event.1 = thread then some event.2 else none

def waits (sem : Sem) (trace : List (Thread × Instr Thread Sem Message)) : Nat :=
  trace.countP fun event => event.2 = .wait sem

def posts (sem : Sem) (trace : List (Thread × Instr Thread Sem Message)) : Nat :=
  trace.countP fun event => event.2 = .post sem

def messages (trace : List (Thread × Instr Thread Sem Message)) : List Message :=
  trace.filterMap fun event =>
    match event.2 with
    | .emit message => some message
    | _ => none

variable {code : Thread → List (Instr Thread Sem Message)} {start : Sem → Nat} {main thread : Thread}
  {state next : State Thread Sem Message} {trace events : List (Thread × Instr Thread Sem Message)}
  {instr : Instr Thread Sem Message} {rest : List (Instr Thread Sem Message)}

omit [DecidableEq Sem] [DecidableEq Message] in
@[simp] theorem executed_concat (thread other : Thread) (trace : List (Thread × Instr Thread Sem Message))
    (instr : Instr Thread Sem Message) :
    executed thread (trace ++ [(other, instr)]) = executed thread trace ++ if other = thread then [instr] else [] := by
  rw [executed, List.filterMap_append, executed]
  by_cases same : other = thread <;> simp [same]

omit [DecidableEq Sem] [DecidableEq Message] in
theorem mem_executed : instr ∈ executed thread trace ↔ (thread, instr) ∈ trace := by
  simp [executed, Prod.exists]

omit [DecidableEq Thread] [DecidableEq Sem] [DecidableEq Message] in
theorem mem_messages {message : Message} : message ∈ messages trace ↔ ∃ thread, (thread, .emit message) ∈ trace := by
  simp only [messages, List.mem_filterMap, Prod.exists]
  constructor
  · rintro ⟨thread, instr, member, found⟩
    split at found
    · cases found
      exact ⟨thread, by simp_all⟩
    · cases found
  · rintro ⟨thread, member⟩
    exact ⟨thread, _, member, rfl⟩

/-- A step runs the next instruction of its thread. -/
theorem step_eq_some (stepped : (machine code).step state thread = some (next, events)) :
    ∃ instr rest, state.halted = false ∧ state.rest thread = some (instr :: rest) ∧ events = [(thread, instr)] ∧
      perform code { state with rest := Function.update state.rest thread (some rest) } instr = some next := by
  simp only [machine, step] at stepped
  split at stepped
  · cases stepped
  · next running =>
      split at stepped
      · next instr rest found =>
          obtain ⟨after, performed, same⟩ := Option.map_eq_some_iff.mp stepped
          obtain ⟨rfl, rfl⟩ := Prod.mk.inj same
          exact ⟨instr, rest, Bool.eq_false_iff.mpr running, found, rfl, performed⟩
      · cases stepped

/-- The code that is left continues the code that has run. -/
structure Codes (code : Thread → List (Instr Thread Sem Message)) (trace : List (Thread × Instr Thread Sem Message))
    (rest : Thread → Option (List (Instr Thread Sem Message))) : Prop where
  started : ∀ thread left, rest thread = some left → executed thread trace ++ left = code thread
  fresh : ∀ thread, rest thread = none → executed thread trace = []

variable {left : Thread → Option (List (Instr Thread Sem Message))}

omit [DecidableEq Sem] [DecidableEq Message] in
theorem Codes.consume (codes : Codes code trace left) (found : left thread = some (instr :: rest)) :
    Codes code (trace ++ [(thread, instr)]) (Function.update left thread (some rest)) := by
  constructor
  · intro other some found'
    by_cases same : other = thread
    · subst same
      rw [Function.update_self, Option.some.injEq] at found'
      subst found'
      have continued := codes.started other _ found
      rw [executed_concat, if_pos rfl, List.append_assoc]
      exact continued
    · rw [Function.update_of_ne same] at found'
      rw [executed_concat, if_neg (Ne.symm same), List.append_nil]
      exact codes.started other some found'
  · intro other none
    have different : other ≠ thread := by
      rintro rfl
      rw [Function.update_self] at none
      cases none
    rw [Function.update_of_ne different] at none
    rw [executed_concat, if_neg (Ne.symm different), List.append_nil]
    exact codes.fresh other none

omit [DecidableEq Sem] [DecidableEq Message] in
theorem Codes.create (codes : Codes code trace left) {other : Thread} (fresh : left other = none) :
    Codes code trace (Function.update left other (some (code other))) := by
  constructor
  · intro thread some found
    by_cases same : thread = other
    · subst same
      rw [Function.update_self, Option.some.injEq] at found
      rw [codes.fresh thread fresh, ← found, List.nil_append]
    · exact codes.started thread some ((Function.update_of_ne same _ _).symm.trans found)
  · intro thread none
    have different : thread ≠ other := by
      rintro rfl
      rw [Function.update_self] at none
      cases none
    exact codes.fresh thread ((Function.update_of_ne different _ _).symm.trans none)

/-- What the threads have run explains the state. -/
structure Valid (code : Thread → List (Instr Thread Sem Message)) (start : Sem → Nat) (main : Thread)
    (trace : List (Thread × Instr Thread Sem Message)) (state : State Thread Sem Message) : Prop where
  codes : Codes code trace state.rest
  values : ∀ sem, state.values sem + waits sem trace = start sem + posts sem trace
  created : ∀ thread, thread ≠ main → state.rest thread ≠ none → ∃ creator, (creator, .create thread) ∈ trace
  joined : ∀ waiter thread, (waiter, .join thread) ∈ trace → state.rest thread = some []
  running : state.rest main ≠ none
  started : ∀ creator thread, (creator, .create thread) ∈ trace → state.rest thread ≠ none
  halted : state.halted = true ↔ ∃ thread, (thread, .exit) ∈ trace

theorem initial_valid (code : Thread → List (Instr Thread Sem Message)) (start : Sem → Nat) (main : Thread) :
    Valid code start main [] (initial code start main) where
  codes := Codes.create ⟨fun _ _ found => (by cases found), fun _ _ => rfl⟩ rfl
  values _ := rfl
  created thread different some := absurd (by simp [initial, different]) some
  joined _ _ member := by cases member
  running := by simp [initial]
  started _ _ member := by cases member
  halted := by simp [initial]

/-- Each thread has the code left that it had before, except for the running one and for a new one. -/
theorem Valid.extend (valid : Valid code start main trace state) (found : state.rest thread = some (instr :: rest))
    (codes : Codes code (trace ++ [(thread, instr)]) next.rest)
    (kept : ∀ other, next.rest other = Function.update state.rest thread (some rest) other ∨
      instr = .create other ∧ state.rest other = none ∧ next.rest other = some (code other))
    (joins : ∀ other, instr = .join other → next.rest other = some [])
    (creates : ∀ other, instr = .create other → next.rest other ≠ none)
    (halted : next.halted = true ↔ state.halted = true ∨ instr = .exit)
    (values : ∀ sem, next.values sem + waits sem (trace ++ [(thread, instr)]) =
      start sem + posts sem (trace ++ [(thread, instr)])) :
    Valid code start main (trace ++ [(thread, instr)]) next := by
  have some {other : Thread} (present : state.rest other ≠ none) : next.rest other ≠ none := by
    rcases kept other with same | ⟨-, -, same⟩
    · by_cases this : other = thread
      · rw [same, this, Function.update_self]
        simp
      · rw [same, Function.update_of_ne this]
        exact present
    · simp [same]
  refine ⟨codes, values, fun other different present => ?_, fun waiter other member => ?_, some valid.running,
    fun creator other member => ?_, ?_⟩
  · rcases kept other with same | ⟨rfl, -, -⟩
    · have before : state.rest other ≠ none := by
        by_cases this : other = thread
        · rw [this, found]
          simp
        · rwa [same, Function.update_of_ne this] at present
      obtain ⟨creator, member⟩ := valid.created other different before
      exact ⟨creator, List.mem_append_left _ member⟩
    · exact ⟨thread, List.mem_append_right _ (List.mem_singleton_self _)⟩
  · rcases List.mem_append.mp member with old | new
    · have ended := valid.joined waiter other old
      have different : other ≠ thread := by
        rintro rfl
        rw [found] at ended
        cases ended
      rcases kept other with same | ⟨-, fresh, -⟩
      · rw [same, Function.update_of_ne different, ended]
      · rw [fresh] at ended
        cases ended
    · cases List.mem_singleton.mp new
      exact joins other rfl
  · rcases List.mem_append.mp member with old | new
    · exact some (valid.started creator other old)
    · cases List.mem_singleton.mp new
      exact creates other rfl
  · rw [halted, valid.halted]
    simp [List.mem_append, exists_or, eq_comm]

/-- What the threads have run explains the state after each step. -/
theorem Valid.step (valid : Valid code start main trace state)
    (stepped : (machine code).step state thread = some (next, events)) :
    Valid code start main (trace ++ events) next := by
  obtain ⟨instr, rest, -, found, rfl, performed⟩ := step_eq_some stepped
  have codes := valid.codes.consume found
  cases instr with
  | emit message =>
      cases performed
      refine valid.extend found codes (fun _ => Or.inl rfl) (fun _ same => by cases same) (fun _ same => by cases same)
        (by simp) fun sem => ?_
      simpa [waits, posts] using valid.values sem
  | wait sem =>
      simp only [perform] at performed
      split at performed
      · cases performed
      · next positive =>
          cases performed
          refine valid.extend found codes (fun _ => Or.inl rfl) (fun _ same => by cases same)
            (fun _ same => by cases same) (by simp) fun other => ?_
          have balance := valid.values other
          by_cases same : other = sem
          · subst same
            simp only [waits, posts, List.countP_append, List.countP_singleton, Function.update_self] at balance ⊢
            simp
            omega
          · simpa [waits, posts, same, Ne.symm same] using balance
  | post sem =>
      cases performed
      refine valid.extend found codes (fun _ => Or.inl rfl) (fun _ same => by cases same) (fun _ same => by cases same)
        (by simp) fun other => ?_
      have balance := valid.values other
      by_cases same : other = sem
      · subst same
        simp only [waits, posts, List.countP_append, List.countP_singleton, Function.update_self] at balance ⊢
        simp
        omega
      · simpa [waits, posts, same, Ne.symm same] using balance
  | create other =>
      simp only [perform] at performed
      split at performed
      · next fresh =>
          cases performed
          refine valid.extend found (codes.create fresh) (fun each => ?_) (fun _ same => by cases same)
            (fun _ same => ?_) (by simp) fun sem => ?_
          · by_cases this : each = other
            · subst this
              refine Or.inr ⟨rfl, ?_, Function.update_self ..⟩
              by_cases self : each = thread
              · rw [self, Function.update_self] at fresh
                cases fresh
              · rwa [Function.update_of_ne self] at fresh
            · exact Or.inl (Function.update_of_ne this _ _)
          · cases same
            simp
          · simpa [waits, posts] using valid.values sem
      · cases performed
  | join other =>
      simp only [perform] at performed
      split at performed
      · next ended =>
          cases performed
          refine valid.extend found codes (fun _ => Or.inl rfl) (fun _ same => by cases same; exact ended)
            (fun _ same => by cases same) (by simp) fun sem => ?_
          simpa [waits, posts] using valid.values sem
      · cases performed
  | exit =>
      cases performed
      refine valid.extend found codes (fun _ => Or.inl rfl) (fun _ same => by cases same) (fun _ same => by cases same)
        (by simp) fun sem => ?_
      simpa [waits, posts] using valid.values sem

theorem run_valid {schedule : List Thread}
    (ran : (machine code).run (initial code start main) schedule = some (state, trace)) :
    Valid code start main trace state :=
  (machine code).run_invariant (Valid code start main) (fun _ _ _ _ _ valid stepped => valid.step stepped)
    (initial_valid code start main) ran

/-- A thread has run a beginning of its code. -/
theorem Valid.executed_begins (valid : Valid code start main trace state) (thread : Thread) :
    executed thread trace <+: code thread := by
  cases found : state.rest thread with
  | none =>
      rw [valid.codes.fresh thread found]
      exact List.nil_prefix
  | some left => exact ⟨left, valid.codes.started thread left found⟩

theorem Valid.mem_inits (valid : Valid code start main trace state) (thread : Thread) :
    executed thread trace ∈ (code thread).inits :=
  (List.mem_inits _ _).mpr (valid.executed_begins thread)

/-- A thread that has run an instruction has run what stands before it. -/
theorem Valid.mem_of_mem (valid : Valid code start main trace state) {first second : Instr Thread Sem Message}
    (before : ∀ begun ∈ (code thread).inits, second ∈ begun → first ∈ begun) (ran : (thread, second) ∈ trace) :
    (thread, first) ∈ trace :=
  mem_executed.mp (before _ (valid.mem_inits thread) (mem_executed.mpr ran))

/-- An instruction is run by a thread that has it in its code. -/
theorem Valid.mem_code (valid : Valid code start main trace state) (ran : (thread, instr) ∈ trace) :
    instr ∈ code thread :=
  (valid.executed_begins thread).subset (mem_executed.mpr ran)

/-- A thread has not run its next instruction if that stands in its code only once. -/
theorem Valid.not_mem_of_next (valid : Valid code start main trace state)
    (once : ∀ begun ∈ (code thread).inits, begun ++ [instr] ∈ (code thread).inits → instr ∉ begun)
    (found : state.rest thread = some (instr :: rest)) : (thread, instr) ∉ trace := by
  intro ran
  refine once _ (valid.mem_inits thread) ?_ (mem_executed.mpr ran)
  rw [List.mem_inits]
  exact ⟨rest, by rw [List.append_assoc]; exact valid.codes.started thread _ found⟩

/-- A thread at an instruction has run what stands before it. -/
theorem Valid.mem_of_next (valid : Valid code start main trace state) {first : Instr Thread Sem Message}
    (before : ∀ begun ∈ (code thread).inits, begun ++ [instr] ∈ (code thread).inits → first ∈ begun)
    (found : state.rest thread = some (instr :: rest)) : (thread, first) ∈ trace := by
  refine mem_executed.mp (before _ (valid.mem_inits thread) ?_)
  rw [List.mem_inits]
  exact ⟨rest, by rw [List.append_assoc]; exact valid.codes.started thread _ found⟩

theorem Valid.next_mem_code (valid : Valid code start main trace state)
    (found : state.rest thread = some (instr :: rest)) : instr ∈ code thread := by
  rw [← valid.codes.started thread _ found]
  simp

/-- A message that one thread prints once has not been printed before. -/
theorem Valid.not_printed (valid : Valid code start main trace state) {message : Message}
    (one : ∀ first second, .emit message ∈ code first → .emit message ∈ code second → first = second)
    (once : ∀ begun ∈ (code thread).inits, begun ++ [.emit message] ∈ (code thread).inits → .emit message ∉ begun)
    (found : state.rest thread = some (.emit message :: rest)) : message ∉ messages trace := by
  intro again
  obtain ⟨other, ran⟩ := mem_messages.mp again
  obtain rfl := one other thread (valid.mem_code ran) (valid.next_mem_code found)
  exact valid.not_mem_of_next once found ran

/-- A run prints what each message may follow. -/
theorem run_messages (good : List Message → Prop) (empty : good [])
    (continues : ∀ trace state thread message rest, Valid code start main trace state →
      state.rest thread = some (.emit message :: rest) → good (messages trace) → good (messages trace ++ [message]))
    {schedule : List Thread} (ran : (machine code).run (initial code start main) schedule = some (state, trace)) :
    good (messages trace) := by
  refine ((machine code).run_invariant
    (fun trace state => Valid code start main trace state ∧ good (messages trace))
    (fun past state thread next events holds stepped => ⟨holds.1.step stepped, ?_⟩)
    ⟨initial_valid code start main, empty⟩ ran).2
  obtain ⟨valid, begun⟩ := holds
  obtain ⟨instr, rest, -, found, rfl, -⟩ := step_eq_some stepped
  rw [messages, List.filterMap_append]
  cases instr with
  | emit message => exact continues past state thread message rest valid found begun
  | _ => exact (List.append_nil (messages past)).symm ▸ begun

/-- A thread at its end has run its code. -/
theorem Valid.mem_of_ended (valid : Valid code start main trace state) (ended : state.rest thread = some [])
    (inside : instr ∈ code thread) : (thread, instr) ∈ trace := by
  rw [← mem_executed, ← List.append_nil (executed thread trace), valid.codes.started thread [] ended]
  exact inside

/-- A thread that waits on a semaphore without initial value comes after a post. -/
theorem Valid.exists_post (valid : Valid code start main trace state) {sem : Sem} (empty : start sem = 0)
    (waited : (thread, .wait sem) ∈ trace) : ∃ other, (other, .post sem) ∈ trace := by
  have balance := valid.values sem
  have some : 0 < waits sem trace := List.countP_pos_iff.mpr ⟨_, waited, by simp⟩
  have posted : 0 < posts sem trace := by omega
  obtain ⟨⟨other, instr⟩, member, is⟩ := List.countP_pos_iff.mp posted
  cases of_decide_eq_true is
  exact ⟨other, member⟩

/-- A semaphore that is empty after a post has been waited for. -/
theorem Valid.exists_wait (valid : Valid code start main trace state) {sem : Sem} (empty : state.values sem = 0)
    (posted : (thread, .post sem) ∈ trace) : ∃ other, (other, .wait sem) ∈ trace := by
  have balance := valid.values sem
  have some : 0 < posts sem trace := List.countP_pos_iff.mpr ⟨_, posted, by simp⟩
  have waited : 0 < waits sem trace := by omega
  obtain ⟨⟨other, instr⟩, member, is⟩ := List.countP_pos_iff.mp waited
  cases of_decide_eq_true is
  exact ⟨other, member⟩

/-- A thread that cannot move waits for a semaphore or for the end of another thread, or is at its end. -/
theorem blocked_cases (running : state.halted = false) (found : state.rest thread = some (instr :: rest))
    (stopped : ¬(machine code).Enabled state thread) :
    (∃ sem, instr = .wait sem ∧ state.values sem = 0) ∨
      (∃ other, instr = .join other ∧ Function.update state.rest thread (some rest) other ≠ some []) ∨
      ∃ other, instr = .create other ∧ Function.update state.rest thread (some rest) other ≠ none := by
  simp only [Machine.Enabled, machine, step, running, found, Bool.false_eq_true, if_false, Option.isSome_map] at stopped
  cases instr with
  | emit message | post sem | exit => exact absurd rfl stopped
  | wait sem =>
      by_cases zero : state.values sem = 0
      · exact Or.inl ⟨sem, rfl, zero⟩
      · simp [perform, zero] at stopped
  | create other =>
      refine Or.inr (Or.inr ⟨other, rfl, fun fresh => ?_⟩)
      simp [perform, fresh] at stopped
  | join other =>
      refine Or.inr (Or.inl ⟨other, rfl, fun ended => ?_⟩)
      simp [perform, ended] at stopped

section Length

variable [Fintype Thread]

omit [DecidableEq Sem] [DecidableEq Message] in
theorem length_eq_sum (trace : List (Thread × Instr Thread Sem Message)) :
    trace.length = ∑ thread, (executed thread trace).length := by
  induction trace using List.reverseRecOn with
  | nil => simp [executed]
  | append_singleton trace event ih =>
      have each (thread : Thread) : (executed thread (trace ++ [event])).length =
          (executed thread trace).length + if event.1 = thread then 1 else 0 := by
        rw [show event = (event.1, event.2) from rfl, executed_concat, List.length_append]
        split <;> rfl
      rw [List.length_append, ih, Finset.sum_congr rfl fun thread _ => each thread, Finset.sum_add_distrib,
        Finset.sum_ite_eq, if_pos (Finset.mem_univ _), List.length_singleton]

/-- No run is longer than the code of all threads. -/
theorem run_length_le {schedule : List Thread}
    (ran : (machine code).run (initial code start main) schedule = some (state, trace)) :
    schedule.length ≤ ∑ thread, (code thread).length := by
  have steps : schedule.length = trace.length :=
    (machine code).run_invariant_along (fun _ _ => True) (fun actions trace _ => actions.length = trace.length)
      (fun actions trace state thread next events same _ stepped => by
        obtain ⟨instr, rest, -, -, rfl, -⟩ := step_eq_some stepped
        rw [List.length_append, List.length_append, same, List.length_singleton, List.length_singleton])
      rfl ((machine code).along_true _ schedule) ran
  rw [steps, length_eq_sum]
  exact Finset.sum_le_sum fun thread _ => ((run_valid ran).executed_begins thread).length_le

end Length

end Ostep.Library.Threads
