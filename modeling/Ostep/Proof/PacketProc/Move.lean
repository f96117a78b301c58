import Ostep.Construction.PacketProc

namespace Ostep.PacketProc
open Library

theorem ringMask_eq : ringMask = Ring.mask 32 7 := by decide

/-- The other process only removes indices from the front of this ring. -/
structure Drains (before after : Ringbuf) : Prop where
  head : after.head = before.head
  mask : after.mask = before.mask
  buffer : after.buffer = before.buffer

/-- The other process only adds indices at the back of this ring. -/
structure Grows (before after : Ringbuf) : Prop where
  tail : after.tail = before.tail
  mask : after.mask = before.mask
  indices : before.indices <+: after.indices

theorem Drains.refl (ring : Ringbuf) : Drains ring ring := ⟨rfl, rfl, rfl⟩

theorem Grows.refl (ring : Ringbuf) : Grows ring ring := ⟨rfl, rfl, List.prefix_rfl⟩

/-- The local values of a process agree with the rings it reads and writes. -/
def Pc.Sound {Work : Type} (source target : Ringbuf) : Pc Work → Prop
  | .sourceEmpty operands =>
      (∀ head, operands.head = some head →
        (head - source.tail).toNat ≤ source.indices.length) ∧
      ∀ tail, operands.tail = some tail → tail = source.tail
  | .targetFull _ | .loadTail => source.indices ≠ []
  | .loadSlot tail => source.indices ≠ [] ∧ tail = source.tail
  | .advanceLoad index => source.indices.head? = some index
  | .advanceStore index tail => source.indices.head? = some index ∧ tail = source.tail
  | .storeSlot _ head => head = target.head
  | .publishLoad index => target.buffer (target.head &&& target.mask) = index
  | .publishStore index head => target.buffer (target.head &&& target.mask) = index ∧ head = target.head
  | .loop | .work _ _ | .loadHead _ | .finished => True

/-- A longer list keeps the first entry of its nonempty front. -/
theorem head?_of_front {α : Type} {front whole : List α} {first : α} (extends_ : front <+: whole)
    (starts : front.head? = some first) : whole.head? = some first := by
  obtain ⟨rest, rfl⟩ := extends_
  cases front with
  | nil => simp at starts
  | cons entry tail => simpa using starts

theorem ne_nil_of_front {α : Type} {front whole : List α} (extends_ : front <+: whole)
    (nonempty : front ≠ []) : whole ≠ [] := by
  obtain ⟨rest, rfl⟩ := extends_
  simp [nonempty]

/-- The other process cannot invalidate the local values. -/
theorem Pc.Sound.stable {Work : Type} {source target source' target' : Ringbuf} {pc : Pc Work}
    (sound : pc.Sound source target) (grows : Grows source source') (drains : Drains target target') :
    pc.Sound source' target' := by
  cases pc with
  | sourceEmpty operands =>
      refine ⟨fun head loaded => ?_, fun tail loaded => ?_⟩
      · rw [grows.tail]
        exact (sound.1 head loaded).trans grows.indices.length_le
      · rw [grows.tail]
        exact sound.2 tail loaded
  | targetFull operands => exact ne_nil_of_front grows.indices sound
  | loadTail => exact ne_nil_of_front grows.indices sound
  | loadSlot tail => exact ⟨ne_nil_of_front grows.indices sound.1, sound.2.trans grows.tail.symm⟩
  | advanceLoad index => exact head?_of_front grows.indices sound
  | advanceStore index tail => exact ⟨head?_of_front grows.indices sound.1, sound.2.trans grows.tail.symm⟩
  | storeSlot index head => exact Eq.trans sound drains.head.symm
  | publishLoad index =>
      change target'.buffer (target'.head &&& target'.mask) = index
      rw [drains.buffer, drains.head, drains.mask]
      exact sound
  | publishStore index head =>
      change target'.buffer (target'.head &&& target'.mask) = index ∧ head = target'.head
      rw [drains.buffer, drains.head, drains.mask]
      exact sound
  | loop => trivial
  | work index part => trivial
  | loadHead index => trivial
  | finished => trivial

@[simp] theorem Pc.held_work {Work : Type} (index : Word) (part : Work) :
    (Pc.work index part).held = [index] := rfl

@[simp] theorem Pc.held_loadHead {Work : Type} (index : Word) :
    (Pc.loadHead index : Pc Work).held = [index] := rfl

/-- A process gives its index away when it advances the head of its target ring. -/
def Pc.given {Work : Type} : Pc Work → List Word
  | .publishStore index _ => [index]
  | _ => []

/-- One step of the shared loop moves at most one index along its line. -/
structure MoveEffect {Work : Type} (source target : Ringbuf) (pc : Pc Work)
    (source' target' : Ringbuf) (pc' : Pc Work) : Prop where
  drains : Drains source source'
  grows : Grows target target'
  sound : pc'.Sound source' target'
  received : target'.indices = target.indices ++ pc.given
  passed : pc.given ++ (pc'.held ++ source'.indices) = pc.held ++ source.indices

/-- A step that leaves both rings has the effect when its local values are right. -/
theorem MoveEffect.local {Work : Type} {source target : Ringbuf} {pc pc' : Pc Work}
    (sound : pc'.Sound source target) (nothing : pc.given = []) (same : pc'.held = pc.held) :
    MoveEffect source target pc source target pc' where
  drains := .refl source
  grows := .refl target
  sound := sound
  received := by simp [nothing]
  passed := by simp [nothing, same]

/-- A load keeps the operands of an emptiness test sound. -/
theorem Operands.load_sound {Work : Type} {source target : Ringbuf} {operands : Operands} (headFirst : Bool)
    (sound : (Pc.sourceEmpty operands : Pc Work).Sound source target) :
    (Pc.sourceEmpty (operands.load source headFirst) : Pc Work).Sound source target := by
  have current : (source.head - source.tail).toNat ≤ source.indices.length := by
    simp [Ringbuf.indices]
  have loadedHead : ∀ head, some source.head = some head →
      (head - source.tail).toNat ≤ source.indices.length := by
    rintro head ⟨⟩
    exact current
  have loadedTail : ∀ tail, some source.tail = some tail → tail = source.tail := by
    rintro tail ⟨⟩
    rfl
  rcases operands with ⟨_ | head, _ | tail⟩
  · cases headFirst
    · exact ⟨sound.1, loadedTail⟩
    · exact ⟨loadedHead, sound.2⟩
  · exact ⟨loadedHead, sound.2⟩
  · exact ⟨sound.1, loadedTail⟩
  · exact ⟨sound.1, loadedTail⟩

/-- A passed emptiness test leaves an index in the source ring. -/
theorem nonempty_of_ringIsEmpty {Work : Type} {source target : Ringbuf} {head tail : Word}
    (sound : (Pc.sourceEmpty ⟨some head, some tail⟩ : Pc Work).Sound source target)
    (tested : ringIsEmpty head tail = false) : source.indices ≠ [] := by
  obtain ⟨headSound, tailSound⟩ := sound
  have bound := headSound head rfl
  have same := tailSound tail rfl
  subst same
  intro empty
  rw [empty, List.length_nil, Nat.le_zero, Ring.distance_eq_zero_iff] at bound
  subst bound
  simp [ringIsEmpty] at tested

/-- The counters of a nonempty ring differ. -/
theorem Ringbuf.head_ne_tail {ring : Ringbuf} (nonempty : ring.indices ≠ []) : ring.head ≠ ring.tail := by
  intro same
  apply nonempty
  simp [Ringbuf.indices, same]

/-- The first index of a nonempty ring is in the slot of its tail. -/
theorem Ringbuf.indices_eq_cons {ring : Ringbuf} (nonempty : ring.indices ≠ []) :
    ring.indices = ring.buffer (ring.tail &&& ring.mask) ::
      ({ ring with tail := ring.tail + 1 } : Ringbuf).indices :=
  Ring.contents_advance_read (Ringbuf.head_ne_tail nonempty)

/-- The advance of the source tail takes the first index. -/
theorem moveEffect_take {Work : Type} {source target : Ringbuf} {index : Word} (part : Work)
    (first : source.indices.head? = some index) :
    MoveEffect source target (.advanceStore index source.tail)
      { source with tail := source.tail + 1 } target (.work index part) where
  drains := ⟨rfl, rfl, rfl⟩
  grows := .refl target
  sound := trivial
  received := by simp [Pc.given]
  passed := by
    have nonempty : source.indices ≠ [] := by
      intro empty
      simp [empty] at first
    have split := Ringbuf.indices_eq_cons nonempty
    rw [split, List.head?_cons, Option.some.injEq] at first
    simpa [Pc.given, Pc.held, first] using split.symm

/-- The store of an index leaves the indices of the target ring. -/
theorem moveEffect_store {Work : Type} {source target : Ringbuf} (index : Word)
    (masked : target.mask = ringMask) (room : target.indices.length < bufferSize) :
    MoveEffect source target (.storeSlot index target.head : Pc Work) source
      { target with buffer := Function.update target.buffer (target.head &&& target.mask) index }
      (.publishLoad index) := by
  have kept : ({ target with
      buffer := Function.update target.buffer (target.head &&& target.mask) index } : Ringbuf).indices =
      target.indices := by
    have distance : (target.head - target.tail).toNat < 2 ^ 7 := by
      simpa [Ringbuf.indices, bufferSize] using room
    simp only [Ringbuf.indices, masked, ringMask_eq]
    exact Ring.contents_store (by decide) distance index
  exact {
    drains := .refl source
    grows := ⟨rfl, rfl, kept.symm ▸ List.prefix_rfl⟩
    sound := by simp [Pc.Sound]
    received := by rw [kept]; simp [Pc.given]
    passed := by simp [Pc.given, Pc.held] }

/-- The advance of the target head gives the stored index away. -/
theorem moveEffect_publish {Work : Type} {source target : Ringbuf} {index : Word}
    (room : target.indices.length < bufferSize)
    (stored : target.buffer (target.head &&& target.mask) = index) :
    MoveEffect source target (.publishStore index target.head : Pc Work) source
      { target with head := target.head + 1 } .loop := by
  have pushed : ({ target with head := target.head + 1 } : Ringbuf).indices = target.indices ++ [index] := by
    have distance : (target.head - target.tail).toNat + 1 < 2 ^ 32 := by
      have bound : (target.head - target.tail).toNat < 128 := by
        simpa [Ringbuf.indices, bufferSize] using room
      omega
    rw [← stored]
    exact Ring.contents_advance_write distance
  exact {
    drains := .refl source
    grows := ⟨rfl, rfl, by rw [pushed]; exact List.prefix_append _ _⟩
    sound := trivial
    received := by rw [pushed]; rfl
    passed := by simp [Pc.given, Pc.held] }

/-- The loads that are left of a test. -/
def Operands.missing : Operands → Nat
  | ⟨none, none⟩ => 2
  | ⟨some _, some _⟩ => 0
  | _ => 1

/-- The steps of the shared loop, each with the test that leads to it. -/
inductive Moved {Work : Type} (more : Bool) (begin : Work) (headFirst : Bool) (source target : Ringbuf) :
    Pc Work → Ringbuf → Ringbuf → Pc Work → Prop where
  | enter (continues : more = true) : Moved more begin headFirst source target .loop source target (.sourceEmpty .start)
  | stop (ends : more = false) : Moved more begin headFirst source target .loop source target .finished
  | loadSource {operands : Operands} (incomplete : operands.missing ≠ 0) :
      Moved more begin headFirst source target (.sourceEmpty operands) source target
        (.sourceEmpty (operands.load source headFirst))
  | empty {head tail : Word} (tested : ringIsEmpty head tail = true) :
      Moved more begin headFirst source target (.sourceEmpty ⟨some head, some tail⟩) source target .loop
  | nonempty {head tail : Word} (tested : ringIsEmpty head tail = false) :
      Moved more begin headFirst source target (.sourceEmpty ⟨some head, some tail⟩) source target (.targetFull .start)
  | loadTarget {operands : Operands} (incomplete : operands.missing ≠ 0) :
      Moved more begin headFirst source target (.targetFull operands) source target
        (.targetFull (operands.load target headFirst))
  | full {head tail : Word} (tested : ringIsFull head tail = true) :
      Moved more begin headFirst source target (.targetFull ⟨some head, some tail⟩) source target .loop
  | room {head tail : Word} (tested : ringIsFull head tail = false) :
      Moved more begin headFirst source target (.targetFull ⟨some head, some tail⟩) source target .loadTail
  | loadTail : Moved more begin headFirst source target .loadTail source target (.loadSlot source.tail)
  | loadSlot (tail : Word) :
      Moved more begin headFirst source target (.loadSlot tail) source target
        (.advanceLoad (source.buffer (tail &&& source.mask)))
  | advanceLoad (index : Word) :
      Moved more begin headFirst source target (.advanceLoad index) source target (.advanceStore index source.tail)
  | advanceStore (index tail : Word) :
      Moved more begin headFirst source target (.advanceStore index tail) { source with tail := tail + 1 } target
        (.work index begin)
  | loadHead (index : Word) :
      Moved more begin headFirst source target (.loadHead index) source target (.storeSlot index target.head)
  | storeSlot (index head : Word) :
      Moved more begin headFirst source target (.storeSlot index head) source
        { target with buffer := Function.update target.buffer (head &&& target.mask) index } (.publishLoad index)
  | publishLoad (index : Word) :
      Moved more begin headFirst source target (.publishLoad index) source target (.publishStore index target.head)
  | publishStore (index head : Word) :
      Moved more begin headFirst source target (.publishStore index head) source { target with head := head + 1 } .loop

section Step

variable {Work : Type} {more headFirst : Bool} {begin : Work} {source target source' target' : Ringbuf}
  {pc pc' : Pc Work}

theorem moveStep_moved (stepped : moveStep more begin headFirst source target pc = some (source', target', pc')) :
    Moved more begin headFirst source target pc source' target' pc' := by
  cases pc with
  | loop =>
      cases stepped
      cases more
      · exact .stop rfl
      · exact .enter rfl
  | sourceEmpty operands =>
      rcases operands with ⟨_ | head, _ | tail⟩
      case some.some =>
        cases stepped
        cases tested : ringIsEmpty head tail
        · exact .nonempty tested
        · exact .empty tested
      all_goals
        cases stepped
        exact .loadSource (by simp [Operands.missing])
  | targetFull operands =>
      rcases operands with ⟨_ | head, _ | tail⟩
      case some.some =>
        cases stepped
        cases tested : ringIsFull head tail
        · exact .room tested
        · exact .full tested
      all_goals
        cases stepped
        exact .loadTarget (by simp [Operands.missing])
  | work index part => cases stepped
  | finished => cases stepped
  | _ =>
      cases stepped
      constructor

/-- Every step of the shared loop has the effect of one move. -/
theorem moveStep_effect
    (stepped : moveStep more begin headFirst source target pc = some (source', target', pc'))
    (sound : pc.Sound source target) (masked : target.mask = ringMask)
    (room : pc.held ≠ [] → target.indices.length < bufferSize) :
    MoveEffect source target pc source' target' pc' := by
  cases moveStep_moved stepped with
  | enter continues => exact .local (by simp [Pc.Sound, Operands.start]) rfl rfl
  | stop ends => exact .local trivial rfl rfl
  | loadSource incomplete => exact .local (Operands.load_sound headFirst sound) rfl rfl
  | empty tested => exact .local trivial rfl rfl
  | nonempty tested => exact .local (nonempty_of_ringIsEmpty sound tested) rfl rfl
  | loadTarget incomplete => exact .local sound rfl rfl
  | full tested => exact .local trivial rfl rfl
  | room tested => exact .local sound rfl rfl
  | loadTail => exact .local ⟨sound, rfl⟩ rfl rfl
  | loadSlot tail =>
      obtain ⟨nonempty, rfl⟩ := sound
      refine .local ?_ rfl rfl
      change source.indices.head? = _
      rw [Ringbuf.indices_eq_cons nonempty, List.head?_cons]
  | advanceLoad index => exact .local ⟨sound, rfl⟩ rfl rfl
  | advanceStore index tail =>
      obtain ⟨first, rfl⟩ := sound
      exact moveEffect_take begin first
  | loadHead index => exact .local rfl rfl rfl
  | storeSlot index head =>
      obtain rfl : head = target.head := sound
      exact moveEffect_store index masked (room (by simp [Pc.held]))
  | publishLoad index => exact .local ⟨sound, rfl⟩ rfl rfl
  | publishStore index head =>
      obtain ⟨stored, rfl⟩ := sound
      exact moveEffect_publish (room (by simp [Pc.held])) stored

end Step

end Ostep.PacketProc
