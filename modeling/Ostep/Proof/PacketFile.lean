import Ostep.Construction.PacketFile

namespace Ostep.PacketFile

open Library PacketProc

section Writer

variable {records : Records} {fd count : Nat} {outcomes : List Outcome}

theorem toNat_size (records : Records) : records.size.toNat = recordSize * records.count := by
  rw [Records.size, BitVec.toNat_ofNat, Nat.mod_eq_of_lt records.fits]

/-- The loop test compares the written bytes with the size of the array. -/
theorem test_eq (records : Records) (fd : Nat) (totalWritten : Size) (appended : List Byte) :
    Writer.test records fd ⟨totalWritten, appended, none⟩ =
      ⟨totalWritten, appended, if totalWritten.toNat < recordSize * records.count then none else some fd⟩ := by
  simp only [Writer.test, BitVec.lt_def, toNat_size]
  split <;> rfl

/-- An unsigned result is never below zero. -/
theorem receive_eq (records : Records) (fd : Nat) (totalWritten wlen : Size) (appended : List Byte) :
    Writer.receive records fd ⟨totalWritten, appended, none⟩ wlen =
      ⟨totalWritten + wlen, appended,
        if (totalWritten + wlen).toNat < recordSize * records.count then none else some fd⟩ := by
  rw [Writer.receive, if_neg (show ¬wlen < 0 from BitVec.not_lt_zero), test_eq]

theorem start_eq (nonempty : 0 < recordSize * records.count) : Writer.start records fd = ⟨0, [], none⟩ :=
  (test_eq records fd 0 []).trans (congrArg _ (if_pos nonempty))

/-- The first write is for the bytes of the array. -/
theorem request_start (nonempty : 0 < recordSize * records.count) :
    (Writer.start records fd).request records = some (0, recordSize * records.count) := by
  rw [start_eq nonempty, Writer.request, ← toNat_size]
  simp

/-- The writer of an empty array has nothing to do. -/
theorem start_empty (empty : recordSize * records.count = 0) : Writer.start records fd = ⟨0, [], some fd⟩ :=
  (test_eq records fd 0 []).trans (congrArg _ (if_neg (by rw [empty]; decide)))

/-- After a failed first write the loop ends with the file descriptor. -/
theorem failed_start (nonempty : 0 < recordSize * records.count) :
    (Writer.start records fd).step records fd .failed = some (⟨BitVec.ofInt 64 (-1), [], some fd⟩, []) := by
  have fits := records.fits
  have last : ¬(0 + BitVec.ofInt 64 (-1)).toNat < recordSize * records.count := by
    change ¬2 ^ 64 - 1 < _
    omega
  simp only [Writer.step, request_start nonempty]
  rw [start_eq nonempty, receive_eq, if_neg last]
  rfl

/-- A first write that accepts some bytes leaves the loop with the rest. -/
theorem accepted_start (nonempty : 0 < recordSize * records.count)
    (inside : 1 ≤ count ∧ count ≤ recordSize * records.count) :
    (Writer.start records fd).step records fd (.accepted count) =
      some (⟨BitVec.ofNat 64 count, (List.range count).map records.memory,
        if count < recordSize * records.count then none else some fd⟩, []) := by
  have fits := records.fits
  have sum : 0 + BitVec.ofNat 64 count = BitVec.ofNat 64 count := BitVec.zero_add _
  simp only [Writer.step, request_start nonempty, if_pos inside, Nat.zero_add]
  rw [start_eq nonempty, receive_eq, sum, BitVec.toNat_ofNat, Nat.mod_eq_of_lt (by omega)]
  rfl

/-- A write is enabled only while something is left. -/
theorem step_returned {writer : Writer} (ended : writer.returned.isSome = true) (outcome : Outcome) :
    writer.step records fd outcome = none := by
  simp only [Writer.step, Writer.request, ended, if_true]

/-- The first write of an array with records. -/
theorem pos_of_step {outcome : Outcome} {result : Writer × List Unit}
    (stepped : (Writer.start records fd).step records fd outcome = some result) : 0 < recordSize * records.count := by
  by_contra empty
  rw [start_empty (Nat.eq_zero_of_not_pos empty), step_returned rfl] at stepped
  cases stepped

/-- A write accepts at most the bytes that it is asked to write. -/
theorem accepted_of_step {result : Writer × List Unit}
    (stepped : (Writer.start records fd).step records fd (.accepted count) = some result) :
    1 ≤ count ∧ count ≤ recordSize * records.count := by
  by_contra outside
  simp only [Writer.step, request_start (pos_of_step stepped), if_neg outside] at stepped
  cases stepped

/-- A machine that has returned runs no further. -/
theorem run_returned {writer last : Writer} {trace : List Unit} (ended : writer.returned.isSome = true)
    (ran : (writerMachine records fd).run writer outcomes = some (last, trace)) : outcomes = [] := by
  cases outcomes with
  | nil => rfl
  | cons outcome rest =>
      obtain ⟨_, _, _, stepped, -⟩ := (writerMachine records fd).run_cons_eq_some.mp ran
      cases (step_returned ended outcome).symm.trans stepped

/-- A schedule without a failed write has nothing to report. -/
theorem reportsFailure_of_not_mem (absent : Outcome.failed ∉ outcomes) : ReportsFailure records fd outcomes := by
  intro before _ _ inside
  exact absurd (inside.subset (by simp)) absent

/-- After a short first write the next write leaves the array. -/
theorem not_complete_short (short : count < recordSize * records.count) (nonempty : 1 ≤ count) (appended : List Byte) :
    ¬Writer.Complete records fd ⟨BitVec.ofNat 64 count, appended, none⟩ := by
  rintro ⟨inside, -⟩
  have fits := records.fits
  have number : (BitVec.ofNat 64 count).toNat = count := by
    rw [BitVec.toNat_ofNat, Nat.mod_eq_of_lt (by omega)]
  have left : (records.size - BitVec.ofNat 64 count).toNat = recordSize * records.count - count := by
    rw [BitVec.toNat_sub_of_le (by rw [BitVec.le_def, toNat_size]; omega), toNat_size, number]
  have request := inside _ rfl
  rw [number, left] at request
  rw [recordSize, payloadSize] at request short
  omega

/-- A write loop that has not written yet is complete so far. -/
theorem complete_start (records : Records) (fd : Nat) : (Writer.start records fd).Complete records fd := by
  rcases Nat.eq_zero_or_pos (recordSize * records.count) with empty | nonempty
  · rw [Writer.Complete, start_empty empty, Records.bytes, empty]
    exact ⟨nofun, fun _ => rfl⟩
  · refine ⟨?_, ?_⟩
    · rw [request_start nonempty]
      rintro request ⟨⟩
      omega
    · rw [start_eq nonempty]
      nofun

/-- The loop is right for a run exactly when no write has ended yet or the first write accepts the whole array. -/
theorem packet_file_complete_iff (records : Records) (fd : Nat) (outcomes : List Outcome) (last : Writer)
    (trace : List Unit)
    (ran : (writerMachine records fd).run (Writer.start records fd) outcomes = some (last, trace)) :
    ((writerMachine records fd).Reaches (Writer.Complete records fd) (Writer.start records fd) outcomes ∧
        ReportsFailure records fd outcomes) ↔
      outcomes = [] ∨ outcomes = [.accepted (recordSize * records.count)] := by
  constructor
  · rintro ⟨complete, reports⟩
    cases outcomes with
    | nil => exact Or.inl rfl
    | cons outcome rest =>
        obtain ⟨next, events, _, stepped, continued, rfl⟩ := (writerMachine records fd).run_cons_eq_some.mp ran
        have nonempty := pos_of_step stepped
        cases outcome with
        | failed =>
            have reported := reports [] next (events ++ []) ⟨rest, rfl⟩
              ((writerMachine records fd).run_cons_eq_some.mpr ⟨next, events, [], stepped, rfl, rfl⟩)
            cases (failed_start nonempty).symm.trans stepped
            exact absurd (Option.some.inj reported) (by omega)
        | accepted count =>
            have inside := accepted_of_step stepped
            have after := (((writerMachine records fd).reaches_cons_iff.mp complete).2 next events stepped) [] next []
              List.nil_prefix rfl
            cases (accepted_start nonempty inside).symm.trans stepped
            by_cases short : count < recordSize * records.count
            · rw [if_pos short] at after
              exact absurd after (not_complete_short short inside.1 _)
            · rw [if_neg short] at continued
              rw [run_returned rfl continued, Nat.le_antisymm inside.2 (Nat.not_lt.mp short)]
              exact Or.inr rfl
  · rintro (rfl | rfl)
    · exact ⟨(writerMachine records fd).reaches_nil (complete_start records fd), reportsFailure_of_not_mem nofun⟩
    · refine ⟨?_, reportsFailure_of_not_mem (by simp)⟩
      refine (writerMachine records fd).reaches_cons_iff.mpr ⟨complete_start records fd, fun next events stepped => ?_⟩
      cases (accepted_start (pos_of_step stepped) (accepted_of_step stepped)).symm.trans stepped
      rw [if_neg (Nat.lt_irrefl _)]
      exact (writerMachine records fd).reaches_nil ⟨nofun, fun _ => rfl⟩

/-- An array of two records in a memory of equal bytes. -/
def twoRecords : Records := ⟨2, fun _ => 6, by decide⟩

/-- One write of twenty bytes completes a file with two records. -/
theorem packet_file_two_records :
    ∃ last trace, (writerMachine twoRecords 3).run (Writer.start twoRecords 3) [.accepted 20] = some (last, trace) ∧
      ReportsFailure twoRecords 3 [.accepted 20] :=
  ⟨_, _, rfl, ((packet_file_complete_iff twoRecords 3 [.accepted 20] _ _ rfl).mpr (Or.inr rfl)).2⟩

/-- A failed write of two records is reported as success. After a short write of one byte the next write asks for
nineteen bytes from the second record on, of which nine lie behind the array. -/
theorem packet_file_misses_failure :
    (∃ last trace, (writerMachine twoRecords 3).run (Writer.start twoRecords 3) [.failed] = some (last, trace) ∧
        last.returned = some 3 ∧ last.appended = []) ∧
      ∃ last trace, (writerMachine twoRecords 3).run (Writer.start twoRecords 3) [.accepted 1] = some (last, trace) ∧
        last.request twoRecords = some (10, 19) :=
  ⟨⟨_, _, rfl, rfl, rfl⟩, _, _, rfl, rfl⟩

end Writer

section Reader

variable {mapped : Mapped} {fetch : Fetch} {calls : List Fetch} {reader next : Reader}
  {choice : Fin bufferSize × BitVec 64}

/-- A call of the reader for a record of the file. -/
structure Fetch.Of (mapped : Mapped) (record : Nat) (fetch : Fetch) : Prop where
  curr : fetch.curr = recordSize * record
  payloadLen : fetch.payloadLen = (mapped.len (recordSize * record)).toNat
  kept : ∀ location, ¬fetch.Writes location → fetch.after location = fetch.before location

/-- The calls so far were for the records before the current one. -/
structure Reader.Holds (mapped : Mapped) (calls : List Fetch) (reader : Reader) : Prop where
  curr : reader.curr = recordSize * calls.length
  fetches : ∀ record (inside : record < calls.length), Fetch.Of mapped record calls[record]
  started : calls ≠ [] → recordSize * (calls.length - 1) < mapped.file.length

theorem initial_holds (mapped : Mapped) (packetBuf : Nat → Byte) : Reader.Holds mapped [] ⟨0, packetBuf⟩ :=
  ⟨rfl, nofun, fun nonempty => absurd rfl nonempty⟩

/-- One step of the loop handles the next record. -/
theorem holds_step {events : List Fetch} (holds : Reader.Holds mapped calls reader)
    (stepped : reader.step mapped choice = some (next, events)) : Reader.Holds mapped (calls ++ events) next := by
  obtain ⟨more, made⟩ := Option.ite_none_right_eq_some.mp stepped
  obtain ⟨rfl, rfl⟩ := Prod.mk.inj (Option.some.inj made)
  have length : ∀ fetch : Fetch, (calls ++ [fetch]).length = calls.length + 1 := fun _ => List.length_append
  refine ⟨?_, fun record inside => ?_, fun _ => ?_⟩
  · rw [length, Nat.mul_add_one, holds.curr]
  · rcases Nat.lt_or_eq_of_le (Nat.le_of_lt_succ ((length _).symm ▸ inside)) with earlier | rfl
    · rw [List.getElem_append_left earlier]
      exact holds.fetches record earlier
    · rw [List.getElem_concat_length rfl]
      exact ⟨holds.curr, by rw [← holds.curr], fun location outside => if_neg outside⟩
  · rw [length, Nat.add_sub_cancel, ← holds.curr]
    exact more

/-- A call stays in bounds exactly when its record is sound. -/
theorem Fetch.Of.inBounds_iff {record : Nat} (of : Fetch.Of mapped record fetch) :
    fetch.InBounds mapped ↔ mapped.Sound record := by
  constructor
  · intro inside
    refine ⟨?_, ?_⟩
    · -- The last byte that the call reads is the last one of the data, or of the length field if there is no data.
      rw [← of.payloadLen, ← of.curr]
      rcases Nat.eq_zero_or_pos fetch.payloadLen with empty | nonempty
      · have last := inside.reads (fetch.curr + 3) (Or.inl ⟨by omega, by omega⟩)
        omega
      · have last := inside.reads (fetch.curr + 4 + (fetch.payloadLen - 1)) (Or.inr ⟨by omega, by omega⟩)
        omega
    · rw [← of.payloadLen]
      by_contra large
      have beyond := inside.writes (packetSize * fetch.index + payloadOffset + payloadSize) ⟨by omega, by omega⟩
      exact absurd beyond.2 (Nat.lt_irrefl _)
  · rintro ⟨complete, small⟩
    rw [← of.payloadLen] at complete small
    rw [← of.curr] at complete
    have writes : ∀ location, fetch.Writes location → fetch.Payload location := by
      rintro location ⟨first, last⟩
      exact ⟨first, by omega⟩
    refine ⟨?_, writes, fun location outside => of.kept location (mt (writes location) outside)⟩
    rintro offset (⟨-, field⟩ | ⟨-, data⟩) <;> omega

/-- The calls of a run stay in bounds exactly when the records that they are for are sound.
The loop handles no more records than begin in the file. -/
theorem packet_reader_in_bounds_iff (mapped : Mapped) (packetBuf : Nat → Byte)
    (choices : List (Fin bufferSize × BitVec 64)) (last : Reader) (calls : List Fetch)
    (ran : (readerMachine mapped).run ⟨0, packetBuf⟩ choices = some (last, calls)) :
    ((∀ fetch ∈ calls, fetch.InBounds mapped) ↔ ∀ record < calls.length, mapped.Sound record) ∧
      calls.length ≤ (mapped.file.length + recordSize - 1) / recordSize := by
  have holds : Reader.Holds mapped calls last :=
    (readerMachine mapped).run_invariant (Reader.Holds mapped) (fun _ _ _ _ _ => holds_step)
      (initial_holds mapped packetBuf) ran
  refine ⟨⟨fun inside record before => ?_, fun sound fetch member => ?_⟩, ?_⟩
  · exact (holds.fetches record before).inBounds_iff.mp (inside _ (List.getElem_mem before))
  · obtain ⟨record, before, rfl⟩ := List.getElem_of_mem member
    exact (holds.fetches record before).inBounds_iff.mpr (sound record before)
  · rcases Nat.eq_zero_or_pos calls.length with empty | nonempty
    · rw [empty]
      exact Nat.zero_le _
    · have started := holds.started (List.ne_nil_of_length_pos nonempty)
      rw [recordSize, payloadSize] at started ⊢
      omega

/-- A file with one whole record. -/
def wholeRecord : Mapped := ⟨[6, 0, 0, 0, 1, 2, 3, 4, 5, 6], fun _ => 0⟩

/-- A file that ends after the length field. -/
def truncated : Mapped := ⟨[6, 0, 0, 0], fun _ => 0⟩

/-- A file with a length field of seven. -/
def oversized : Mapped := ⟨[7, 0, 0, 0, 1, 2, 3, 4, 5, 6, 7], fun _ => 0⟩

def firstPacket : Fin bufferSize × BitVec 64 := (⟨0, by decide⟩, 0)

theorem packet_reader_one_record :
    ∃ last calls, (readerMachine wholeRecord).run ⟨0, fun _ => 0⟩ [firstPacket] = some (last, calls) ∧
      calls.length = 1 ∧ ((∀ fetch ∈ calls, fetch.InBounds wholeRecord) ↔
        ∀ record < calls.length, wholeRecord.Sound record) :=
  ⟨_, _, rfl, rfl, (packet_reader_in_bounds_iff wholeRecord _ [firstPacket] _ _ rfl).1⟩

/-- A truncated record is read past the end of the file, and seven bytes are copied into a payload of six. -/
theorem packet_reader_out_of_bounds :
    (∃ last calls, (readerMachine truncated).run ⟨0, fun _ => 0⟩ [firstPacket] = some (last, calls) ∧
        ∃ fetch ∈ calls, fetch.Reads truncated.file.length) ∧
      ∃ last calls, (readerMachine oversized).run ⟨0, fun _ => 0⟩ [firstPacket] = some (last, calls) ∧
        ∃ fetch ∈ calls, ∃ location, fetch.Writes location ∧ ¬fetch.Payload location := by
  refine ⟨⟨_, _, rfl, _, List.mem_singleton_self _, Or.inr ⟨by decide, by decide⟩⟩, _, _, rfl, _,
    List.mem_singleton_self _, 22, ⟨by decide, by decide⟩, fun payload => ?_⟩
  exact absurd payload.2 (by decide)

end Reader

end Ostep.PacketFile
