import Ostep.Construction.MyTail

namespace Ostep.MyTail

open Library

variable {file : List Byte} {past : Byte} {bytes : Nat → Byte} {numLines linesFound : Nat}

/-- The chunks together are the rest of the file. -/
theorem copyOut_eq (rest : List Byte) : copyOut rest = rest := by
  fun_induction copyOut rest with
  | case1 rest done => exact (List.length_eq_zero_iff.mp done).symm
  | case2 rest more ih => rw [ih, List.take_append_drop]

/-- The bytes of a buffer up to an index. -/
def upTo (bytes : Nat → Byte) (i : Nat) : List Byte := (List.range (i + 1)).map bytes

theorem length_upTo (bytes : Nat → Byte) (i : Nat) : (upTo bytes i).length = i + 1 := by
  rw [upTo, List.length_map, List.length_range]

theorem getElem_upTo {i index : Nat} (inside : index < (upTo bytes i).length) :
    (upTo bytes i)[index] = bytes index := by
  simp only [upTo, List.getElem_map, List.getElem_range]

theorem upTo_succ (bytes : Nat → Byte) (i : Nat) : upTo bytes (i + 1) = upTo bytes i ++ [bytes (i + 1)] := by
  rw [upTo, List.range_succ, List.map_append]
  rfl

theorem countLine_eq (byte : Byte) (linesFound : Nat) :
    countLine byte linesFound = linesFound + [byte].count newline := by
  rw [countLine, List.count_singleton]
  by_cases same : byte = newline <;> simp [same]

/-- A byte that is counted is a newline. -/
theorem eq_newline {byte : Byte} (counted : 0 < [byte].count newline) : byte = newline :=
  (List.mem_singleton.mp (List.count_pos_iff.mp counted)).symm

/-- A scan that does not find enough lines counts all of them. -/
theorem scan_few (i : Nat) (few : linesFound + (upTo bytes i).count newline < numLines) :
    (scan bytes numLines i linesFound).linesFound = linesFound + (upTo bytes i).count newline ∧
      (scan bytes numLines i linesFound).stop = none := by
  induction i generalizing linesFound with
  | zero =>
      change linesFound + [bytes 0].count newline < numLines at few
      simp only [scan, countLine_eq]
      exact ⟨rfl, if_neg (Nat.ne_of_lt few)⟩
  | succ i ih =>
      rw [upTo_succ, List.count_append, Nat.add_comm (List.count ..), ← Nat.add_assoc] at few ⊢
      simp only [scan, countLine_eq]
      rw [if_neg (by omega)]
      exact ih few

/-- A scan stops at the newline with which the wanted number is found. -/
theorem scan_enough (i : Nat) (below : linesFound < numLines)
    (enough : numLines ≤ linesFound + (upTo bytes i).count newline) :
    (scan bytes numLines i linesFound).linesFound = numLines ∧
      ∃ stop ≤ i, (scan bytes numLines i linesFound).stop = some stop ∧ bytes stop = newline ∧
        linesFound + 1 + ((upTo bytes i).drop (stop + 1)).count newline = numLines := by
  have atMost (byte : Byte) : [byte].count newline ≤ 1 := List.count_le_length
  induction i generalizing linesFound with
  | zero =>
      change numLines ≤ linesFound + [bytes 0].count newline at enough
      have one := atMost (bytes 0)
      have last : linesFound + [bytes 0].count newline = numLines := by omega
      simp only [scan, countLine_eq]
      refine ⟨last, 0, Nat.le_refl 0, if_pos last, eq_newline (by omega), ?_⟩
      rw [List.drop_of_length_le (Nat.le_of_eq (length_upTo ..)), List.count_nil]
      omega
  | succ i ih =>
      have one := atMost (bytes (i + 1))
      rw [upTo_succ, List.count_append, Nat.add_comm (List.count ..), ← Nat.add_assoc] at enough
      simp only [scan, countLine_eq]
      by_cases last : linesFound + [bytes (i + 1)].count newline = numLines
      · rw [if_pos last]
        refine ⟨last, i + 1, Nat.le_refl _, rfl, eq_newline (by omega), ?_⟩
        rw [List.drop_of_length_le (Nat.le_of_eq (length_upTo ..)), List.count_nil]
        omega
      · rw [if_neg last]
        have length := length_upTo bytes i
        obtain ⟨all, stop, inside, stopped, found, lines⟩ := ih (by omega) enough
        refine ⟨all, stop, by omega, stopped, found, ?_⟩
        rw [upTo_succ, List.drop_append_of_le_length (by omega), List.count_append]
        omega

/-- A scan inspects the index that it starts at. -/
theorem mem_inspected (i : Nat) : i ∈ (scan bytes numLines i linesFound).inspected := by
  cases i with
  | zero => exact List.mem_singleton_self 0
  | succ i =>
      rw [scan]
      split
      · exact List.mem_singleton_self _
      · exact List.mem_cons_self

theorem readSize_le (file : List Byte) : readSize file ≤ file.length := by
  rw [readSize]
  split <;> omega

theorem length_lastChunk (file : List Byte) : (lastChunk file).length = readSize file := by
  have inside := readSize_le file
  rw [lastChunk, List.length_drop]
  omega

/-- The buffer holds the last bytes of the file. -/
theorem upTo_buffer (past : Byte) {i : Nat} (size : readSize file = i + 1) :
    upTo (buffer file past) i = lastChunk file := by
  apply List.ext_getElem
  · rw [length_upTo, length_lastChunk, size]
  · intro index inside within
    rw [getElem_upTo, buffer]
    rw [length_upTo, ← size] at inside
    rw [if_pos inside, List.getD_eq_getElem?_getD, List.getElem?_eq_getElem within, Option.getD_some]

theorem buffer_readSize {around : Nat → Byte} (quiet : Quiet file around) (pass : Nat) :
    buffer file (around pass) (readSize file) ≠ newline := by
  rw [buffer, if_neg (Nat.lt_irrefl _)]
  by_cases small : file.length < chunkSize
  · rw [readSize, if_pos small, if_pos small]
    decide
  · rw [readSize, if_neg small, if_neg (Nat.lt_irrefl _)]
    exact quiet.resolve_left small pass

/-- A scan passes over a byte that is no newline. -/
theorem scan_skip {i : Nat} (other : bytes (i + 1) ≠ newline) (open_ : linesFound ≠ numLines) :
    (scan bytes numLines (i + 1) linesFound).linesFound = (scan bytes numLines i linesFound).linesFound ∧
      (scan bytes numLines (i + 1) linesFound).stop = (scan bytes numLines i linesFound).stop := by
  simp only [scan, countLine, if_neg other, if_neg open_, and_self]

variable {tail : Tail file}

/-- A pass that finds too few lines counts those of the last chunk. -/
theorem pass_few (other : buffer file past (readSize file) ≠ newline) (nonempty : 0 < readSize file)
    (few : tail.linesFound + (lastChunk file).count newline < numLines) :
    (tail.pass numLines past).linesFound = tail.linesFound + (lastChunk file).count newline ∧
      (tail.pass numLines past).tailStartPos = tail.tailStartPos := by
  obtain ⟨i, size⟩ := Nat.exists_eq_add_one_of_ne_zero (Nat.ne_of_gt nonempty)
  rw [size] at other
  have skipped := scan_skip other (show tail.linesFound ≠ numLines by omega)
  rw [← upTo_buffer past size] at few ⊢
  simp only [Tail.pass, size, skipped.1, skipped.2, scan_few i few, and_self]

/-- A pass that finds enough lines stops at the newline before the wanted ones. -/
theorem pass_enough (other : buffer file past (readSize file) ≠ newline) (below : tail.linesFound < numLines)
    (enough : numLines ≤ tail.linesFound + (lastChunk file).count newline) :
    (tail.pass numLines past).linesFound = numLines ∧
      ∃ front rest, lastChunk file = front ++ newline :: rest ∧
        tail.linesFound + 1 + rest.count newline = numLines ∧
        (tail.pass numLines past).tailStartPos = tail.currPos - rest.length := by
  have most : (lastChunk file).count newline ≤ (lastChunk file).length := List.count_le_length
  have length := length_lastChunk file
  obtain ⟨i, size⟩ : ∃ i, readSize file = i + 1 := ⟨readSize file - 1, by omega⟩
  rw [size] at other
  rw [← upTo_buffer past size] at enough
  have skipped := scan_skip other (Nat.ne_of_lt below)
  obtain ⟨all, stop, inside, stopped, found, lines⟩ := scan_enough i below enough
  rw [upTo_buffer past size] at lines
  refine ⟨?_, (lastChunk file).take stop, (lastChunk file).drop (stop + 1), ?_, lines, ?_⟩
  · simp only [Tail.pass, size, skipped.1, all]
  · have before : stop < (upTo (buffer file past) i).length := by
      rw [length_upTo]
      omega
    rw [← upTo_buffer past size, ← found, ← getElem_upTo before, ← List.drop_eq_getElem_cons, List.take_append_drop]
  · simp only [Tail.pass, size, skipped.2, stopped, List.length_drop, length]
    omega

/-- The loop keeps what it has inspected. -/
theorem inspected_search {numLines : Nat} {past : Nat → Byte} {pass : Nat} {index : Nat}
    (member : index ∈ tail.inspected) : index ∈ (search numLines past pass tail).inspected := by
  fun_induction search numLines past pass tail with
  | case1 pass tail more ih => exact ih (List.mem_append_left _ member)
  | case2 => exact member

theorem search_more {past : Nat → Byte} {pass : Nat} (more : tail.linesFound < numLines ∧ 0 < tail.currPos) :
    search numLines past pass tail = search numLines past (pass + 1) (tail.pass numLines (past pass)) := by
  rw [search, dif_pos more]

theorem search_done {past : Nat → Byte} {pass : Nat} (done : ¬(tail.linesFound < numLines ∧ 0 < tail.currPos)) :
    search numLines past pass tail = tail := by
  rw [search, dif_neg done]

/-- The first pass over a file that is not empty. -/
theorem search_start {past : Nat → Byte} {lines : Nat} (nonempty : file ≠ []) :
    search (lines + 1) past 0 (Tail.start file) =
      search (lines + 1) past 1 ((Tail.start file).pass (lines + 1) (past 0)) :=
  search_more ⟨Nat.succ_pos lines, Int.natCast_pos.mpr (List.length_pos_iff.mpr nonempty)⟩

theorem lastChunk_small (small : file.length < chunkSize) : lastChunk file = file := by
  rw [lastChunk, readSize, if_pos small, Nat.sub_self, List.drop_zero]

variable {lines : Nat} {around : Nat → Byte}

/-- The position for the number of bytes that are left. -/
def position (file : List Byte) : Option Nat → Int
  | none => 0
  | some left => file.length - left

/-- The outer loop finds its position from every pass on. By then it has counted the last chunk once for each pass. -/
theorem finds_search (quiet : Quiet file around) {pass : Nat}
    (reached : tail.currPos = file.length - (readSize file * pass : Nat)) (unset : tail.tailStartPos = 0)
    (found : tail.linesFound = pass * (lastChunk file).count newline) (below : tail.linesFound < lines + 1) :
    ∃ left, Finds file lines left ∧ (search (lines + 1) around pass tail).tailStartPos = position file left := by
  fun_induction search (lines + 1) around pass tail with
  | case1 pass tail more ih =>
      have other := buffer_readSize quiet pass
      by_cases few : tail.linesFound + (lastChunk file).count newline < lines + 1
      · obtain ⟨counted, kept⟩ := pass_few other (tail.readSize_pos more.2) few
        refine ih ?_ (kept.trans unset) ?_ (counted ▸ few)
        · change tail.currPos - readSize file = _
          rw [reached, Nat.mul_add_one]
          omega
        · rw [counted, found, Nat.add_one_mul]
      · obtain ⟨all, front, rest, split, count, start⟩ := pass_enough other more.1 (Nat.not_lt.mp few)
        rw [search_done fun again => absurd all (Nat.ne_of_lt again.1)]
        refine ⟨some (readSize file * pass + rest.length), ⟨pass, front, rest, by omega, split, by omega, rfl⟩, ?_⟩
        rw [start, reached, position]
        omega
  | case2 pass tail done =>
      refine ⟨none, fun earlier inside => ?_, unset⟩
      have before : earlier < pass := by
        by_contra late
        have beyond := Nat.mul_le_mul_left (readSize file) (Nat.not_lt.mp late)
        omega
      have counted := Nat.mul_le_mul_right ((lastChunk file).count newline) before
      change (earlier + 1) * _ ≤ _ at counted
      omega

/-- A position is given by the number of bytes behind it. -/
theorem print_position {left : Nat} (start : tail.tailStartPos = position file (some left)) :
    tail.print = if left ≤ file.length then file.drop (file.length - left) else [] := by
  rw [Tail.print, start, position]
  by_cases inside : left ≤ file.length
  · rw [if_neg (by omega), if_pos inside, copyOut_eq, ← Int.ofNat_sub inside]
    rfl
  · rw [if_pos (by omega), if_neg inside]

/-- The bytes that are left are a given end of the file exactly when their number is right. -/
theorem drop_eq_iff_length {text : List Byte} (nonempty : text ≠ []) (suffix : text <:+ file) (left : Nat) :
    (if left ≤ file.length then file.drop (file.length - left) else []) = text ↔ text.length = left := by
  have length := suffix.length_le
  by_cases inside : left ≤ file.length
  · rw [if_pos inside]
    constructor
    · rintro rfl
      rw [List.length_drop]
      omega
    · rintro rfl
      exact (List.suffix_iff_eq_drop.mp suffix).symm
  · rw [if_neg inside]
    exact iff_of_false (fun none => nonempty none.symm) (by omega)

/-- The program prints the right lines exactly when it leaves the right number of bytes. -/
theorem prints_iff_rightSize (positive : 1 ≤ lines) (defined : lines + 1 < 2 ^ 31) (quiet : Quiet file around) :
    ∃ left, Finds file lines left ∧ (Prints file lines around ↔ RightSize file lines left) := by
  have reached : (Tail.start file).currPos = file.length - (readSize file * 0 : Nat) := (Int.sub_zero _).symm
  obtain ⟨left, finds, start⟩ := @finds_search file (Tail.start file) lines around quiet 0 reached rfl
    (Nat.zero_mul _).symm (Nat.succ_pos lines)
  refine ⟨left, finds, ?_⟩
  rw [Prints, mytail, if_pos defined]
  refine Option.some_inj.trans ?_
  cases left with
  | none =>
      rw [Tail.print, start, position, if_neg (Int.lt_irrefl 0), copyOut_eq, eq_comm]
      exact Lines.lastLines_eq_self_iff newline lines file
  | some left =>
      obtain ⟨pass, -, -, inside, -⟩ := finds
      have nonempty : file ≠ [] := List.length_pos_iff.mp (Nat.zero_lt_of_lt inside)
      rw [print_position start]
      exact drop_eq_iff_length (Lines.lastLines_ne_nil newline positive nonempty) (Lines.lastLines_suffix ..) left

/-- The text after a newline and as many others as lines are wanted is right if it is complete. -/
theorem lastLines_length_iff (positive : 1 ≤ lines) {front rest : List Byte} (count : rest.count newline = lines) :
    (Lines.lastLines newline lines (front ++ newline :: rest)).length = rest.length ↔
      Lines.Complete newline (front ++ newline :: rest) := by
  have suffix : rest <:+ front ++ newline :: rest := (List.suffix_cons newline rest).trans (List.suffix_append ..)
  have nonempty : rest ≠ [] := by
    rintro rfl
    rw [List.count_nil] at count
    omega
  have lastLength := Lines.length_lines newline rest
  have same : (Lines.lastLines newline lines (front ++ newline :: rest)).length = rest.length ↔
      Lines.lastLines newline lines (front ++ newline :: rest) = rest := by
    refine ⟨fun length => ?_, congrArg List.length⟩
    exact (List.suffix_of_suffix_length_le (Lines.lastLines_suffix ..) suffix (Nat.le_of_eq length)).eq_of_length length
  rw [same, Lines.lastLines_append_iff, List.append_cons, Lines.complete_append_iff _ nonempty, lastLength, count]
  split <;> simp [*]

/-- A small file is printed right, and so is one with enough lines in its last chunk,
exactly when it ends with a newline or has no more lines than wanted. -/
theorem rightSize_iff (positive : 1 ≤ lines) {left : Option Nat} (finds : Finds file lines left)
    (seen : file.length < chunkSize ∨ lines < (lastChunk file).count newline) :
    RightSize file lines left ↔ Lines.Complete newline file ∨ (Lines.lines newline file).length ≤ lines := by
  have length := Lines.length_lines newline file
  cases left with
  | none =>
      refine ⟨Or.inr, fun right => right.elim (fun complete => ?_) id⟩
      have first (nonempty : 0 < file.length) := finds 0 (by rwa [Nat.mul_zero])
      have counted : file.count newline ≤ file.length := List.count_le_length
      rw [RightSize, length, if_pos complete]
      rcases seen with small | enough
      · rw [lastChunk_small small] at first
        omega
      · have inside := (lastChunk file).count_le_length (a := newline)
        have size := readSize_le file
        rw [length_lastChunk] at inside
        omega
  | some left =>
      obtain ⟨pass, front, rest, inside, split, count, rfl⟩ := finds
      have only : pass = 0 := by
        by_contra later
        rcases seen with small | enough
        · have size : readSize file = file.length := if_pos small
          have beyond := Nat.le_mul_of_pos_right (readSize file) (Nat.pos_of_ne_zero later)
          omega
        · have counted := Nat.le_mul_of_pos_left ((lastChunk file).count newline) (Nat.pos_of_ne_zero later)
          omega
      subst only
      have whole : file = (file.take (file.length - readSize file) ++ front) ++ newline :: rest := by
        rw [List.append_assoc, ← split, lastChunk, List.take_append_drop]
      rw [Nat.zero_mul, Nat.zero_add] at count
      rw [whole, List.count_append, List.count_cons_self] at length
      rw [RightSize, Nat.mul_zero, Nat.zero_add, whole, lastLines_length_iff positive count]
      exact ⟨Or.inl, fun right => right.elim id fun few => absurd few (by omega)⟩

/-- The program inspects only bytes that it has read when there is nothing to read. -/
theorem inside_iff (defined : lines + 1 < 2 ^ 31) : Inside file lines around ↔ file = [] := by
  rw [Inside, mytail, if_pos defined]
  constructor
  · intro inside
    by_contra nonempty
    have first : readSize file ∈ ((Tail.start file).pass (lines + 1) (around 0)).inspected :=
      List.mem_append_right _ (mem_inspected (readSize file))
    have inspected : readSize file ∈ (search (lines + 1) around 0 (Tail.start file)).inspected := by
      rw [search_start nonempty]
      exact inspected_search first
    exact Nat.lt_irrefl _ (inside _ rfl _ inspected)
  · rintro rfl result ⟨⟩ index member
    rw [search_done (fun more => absurd more.2 (by decide))] at member
    cases member

/-- The program prints the right lines from bytes that it has read for the empty file only,
since it always inspects the byte behind those that it has read. If this byte is no newline, the printed text is right
when its size is, which the passes over the last chunk decide. For a small file and for a file with enough lines in
its last chunk this means that it ends with a newline or has no more lines. -/
theorem mytail_exact_iff (file : List Byte) (lines : Nat) (positive : 1 ≤ lines) (around : Nat → Byte) :
    ((Prints file lines around ∧ Inside file lines around) ↔ file = [] ∧ lines + 1 < 2 ^ 31) ∧
      (lines + 1 < 2 ^ 31 → Quiet file around →
        (∃ left, Finds file lines left ∧ (Prints file lines around ↔ RightSize file lines left)) ∧
        (file.length < chunkSize ∨ lines < (lastChunk file).count newline →
          (Prints file lines around ↔
            Lines.Complete newline file ∨ (Lines.lines newline file).length ≤ lines))) := by
  have printed (defined : lines + 1 < 2 ^ 31) (quiet : Quiet file around)
      (seen : file.length < chunkSize ∨ lines < (lastChunk file).count newline) :
      Prints file lines around ↔ Lines.Complete newline file ∨ (Lines.lines newline file).length ≤ lines := by
    obtain ⟨left, finds, right⟩ := prints_iff_rightSize positive defined quiet
    exact right.trans (rightSize_iff positive finds seen)
  refine ⟨?_, fun defined quiet => ⟨prints_iff_rightSize positive defined quiet, printed defined quiet⟩⟩
  by_cases defined : lines + 1 < 2 ^ 31
  · rw [inside_iff defined, and_iff_left defined]
    refine and_iff_right_of_imp ?_
    rintro rfl
    exact (printed defined (Or.inl (by decide)) (Or.inl (by decide))).mpr (Or.inl nofun)
  · refine iff_of_false (fun right => ?_) fun right => defined right.2
    have undefined := right.1
    rw [Prints, mytail, if_neg defined] at undefined
    cases undefined

/-- The last line of a file of two lines with their newlines. -/
theorem mytail_last_of_two :
    Prints [0x61, 0x0A, 0x62, 0x0A] 1 (fun _ => 0) ∧ ¬Inside [0x61, 0x0A, 0x62, 0x0A] 1 (fun _ => 0) := by
  have both := mytail_exact_iff [0x61, 0x0A, 0x62, 0x0A] 1 (Nat.le_refl 1) (fun _ => 0)
  have printed := ((both.2 (by decide) (Or.inl (by decide))).2 (Or.inl (by decide))).mpr (Or.inl (by decide))
  exact ⟨printed, fun inside => absurd (both.1.mp ⟨printed, inside⟩).1 (by decide)⟩

/-- Without a newline at the end, the last line of two is printed together with the line before it.
The index three is one past the three bytes of the file. -/
theorem mytail_prints_too_much :
    mytail [0x61, 0x0A, 0x62] 1 (fun _ => 0) = some ⟨[0x61, 0x0A, 0x62], [3, 2, 1, 0]⟩ ∧
      Lines.lastLines newline 1 [0x61, 0x0A, 0x62] = [0x62] ∧ readSize [0x61, 0x0A, 0x62] = 3 := by
  have searched : search (1 + 1) (fun _ => 0) 0 (Tail.start [0x61, 0x0A, 0x62]) =
      (Tail.start [0x61, 0x0A, 0x62]).pass (1 + 1) 0 := by
    rw [search_start (by decide), search_done (by decide)]
  have printed : ((Tail.start [0x61, 0x0A, 0x62]).pass (1 + 1) 0).print = [0x61, 0x0A, 0x62] := by
    rw [Tail.print, if_neg (by decide), copyOut_eq]
    rfl
  refine ⟨?_, by decide, by decide⟩
  rw [mytail, if_pos (by decide), searched]
  simp only [printed]
  rfl

end Ostep.MyTail
