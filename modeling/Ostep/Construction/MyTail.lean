/-
This file models the program that prints the last lines of a file.
The positions are exact, as those of the program are for files below 2^31 bytes.
-/

import Mathlib.Algebra.Group.Nat.Defs
import Ostep.Library.Lines

namespace Ostep.MyTail

open Library

abbrev Byte := BitVec 8

def newline : Byte := 0x0A

def chunkSize : Nat := 4096

/-- The number of bytes that each pass asks for. -/
def readSize (file : List Byte) : Nat := if file.length < chunkSize then file.length else chunkSize

/-- Each pass seeks from the end of the file and reads its last bytes. -/
def lastChunk (file : List Byte) : List Byte := file.drop (file.length - readSize file)

/-- The buffer starts with zeros. The byte behind it is the argument `past`. -/
def buffer (file : List Byte) (past : Byte) (index : Nat) : Byte :=
  if index < readSize file then (lastChunk file).getD index 0
  else if index < chunkSize then 0 else past

/-- The scan counts the lines, finds the index that it stops at and inspects the buffer. -/
structure Scan where
  linesFound : Nat
  stop : Option Nat
  inspected : List Nat
  deriving Repr, DecidableEq

def countLine (byte : Byte) (linesFound : Nat) : Nat := if byte = newline then linesFound + 1 else linesFound

/-- The inner loop goes from the given index down to zero. -/
def scan (buffer : Nat → Byte) (numLines : Nat) : Nat → Nat → Scan
  | 0, linesFound =>
      let linesFound := countLine (buffer 0) linesFound
      ⟨linesFound, if linesFound = numLines then some 0 else none, [0]⟩
  | i + 1, linesFound =>
      let linesFound := countLine (buffer (i + 1)) linesFound
      if linesFound = numLines then ⟨linesFound, some (i + 1), [i + 1]⟩
      else
        let rest := scan buffer numLines i linesFound
        { rest with inspected := (i + 1) :: rest.inspected }

/-- The position never lies behind the end of the file. -/
structure Tail (file : List Byte) where
  currPos : Int
  tailStartPos : Int
  linesFound : Nat
  inspected : List Nat
  bounded : currPos ≤ file.length

def Tail.start (file : List Byte) : Tail file := ⟨file.length, 0, 0, [], Int.le_refl _⟩

variable {file : List Byte}

/-- One pass of the outer loop scans from one past the bytes that it has read. -/
def Tail.pass (numLines : Nat) (past : Byte) (tail : Tail file) : Tail file :=
  let currPos := tail.currPos - readSize file
  let scanned := scan (buffer file past) numLines (readSize file) tail.linesFound
  { currPos
    tailStartPos := match scanned.stop with
      | some i => currPos + i + 1
      | none => tail.tailStartPos
    linesFound := scanned.linesFound
    inspected := tail.inspected ++ scanned.inspected
    bounded := by
      have bounded := tail.bounded
      omega }

theorem Tail.readSize_pos (tail : Tail file) (more : 0 < tail.currPos) : 0 < readSize file := by
  have bounded := tail.bounded
  rw [readSize, chunkSize]
  split <;> omega

theorem Tail.pass_lt (numLines : Nat) (past : Byte) (tail : Tail file) (more : 0 < tail.currPos) :
    (tail.pass numLines past).currPos.toNat < tail.currPos.toNat := by
  have some := tail.readSize_pos more
  change (tail.currPos - readSize file).toNat < _
  omega

/-- The outer loop. The bytes behind the buffer are given for each pass. -/
def search (numLines : Nat) (past : Nat → Byte) (pass : Nat) (tail : Tail file) : Tail file :=
  if more : tail.linesFound < numLines ∧ 0 < tail.currPos then
    search numLines past (pass + 1) (tail.pass numLines (past pass))
  else tail
termination_by tail.currPos.toNat
decreasing_by exact tail.pass_lt numLines (past pass) more.2

/-- The last loop copies the rest of the file in chunks. -/
def copyOut (rest : List Byte) : List Byte :=
  if rest.length = 0 then [] else rest.take chunkSize ++ copyOut (rest.drop chunkSize)
termination_by rest.length
decreasing_by
  rw [List.length_drop, chunkSize]
  omega

structure Result where
  output : List Byte
  inspected : List Nat
  deriving Repr, DecidableEq

/-- A seek to a negative position fails and leaves the position at the end of the file. -/
def Tail.print (tail : Tail file) : List Byte :=
  if tail.tailStartPos < 0 then [] else copyOut (file.drop tail.tailStartPos.toNat)

/-- The program for the given number of lines. The sum in `num_lines` is undefined outside the range of its type. -/
def mytail (file : List Byte) (lines : Nat) (past : Nat → Byte) : Option Result :=
  if lines + 1 < 2 ^ 31 then
    let tail := search (lines + 1) past 0 (Tail.start file)
    some ⟨tail.print, tail.inspected⟩
  else none

/-- The byte behind those read is no newline in any pass. Behind less than a chunk it is a zero of the buffer. -/
def Quiet (file : List Byte) (past : Nat → Byte) : Prop := file.length < chunkSize ∨ ∀ pass, past pass ≠ newline

/-- Every pass counts the newlines of the last chunk again. The first pass that completes the number of lines
leaves the bytes behind its newline and those of the passes before it, unless no pass completes the number. -/
def Finds (file : List Byte) (lines : Nat) : Option Nat → Prop
  | none => ∀ pass, readSize file * pass < file.length → (pass + 1) * (lastChunk file).count newline ≤ lines
  | some left => ∃ pass front rest, readSize file * pass < file.length ∧ lastChunk file = front ++ newline :: rest ∧
      pass * (lastChunk file).count newline + rest.count newline = lines ∧ left = readSize file * pass + rest.length

/-- Whether the bytes that are left are the last lines. -/
def RightSize (file : List Byte) (lines : Nat) : Option Nat → Prop
  | none => (Lines.lines newline file).length ≤ lines
  | some left => (Lines.lastLines newline lines file).length = left

/-- The program prints the last lines. -/
def Prints (file : List Byte) (lines : Nat) (past : Nat → Byte) : Prop :=
  (mytail file lines past).map Result.output = some (Lines.lastLines newline lines file)

/-- Every index that the program inspects lies among the bytes just read. -/
def Inside (file : List Byte) (lines : Nat) (past : Nat → Byte) : Prop :=
  ∀ result ∈ mytail file lines past, ∀ index ∈ result.inspected, index < readSize file

end Ostep.MyTail
