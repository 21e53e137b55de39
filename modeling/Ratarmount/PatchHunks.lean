import Mathlib.Data.FinEnum
import Mathlib.Data.Nat.Digits.Defs
import Ratarmount.ExceptRuns
import Ratarmount.LineDiff

/-!
# Hunks of a text patch

How `overlay diff` writes an edit script as hunks, and how `overlay import` reads
hunks and applies them to the lines of a file.
-/

namespace Ratarmount.Patch

def Tag.byte : Tag → UInt8
  | .context => 0x20
  | .removed => 0x2d
  | .added => 0x2b

def decimal (n : ℕ) : Bytes :=
  if n = 0 then [0x30] else (Nat.digits 10 n).reverse.map fun digit => UInt8.ofNat (0x30 + digit)

/-- `\ No newline at end of file`. -/
def noNewline : Bytes :=
  [0x5c,0x20,0x4e,0x6f,0x20,0x6e,0x65,0x77,0x6c,0x69,0x6e,0x65,0x20,0x61,0x74,0x20,0x65,0x6e,0x64,0x20,
    0x6f,0x66,0x20,0x66,0x69,0x6c,0x65]

section Write

def range (before count : ℕ) : Bytes :=
  let start := before + (if count ≠ 0 then 1 else 0)
  if count = 1 then decimal start else decimal start ++ 0x2c :: decimal count

def countOld (lines : List Line) : ℕ := (lines.filter (·.tag ≠ .added)).length

def countNew (lines : List Line) : ℕ := (lines.filter (·.tag ≠ .removed)).length

def changed (lines : List Line) : List ℕ :=
  (List.range lines.length).filter fun i => lines[i]?.map Line.tag ≠ some .context

/-- One changed line more, in the last group or in a new one. The last group stands first. -/
def group (context len : ℕ) (groups : List (ℕ × ℕ)) (i : ℕ) : List (ℕ × ℕ) :=
  let start := i - context
  let stop := min (i + context + 1) len
  match groups with
  | [] => [(start,stop)]
  | last :: earlier => if start ≤ last.2 then (last.1,stop) :: earlier else (start,stop) :: last :: earlier

def groups (lines : List Line) (context : ℕ) : List (ℕ × ℕ) :=
  ((changed lines).foldl (group context lines.length) []).reverse

def header (oldBefore oldCount newBefore newCount : ℕ) : Bytes :=
  [0x40,0x40,0x20,0x2d] ++ range oldBefore oldCount ++ [0x20,0x2b] ++ range newBefore newCount ++ [0x20,0x40,0x40]

def writeLine (line : Line) : Bytes :=
  line.tag.byte :: line.text ++ (if line.text.getLast? = some 0x0a then [] else 0x0a :: noNewline ++ [0x0a])

def writeGroups (lines : List Line) : List (ℕ × ℕ) → ℕ → ℕ → ℕ → Option Bytes
  | [], _, _, _ => some []
  | (start,stop) :: rest, oldBefore, newBefore, previous => do
    let skipped ← checkedSlice lines previous start
    let oldBefore := oldBefore + countOld skipped
    let newBefore := newBefore + countNew skipped
    let body ← checkedSlice lines start stop
    let out ← writeGroups lines rest (oldBefore + countOld body) (newBefore + countNew body) stop
    some (header oldBefore (countOld body) newBefore (countNew body) ++ [0x0a] ++ body.flatMap writeLine ++ out)

def hunks (lines : List Line) (context : ℕ) : Option Bytes := writeGroups lines (groups lines context) 0 0 0

end Write

inductive PatchError
  | panicked
  | invalidCount
  | invalidRange
  | invalidHeader
  | truncatedHunk
  | emptyHunkLine
  | invalidHunkLine
  | lineMismatch
  | postimageTooLong
  deriving DecidableEq

section Read

structure Hunk where
  oldStart : ℕ
  oldCount : ℕ
  newCount : ℕ
  lines : List Line
  raw : Bytes
  deriving DecidableEq

def trimLf (line : Bytes) : Bytes := if line.getLast? = some 0x0a then line.dropLast else line

/-- The pieces between the separators. There is always a first one. -/
def splitByte (sep : UInt8) : Bytes → List Bytes
  | [] => [[]]
  | byte :: rest =>
    if byte = sep then [] :: splitByte sep rest
    else
      match splitByte sep rest with
      | [] => [[byte]]
      | piece :: pieces => (byte :: piece) :: pieces

def number (input : Bytes) : Except PatchError ℕ :=
  if input = [] ∨ ¬ (∀ byte ∈ input, 0x30 ≤ byte ∧ byte ≤ 0x39) then .error .invalidCount
  else
    let value := input.foldl (fun value byte => value * 10 + (byte.toNat - 0x30)) 0
    if value < 2 ^ 64 then .ok value else .error .invalidCount

def parseRange (input : Bytes) (sign : UInt8) : Except PatchError (ℕ × ℕ) :=
  match input with
  | [] => .error .invalidRange
  | first :: input =>
    if first ≠ sign then .error .invalidRange
    else do
      let parts := splitByte 0x2c input
      let start ← number (parts.headD [])
      let count ← match parts[1]? with
        | some part => number part
        | none => .ok 1
      if parts[2]?.isSome ∨ (count > 0 ∧ start = 0) ∨ start + count ≥ 2 ^ 64 then .error .invalidRange
      else .ok (start,count)

/-- The tag of a hunk's line and what it adds to the counts of old and new lines. -/
def readTag (line : Bytes) : Except PatchError (Tag × ℕ × ℕ) :=
  match line.head? with
  | none => .error .emptyHunkLine
  | some byte =>
    if byte = 0x20 then .ok (.context,1,1)
    else if byte = 0x2d then .ok (.removed,1,0)
    else if byte = 0x2b then .ok (.added,0,1)
    else .error .invalidHunkLine

/-- The loop over the lines of a hunk, up to the counts of its header. -/
def readBody (oldCount newCount : ℕ) :
    List Bytes → ℕ → ℕ → List Line → Bytes → Except PatchError (List Line × Bytes × List Bytes)
  | [], old, new, lines, raw =>
    if old < oldCount ∨ new < newCount then .error .truncatedHunk else .ok (lines,raw,[])
  | line :: rest, old, new, lines, raw =>
    if old < oldCount ∨ new < newCount then do
      let (tag,oldStep,newStep) ← readTag line
      if old + oldStep > oldCount ∨ new + newStep > newCount ∨ line.getLast? ≠ some 0x0a then .error .lineMismatch
      else
        match rest with
        | [] => readBody oldCount newCount [] (old + oldStep) (new + newStep) (lines ++ [⟨tag,line.tail⟩]) (raw ++ line)
        | next :: behind =>
          if trimLf next = noNewline then
            readBody oldCount newCount behind (old + oldStep) (new + newStep) (lines ++ [⟨tag,line.tail.dropLast⟩])
              (raw ++ line ++ next)
          else
            readBody oldCount newCount (next :: behind) (old + oldStep) (new + newStep) (lines ++ [⟨tag,line.tail⟩])
              (raw ++ line)
    else .ok (lines,raw,line :: rest)

def hunk : List Bytes → Except PatchError (Hunk × List Bytes)
  | [] => .error .panicked
  | line :: rest => do
    let fields := splitByte 0x20 (trimLf line)
    if fields[0]? ≠ some [0x40,0x40] then .error .invalidHeader
    else
      let (oldStart,oldCount) ← parseRange (fields[1]?.getD []) 0x2d
      let (_,newCount) ← parseRange (fields[2]?.getD []) 0x2b
      if fields[3]? ≠ some [0x40,0x40] then .error .invalidHeader
      else
        let (lines,raw,rest) ← readBody oldCount newCount rest 0 0 [] line
        .ok (⟨oldStart,oldCount,newCount,lines,raw⟩,rest)

/-- The turns of `parse` at lines that begin a hunk. -/
def parseHunks : ℕ → List Bytes → Except PatchError (List Hunk × List Bytes)
  | 0, rest => .ok ([],rest)
  | turns + 1, rest =>
    match rest with
    | [] => .ok ([],[])
    | line :: behind =>
      if [0x40,0x40,0x20] <+: line then do
        let (first,rest) ← hunk (line :: behind)
        let (others,rest) ← parseHunks turns rest
        .ok (first :: others,rest)
      else .ok ([],line :: behind)

def readHunks (text : Bytes) : Except PatchError (List Hunk × List Bytes) :=
  parseHunks (splitInclusive text).length (splitInclusive text)

end Read

section Apply

structure Applier where
  lines : List Bytes
  failed : List ℕ
  floor : ℕ
  offset : ℤ
  length : ℕ

/-- The places a hunk is looked for: where it is expected, then by distance. -/
def candidates (expected len : ℕ) : List ℕ :=
  expected :: (List.range len).flatMap fun distance =>
    (expected + (distance + 1)) :: (if distance + 1 ≤ expected then [expected - (distance + 1)] else [])

def findPlace (s : Applier) (stated : ℕ) (before : List Bytes) : Option ℕ :=
  let expected := (max 0 (min ((stated : ℤ) + s.offset) s.lines.length)).toNat
  ((candidates expected s.lines.length).filter fun place => place ≥ s.floor ∧ place ≤ s.lines.length).find? fun place =>
    if before = [] ∧ (place : ℤ) ≠ stated + s.offset then false
    else checkedSlice s.lines place (place + before.length) = some before

def applyHunk (limit : ℕ) (s : Applier) (index : ℕ) (h : Hunk) : Except PatchError Applier :=
  let before := (h.lines.filter (·.tag ≠ .added)).map Line.text
  let after := (h.lines.filter (·.tag ≠ .removed)).map Line.text
  let stated := h.oldStart - (if h.oldCount ≠ 0 then 1 else 0)
  match findPlace s stated before with
  | none => .ok { s with failed := s.failed ++ [index] }
  | some place =>
    let removed := (before.map List.length).sum
    let added := (after.map List.length).sum
    let length := min (s.length - removed + added) (2 ^ 64 - 1)
    if length > limit then .error .postimageTooLong
    else if place + before.length > s.lines.length then .error .panicked
    else .ok {
      lines := s.lines.take place ++ after ++ s.lines.drop (place + before.length)
      failed := s.failed
      floor := place + h.newCount
      offset := place - stated + h.newCount - h.oldCount
      length := length }

def applyFrom (limit : ℕ) : ℕ → List Hunk → Applier → Except PatchError Applier
  | _, [], s => .ok s
  | index, h :: hs, s => do
    let s ← applyHunk limit s index h
    applyFrom limit (index + 1) hs s

def applyHunks (input : Bytes) (hs : List Hunk) (limit : ℕ) : Except PatchError (Bytes × List ℕ) := do
  let s ← applyFrom limit 0 hs ⟨splitInclusive input,[],0,0,input.length⟩
  .ok (s.lines.flatten,s.failed)

end Apply

end Ratarmount.Patch
