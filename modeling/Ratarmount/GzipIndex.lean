import Mathlib.Data.List.Sort
import Ratarmount.GzipFormat

/-!
# The gzip seek index

The walk that builds an index by spacing, and the same walk that restores the inflate
states of imported points.
-/

namespace Ratarmount.Gzip

open Streaming

variable {S R : Type} {file : Bytes}

structure Checkpoint (S : Type) where
  compressedOffset : ℕ
  uncompressedOffset : ℕ
  restore : S
  deriving DecidableEq

def Checkpoint.offsets (p : Checkpoint S) : ℕ × ℕ := (p.compressedOffset,p.uncompressedOffset)

structure GzipSeekIndex (S : Type) where
  checkpoints : List (Checkpoint S)
  uncompressedSize : ℕ
  spacing : ℕ
  compressedSize : ℕ
  deriving DecidableEq

def inputChunk : ℕ := 64 * 1024

def outputChunk : ℕ := 256 * 1024

/-- What the two walks do differently: at a member's start, in the cap on the output of a call,
and after a call. -/
structure Recorder (S R : Type) where
  start : ℕ → ℕ → S → R → Except GzipError R
  target : R → Option ℕ
  due : ℕ → ℕ → S → R → Except GzipError R

/-- The cap makes the output land on the next recorded offset. -/
def Recorder.outCap (rec : Recorder S R) (total : ℕ) (r : R) : ℕ :=
  match rec.target r with
  | some next => if next > total then max (min (next - total) outputChunk) 1 else outputChunk
  | none => outputChunk

/-- The inner loop: one member's deflate stream and its trailer. -/
def walkMember (d : Decoder S) (io : Backend file) (rec : Recorder S R) :
    ℕ → S → ℕ → ℕ → R → Handle → Except GzipError (ℕ × ℕ × R × Handle)
  | 0, _, _, _, _, _ => .error .diverged
  | turns + 1, state, compressedAt, total, r, h =>
    let (input,h) := io.readAt compressedAt inputChunk h
    match d.call state input (rec.outCap total r) with
    | none => .error .inflate
    | some res => do
      let r ← rec.due (compressedAt + res.consumed) (total + res.written.length) res.state r
      if res.ended then .ok (compressedAt + res.consumed + 8,total + res.written.length,r,h)
      else if input = [] ∧ res.consumed = 0 then .error .endedUnexpectedly
      else walkMember d io rec turns res.state (compressedAt + res.consumed) (total + res.written.length) r h

def walk (d : Decoder S) (io : Backend file) (rec : Recorder S R) :
    ℕ → ℕ → ℕ → R → Handle → Except GzipError (ℕ × R)
  | 0, _, _, _, _ => .error .diverged
  | turns + 1, compressedAt, total, r, h =>
    if compressedAt < file.length then do
      match ← parseGzipHeader io compressedAt h with
      | (none,_) => .ok (total,r)
      | (some headerEnd,h) =>
        let r ← rec.start headerEnd total d.init r
        let (compressedAt,total,r,h) ← walkMember d io rec turns d.init headerEnd total r h
        walk d io rec turns compressedAt total r h
    else .ok (total,r)

/-- The state of `build_index`: the checkpoints so far and where the next one is due. -/
structure Building (S : Type) where
  checkpoints : List (Checkpoint S)
  nextCpAt : ℕ

/-- The loop that records every checkpoint that is due; with spacing 0 it would not end. -/
def recordDue (spacing : ℕ) (p : Checkpoint S) : ℕ → Building S → Except GzipError (Building S)
  | 0, _ => .error .diverged
  | turns + 1, b =>
    if p.uncompressedOffset ≥ b.nextCpAt then
      recordDue spacing p turns ⟨b.checkpoints ++ [p],b.nextCpAt + spacing⟩
    else .ok b

def spacingRecorder (spacing : ℕ) : Recorder S (Building S) where
  start c total s b := .ok ⟨b.checkpoints ++ [⟨c,total,s⟩],total + spacing⟩
  target b := some b.nextCpAt
  due c total s b := recordDue spacing ⟨c,total,s⟩ (total + 2) b

/-- A file without members gets one checkpoint, at its start. -/
def orDummy (d : Decoder S) (ps : List (Checkpoint S)) : List (Checkpoint S) :=
  if ps = [] then [⟨0,0,d.init⟩] else ps

def buildIndex (d : Decoder S) (io : Backend file) (spacing turns : ℕ) (h : Handle) :
    Except GzipError (GzipSeekIndex S) := do
  let (total,b) ← walk d io (spacingRecorder spacing) turns 0 0 ⟨[],0⟩ h
  .ok ⟨orDummy d b.checkpoints,total,spacing,file.length⟩

/-- The state of an import: the checkpoints so far and the targets that are still to be reached. -/
structure Importing (S : Type) where
  checkpoints : List (Checkpoint S)
  targets : List (ℕ × ℕ)

/-- Takes every target that the uncompressed cursor has reached. -/
def takeIfDue (strict : Bool) (p : Checkpoint S) (ps : List (Checkpoint S)) :
    List (ℕ × ℕ) → Except GzipError (Importing S)
  | [] => .ok ⟨ps,[]⟩
  | (wantC,wantU) :: targets =>
    if p.uncompressedOffset ≥ wantU then
      if p.uncompressedOffset ≠ wantU then .error (.cannotLand wantU p.uncompressedOffset)
      else if strict = true ∧ p.compressedOffset ≠ wantC then
        .error (.offsetMismatch wantU wantC p.compressedOffset)
      else takeIfDue strict p (ps ++ [p]) targets
    else .ok ⟨ps,(wantC,wantU) :: targets⟩

def importRecorder (strict : Bool) : Recorder S (Importing S) where
  start c total s i := takeIfDue strict ⟨c,total,s⟩ i.checkpoints i.targets
  target i := i.targets.head?.map Prod.snd
  due c total s i := takeIfDue strict ⟨c,total,s⟩ i.checkpoints i.targets

/-- The first point is at uncompressed offset 0 and no offset goes back. -/
def gzipSeekPointsUsable (points : List (ℕ × ℕ)) : Bool :=
  (points.head?.map Prod.snd == some 0) &&
    (points.zip points.tail).all fun w => decide (w.1.1 ≤ w.2.1) && decide (w.1.2 ≤ w.2.2)

def pointLe (a b : ℕ × ℕ) : Bool := decide (a.2 < b.2) || (decide (a.2 = b.2) && decide (a.1 ≤ b.1))

def importSeekPointsWithMode (d : Decoder S) (io : Backend file) (points : List (ℕ × ℕ)) (spacing expected : ℕ)
    (strict : Bool) (turns : ℕ) (h : Handle) : Except GzipError (GzipSeekIndex S) := do
  let spacing := max spacing (64 * 1024)
  if points = [] then
    let index ← buildIndex d io spacing turns h
    if expected ≠ 0 ∧ index.uncompressedSize ≠ expected then .error (.sizeMismatch expected index.uncompressedSize)
    else .ok index
  else if !gzipSeekPointsUsable points then .error .unusablePoints
  else
    let targets := points.mergeSort pointLe
    let (total,i) ← walk d io (importRecorder strict) turns 0 0 ⟨[],targets⟩ h
    if i.targets ≠ [] then .error (.missedPoints i.targets.length targets.length total)
    else if expected ≠ 0 ∧ total ≠ expected then .error (.sizeMismatch expected total)
    else .ok ⟨orDummy d i.checkpoints,total,spacing,file.length⟩

def importSeekPoints (d : Decoder S) (io : Backend file) (points : List (ℕ × ℕ)) (spacing expected turns : ℕ)
    (h : Handle) : Except GzipError (GzipSeekIndex S) :=
  importSeekPointsWithMode d io points spacing expected true turns h

end Ratarmount.Gzip
