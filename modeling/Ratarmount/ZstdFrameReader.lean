import Ratarmount.SeekableBytes
import Ratarmount.ZstdFormat

/-!
# The seekable zstd reader

`ZstdFrameReader`: one decoded frame at a time, in memory or in a spool file,
with background decodes of the frames that follow. What other threads and the
memory budget do during a call is a `Schedule`.
-/

namespace Ratarmount.Zstd

open Seekable

structure ZstdReadOptions where
  threads : ℕ
  readaheadBytes : ℕ

/-- What the reader is opened over: a frame map, and what the decoder yields at each of its frames. -/
structure SeekableZstd where
  frames : List FrameInfo
  decoded : FrameInfo → List UInt8
  size : ℕ
  options : ZstdReadOptions
  budgetEnabled : Bool

namespace SeekableZstd

variable (z : SeekableZstd)

def content : List UInt8 := (z.frames.map z.decoded).flatten

def frameSize (index : ℕ) : ℕ :=
  ((z.frames[index + 1]?).map FrameInfo.uncompressedOffset).getD z.size -
    ((z.frames[index]?).map FrameInfo.uncompressedOffset).getD 0

/-- The map tells the offsets and the size of the decoded content. Nothing checks that when a map is loaded. -/
class Accurate : Prop where
  offsets : ∀ i (h : i < z.frames.length),
    z.frames[i].uncompressedOffset = ((z.frames.take i).map z.decoded).flatten.length
  size_eq : z.size = (z.frames.map z.decoded).flatten.length

end SeekableZstd

/-- What became of a background decode: its result was sent, with or without an I/O error, or nothing was. -/
inductive JobOutcome
  | sent (ioOk : Bool)
  | disconnected

structure Schedule where
  /-- whether the cancellation flag is up, at each of its loads -/
  cancelled : ℕ → Bool
  /-- whether a background decode of a frame is reserved and queued, at each `prefetch` -/
  granted : ℕ → ℕ → Bool
  job : JobOutcome
  frameMemory : Bool
  decodeIo : Bool
  spoolIo : Bool

structure Reader where
  pos : ℕ
  frameIdx : Option ℕ
  frameData : List UInt8
  frameSpool : Option (List UInt8)
  frameStart : ℕ
  progress : ℕ
  /-- the frames with a background decode under way -/
  pending : List ℕ

def openReader : Reader :=
  { pos := 0, frameIdx := none, frameData := [], frameSpool := none, frameStart := 0, progress := 0, pending := [] }

/-- `read_exact`, and no byte after it. -/
def decodeFrame (decoded : List UInt8) (expected : ℕ) (ioOk : Bool) : Option (List UInt8) :=
  if !ioOk || decoded.length < expected then none
  else if decoded.length ≠ expected then none
  else some (decoded.take expected)

def Reader.cancel (r : Reader) : Reader := { r with pending := [], progress := 0 }

/-- What is left of the frame at hand when another one is fetched. -/
def Reader.dropFrame (budgetEnabled : Bool) (r : Reader) : Reader :=
  { r with frameData := [], frameSpool := if budgetEnabled then none else r.frameSpool }

section Calls

variable (z : SeekableZstd)

/-- The `while` loop of `prefetch`, for at most `n` frames from `next` on. -/
def prefetchLoop (granted : ℕ → Bool) (budget : ℕ) : ℕ → ℕ → Reader → Reader
  | 0, _, r => r
  | n + 1, next, r =>
    if z.frames.length ≤ next ∨ min z.options.threads 16 ≤ r.pending.length then r
    else if z.frameSize next = 0 ∨ budget < z.frameSize next then r
    else if !granted next then r
    else prefetchLoop granted budget n (next + 1) { r with pending := r.pending ++ [next] }

def prefetch (cancelled : Bool) (granted : ℕ → Bool) (r : Reader) : Reader :=
  if cancelled then r.cancel
  else if z.options.threads ≤ 1 ∨ z.options.readaheadBytes = 0 ∨ r.progress < 128 * 1024 then r
  else
    match r.frameIdx with
    | none => r
    | some current =>
      let next := (r.pending.getLast?.map (· + 1)).getD (current + 1)
      prefetchLoop z granted (min z.options.readaheadBytes (64 * 1024 * 1024)) z.frames.length next r

/-- The last frame that starts at or before `target`. -/
def frameAt (target : ℕ) : ℕ := (z.frames.takeWhile (fun f => f.uncompressedOffset ≤ target)).length - 1

def decodedAt (index : ℕ) : List UInt8 := ((z.frames[index]?).map z.decoded).getD []

def startOf (index : ℕ) : ℕ := ((z.frames[index]?).map FrameInfo.uncompressedOffset).getD 0

/-- Take the background decode of `best`, if it is the next one. -/
def takePending (s : Schedule) (best : ℕ) (r : Reader) : Option (List UInt8) × Reader :=
  if r.pending.head? = some best then
    (match s.job with
      | .sent ioOk => decodeFrame (decodedAt z best) (z.frameSize best) ioOk
      | .disconnected => none,
     { r with pending := r.pending.tail })
  else (none,r)

def cached (r : Reader) (target : ℕ) : Bool :=
  let cachedLen := if r.frameSpool.isSome then (r.frameIdx.map z.frameSize).getD 0 else r.frameData.length
  r.frameIdx.isSome && r.frameStart ≤ target && target < r.frameStart + cachedLen

/-- `ensure_frame` past its cache: get the frame `best`, in the background or here, to memory or to a spool. -/
def fetchFrame (s : Schedule) (r : Reader) (best : ℕ) : Reader × Bool :=
  let taken := takePending z s best r
  let r := taken.2.dropFrame z.budgetEnabled
  if z.budgetEnabled && taken.1.isNone && !s.frameMemory then
    let spool := (decodedAt z best).take (z.frameSize best + 1)
    if !s.decodeIo || spool.length ≠ z.frameSize best then (r,false)
    else
      (prefetch z (s.cancelled 1) (s.granted 1)
        { r with frameSpool := some spool, frameIdx := some best, frameStart := startOf z best },true)
  else
    match taken.1.or (decodeFrame (decodedAt z best) (z.frameSize best) s.decodeIo) with
    | none => (r,false)
    | some data =>
      (prefetch z (s.cancelled 1) (s.granted 1)
        { r with frameData := data, frameIdx := some best, frameStart := startOf z best },true)

def ensureFrame (s : Schedule) (r : Reader) (target : ℕ) : Reader × Bool :=
  let r := if s.cancelled 0 then r.cancel else r
  if z.size ≤ target then (r,true)
  else if cached z r target then (r,true)
  else fetchFrame z s r (frameAt z target)

def read (s : Schedule) (r : Reader) (n : ℕ) : Reader × Reply :=
  if n = 0 ∨ z.size ≤ r.pos then (r,.bytes [])
  else
    match ensureFrame z s r r.pos with
    | (r,false) => (r,.error)
    | (r,true) =>
      let into := r.pos - r.frameStart
      let remaining := (r.frameIdx.map z.frameSize).getD 0 - into
      let k := min remaining n
      match r.frameSpool with
      | some spool =>
        if !s.spoolIo then (r,.error)
        else
          (prefetch z (s.cancelled 2) (s.granted 2) { r with pos := r.pos + k, progress := r.progress + k },
            .bytes ((spool.drop into).take k))
      | none =>
        (prefetch z (s.cancelled 2) (s.granted 2) { r with pos := r.pos + k, progress := r.progress + k },
          .bytes ((r.frameData.drop into).take k))

def seek (r : Reader) (dest : SeekFrom) : Reader × Reply :=
  match dest.target z.size r.pos with
  | none => (r,.error)
  | some new => ({ (if new ≠ r.pos then r.cancel else r) with pos := new },.moved new)

def step (r : Reader) (call : Call) (s : Schedule) : Reader × Reply :=
  match call with
  | .seek dest => seek z r dest
  | .read n => read z s r n

end Calls

end Ratarmount.Zstd
