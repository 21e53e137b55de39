import Ratarmount.GzipIndex

/-!
# The seekable gzip reader

The reader over a seek index: its working buffer, the live inflate state, the cache
of decoded windows, and the flags that say which of them may be used.
-/

namespace Ratarmount.Gzip

open Streaming Seekable

variable {S : Type} {file : Bytes}

def g3SeekCacheChunks : ℕ := 256

def g3SeekCacheBytes : ℕ := 16 * 1024 * 1024

def g3CacheChunk : ℕ := 64 * 1024

structure CachedWindow where
  start : ℕ
  data : Bytes

/-- Recently decoded windows, the oldest first, and their bytes in total. -/
structure DecodedWindowCache where
  entries : List CachedWindow
  totalBytes : ℕ

namespace DecodedWindowCache

def evict : List CachedWindow → ℕ → DecodedWindowCache
  | [], total => ⟨[],total⟩
  | e :: es, total =>
    if (e :: es).length > g3SeekCacheChunks ∨ total > g3SeekCacheBytes then evict es (total - e.data.length)
    else ⟨e :: es,total⟩

def drop (cache : DecodedWindowCache) (start : ℕ) : DecodedWindowCache :=
  match cache.entries.find? fun e => e.start = start with
  | some old => ⟨cache.entries.eraseP fun e => e.start = start,cache.totalBytes - old.data.length⟩
  | none => cache

def insert (cache : DecodedWindowCache) (start : ℕ) (data : Bytes) : DecodedWindowCache :=
  if data = [] then cache
  else
    let kept := cache.drop start
    evict (kept.entries ++ [⟨start,data⟩]) (kept.totalBytes + data.length)

def lookup (cache : DecodedWindowCache) (target : ℕ) : Option CachedWindow :=
  cache.entries.reverse.find? fun e => e.start ≤ target ∧ target < e.start + e.data.length

def insertChunks : ℕ → ℕ → Bytes → DecodedWindowCache → DecodedWindowCache
  | 0, _, _, cache => cache
  | chunks + 1, off, data, cache =>
    if data = [] then cache
    else insertChunks chunks (off + (data.take g3CacheChunk).length) (data.drop g3CacheChunk)
      (cache.insert off (data.take g3CacheChunk))

end DecodedWindowCache

structure SeekableGzipReader (S : Type) where
  handle : Handle
  pos : ℕ
  buf : Bytes
  bufStart : ℕ
  nextOut : ℕ
  compressedAt : ℕ
  state : S
  eof : Bool
  primed : Bool
  inflateValid : Bool
  windowCache : DecodedWindowCache

/-- `SeekableGzipReader::open`, with a file of its own or a logical position in the shared stream. -/
def SeekableGzipReader.fresh (d : Decoder S) (handle : Handle) : SeekableGzipReader S where
  handle := handle
  pos := 0
  buf := []
  bufStart := 0
  nextOut := 0
  compressedAt := 0
  state := d.init
  eof := false
  primed := false
  inflateValid := false
  windowCache := ⟨[],0⟩

abbrev ReaderM (S : Type) := EStateM GzipError (SeekableGzipReader S)

def SeekableGzipReader.bufEnd (r : SeekableGzipReader S) : ℕ := r.bufStart + r.buf.length

/-- Feeds the decoder until it writes something, over the end of a member if need be. Nothing is written at the end
of all members. -/
def inflateMore (d : Decoder S) (io : Backend file) : ℕ → ℕ → ReaderM S Bytes
  | 0, _ => throw .diverged
  | turns + 1, room => do
    if room = 0 then return []
    let r ← get
    let (input,h) := io.readAt r.compressedAt inputChunk r.handle
    set { r with handle := h }
    match d.call r.state input room with
    | none => throw .inflate
    | some res =>
      set { r with handle := h, state := res.state, compressedAt := r.compressedAt + res.consumed }
      if res.written ≠ [] then return res.written
      else if res.ended then
        match parseGzipHeader io (r.compressedAt + res.consumed + 8) h with
        | .error e => throw e
        | .ok (none,h) =>
          modify fun r => { r with handle := h }
          return []
        | .ok (some next,h) =>
          modify fun r => { r with handle := h, compressedAt := next, state := d.init }
          inflateMore d io turns room
      else if input = [] ∧ res.consumed = 0 then return []
      else inflateMore d io turns room

def rememberChunk (start : ℕ) (data : Bytes) : ReaderM S Unit :=
  modify fun r => { r with windowCache := r.windowCache.insert start data }

def stashBufToCache : ReaderM S Unit :=
  modify fun r =>
    { r with windowCache := DecodedWindowCache.insertChunks r.buf.length r.bufStart r.buf r.windowCache }

/-- The loop of `discard_until`. It returns whether the tail of a call has become the buffer. -/
def discardLoop (d : Decoder S) (io : Backend file) (limit target : ℕ) : ℕ → ReaderM S Bool
  | 0 => throw .diverged
  | turns + 1 => do
    let r ← get
    if r.nextOut < target ∧ r.eof = false then
      let out ← inflateMore d io limit (min (target - r.nextOut) outputChunk)
      if out = [] then
        modify fun r => { r with eof := true }
        return false
      else
        let keepFrom := if r.nextOut + out.length > target then target - r.nextOut else out.length
        if keepFrom > 0 then rememberChunk r.nextOut (out.take keepFrom)
        modify fun r => { r with nextOut := r.nextOut + out.length }
        if keepFrom < out.length then
          modify fun r => { r with buf := out.drop keepFrom, bufStart := target }
          rememberChunk target (out.drop keepFrom)
          return true
        else discardLoop d io limit target turns
    else return false

/-- Landed on the target with an empty buffer: one more call fills it. -/
def prefetch (d : Decoder S) (io : Backend file) (limit target : ℕ) : ReaderM S Unit := do
  modify fun r => { r with buf := [], bufStart := target }
  let r ← get
  if r.eof = false ∧ r.nextOut = target then
    let out ← inflateMore d io limit (64 * 1024)
    if out = [] then modify fun r => { r with eof := true }
    else
      modify fun r => { r with buf := out, nextOut := r.nextOut + out.length }
      rememberChunk target out

def discardUntil (d : Decoder S) (io : Backend file) (limit target : ℕ) : ReaderM S Unit := do
  let kept ← discardLoop d io limit target limit
  if kept then return () else prefetch d io limit target

/-- The last of the leading checkpoints that are not behind the target. -/
def bestCheckpoint (cps : List (Checkpoint S)) (target : ℕ) : Option (Checkpoint S) :=
  cps[(cps.takeWhile fun cp => cp.uncompressedOffset ≤ target).length - 1]?

def restoreAt (d : Decoder S) (io : Backend file) (index : GzipSeekIndex S) (limit target : ℕ) : ReaderM S Unit := do
  stashBufToCache
  match bestCheckpoint index.checkpoints target with
  | none => throw .diverged
  | some cp =>
    modify fun r => { r with
      state := cp.restore, compressedAt := cp.compressedOffset, nextOut := cp.uncompressedOffset, buf := []
      bufStart := cp.uncompressedOffset, eof := false, primed := true, inflateValid := true }
    discardUntil d io limit target

/-- Serves a cached window. The inflate cursor is not where the window ends. -/
def serveWindow (w : CachedWindow) : ReaderM S Unit := do
  stashBufToCache
  modify fun r => { r with
    buf := w.data, bufStart := w.start, nextOut := w.start + w.data.length
    eof := false, primed := true, inflateValid := false }

def primeAtInner (d : Decoder S) (io : Backend file) (index : GzipSeekIndex S) (limit target : ℕ) (force : Bool) :
    ReaderM S Unit := do
  let r ← get
  if target ≥ index.uncompressedSize then
    set { r with
      eof := true, primed := true, inflateValid := false, buf := [], bufStart := target
      nextOut := index.uncompressedSize }
  else if force then restoreAt d io index limit target
  else if r.primed ∧ r.bufStart ≤ target ∧ target < r.bufEnd then return ()
  else if r.primed ∧ r.inflateValid ∧ r.nextOut ≤ target ∧ r.eof = false ∧
      target - r.nextOut < min (index.spacing * 2) (2 ^ 64 - 1) then discardUntil d io limit target
  else
    match r.windowCache.lookup target with
    | some w => serveWindow w
    | none => restoreAt d io index limit target

def appendChunk (d : Decoder S) (io : Backend file) (limit : ℕ) : ReaderM S Unit := do
  let out ← inflateMore d io limit (64 * 1024)
  if out = [] then modify fun r => { r with eof := true }
  else
    let r ← get
    if r.bufEnd = r.nextOut then modify fun r => { r with buf := r.buf ++ out }
    else
      stashBufToCache
      modify fun r => { r with buf := out, bufStart := r.nextOut }
    modify fun r => { r with nextOut := r.nextOut + out.length }
    rememberChunk r.nextOut out

def fillBuf (d : Decoder S) (io : Backend file) (index : GzipSeekIndex S) (limit : ℕ) : ReaderM S Unit := do
  let r ← get
  if r.eof then return ()
  else if r.inflateValid = false then
    primeAtInner d io index limit (max r.pos r.bufEnd) true
    let r ← get
    if r.bufEnd > r.pos then return ()
    else if r.eof ∨ r.inflateValid = false then return ()
    else appendChunk d io limit
  else appendChunk d io limit

/-- The second part of `read`: what the buffer has at the position. -/
def copyOut (n : ℕ) : ReaderM S Bytes := do
  let r ← get
  if r.pos ≥ r.bufEnd then return []
  else
    let out := r.buf.slice (r.pos - r.bufStart) n
    set { r with pos := r.pos + out.length }
    return out

def read (d : Decoder S) (io : Backend file) (index : GzipSeekIndex S) (limit n : ℕ) : ReaderM S Bytes := do
  let r ← get
  if n = 0 ∨ r.pos ≥ index.uncompressedSize then return []
  else
    primeAtInner d io index limit r.pos false
    let r ← get
    if r.pos < r.bufStart ∨ r.pos ≥ r.bufEnd then
      if r.pos = r.nextOut then fillBuf d io index limit else primeAtInner d io index limit r.pos false
    copyOut n

def seek (index : GzipSeekIndex S) (dest : SeekFrom) : ReaderM S ℕ := do
  let r ← get
  let new := seekTarget index.uncompressedSize r.pos dest
  if new < 0 then throw .seekBeforeStart
  else
    set { r with pos := new.toNat }
    return new.toNat

def serve (d : Decoder S) (io : Backend file) (index : GzipSeekIndex S) (limit : ℕ) (r : SeekableGzipReader S) :
    Call → SeekableGzipReader S × Reply
  | .seek dest =>
    match seek index dest r with
    | .ok p r => (r,.moved p)
    | .error _ r => (r,.error)
  | .read n =>
    match read d io index limit n r with
    | .ok out r => (r,.bytes out)
    | .error _ r => (r,.error)

end Ratarmount.Gzip
