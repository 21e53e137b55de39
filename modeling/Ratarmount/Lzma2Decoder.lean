import Mathlib.Data.List.AList
import Ratarmount.Lzma2Chunks
import Ratarmount.SevenZipHeader

/-!
# Random access into an LZMA2 folder

A range is served from the whole content, from its retained beginning, from a cache of
windows, or by a raw decoder that goes on where it is or starts anew at an independent
chunk. Reads of the pack may fail, memory may be refused, and pressure may clear the cache
whenever it is not locked. Counters and log lines are left out.
-/

namespace Ratarmount.Lzma2

open SevenZip (Coder Folder methodCopy)

section Coders

def methodLzma : Bytes := [0x03,0x01,0x01]

def methodLzma2 : Bytes := [0x21]

def methodBcj2 : Bytes := [0x03,0x03,0x01,0x1b]

def methodAes : Bytes := [0x06,0xf1,0x07,0x01]

/-- The methods of the delta and the branch filters: delta, BCJ, x86, PPC, IA64, ARM, ARMT, SPARC. -/
def filterMethods : List Bytes :=
  [[0x03],[0x03,0x03,0x01,0x03],[0x04],[0x03,0x03,0x02,0x05],[0x03,0x03,0x04,0x01],[0x03,0x03,0x05,0x01],
    [0x03,0x03,0x07,0x01],[0x03,0x03,0x08,0x05]]

def coderIsBcjOrDelta (coder : Coder) : Bool := coder.method ∈ filterMethods

def isNativeLzmaFilterMethod (method : Bytes) : Bool := method = methodLzma ∨ method = methodLzma2 ∨ method ∈ filterMethods

def codersAreNativeLzmaChain (coders : List Coder) : Bool :=
  (coders.any fun coder => coder.method = methodLzma ∨ coder.method = methodLzma2) &&
    coders.all fun coder => isNativeLzmaFilterMethod coder.method

def contentCoders (folder : Folder) : List Coder :=
  match folder.coders with
  | [] => []
  | coder :: coders => if coder.method = methodAes then coders else coder :: coders

def lzma2ProgressiveContentCoders (coders : List Coder) : Bool :=
  coders ≠ [] && !(coders.any fun coder => coder.method = methodBcj2) && (coders.any fun coder => coder.method = methodLzma2) &&
    (coders.length = 1 || codersAreNativeLzmaChain coders)

end Coders

section Raw

inductive Status
  | ok
  | streamEnd
  | error
  deriving DecidableEq

structure Coded (S : Type) where
  state : S
  consumed : ℕ
  produced : Bytes
  status : Status

/-- The raw decoder of the folder's filter chain. To start it may fail, and a call takes part of its input and fills part of the room. -/
structure RawDecoder (S : Type) where
  start : ℕ → Option S
  code : S → Bytes → ℕ → Bool → Coded S
  consumed_le : ∀ s input room finish, (code s input room finish).consumed ≤ input.length
  produced_le : ∀ s input room finish, (code s input room finish).produced.length ≤ room

structure LiveCursor (S : Type) where
  state : S
  unpackedPos : ℕ
  absPackedPos : ℕ

end Raw

section State

structure State (S : Type) where
  packedWindow : Bytes
  packedWindowStart : ℕ
  full : Option Bytes
  cacheFull : Bool
  maxCachedChunks : ℕ
  windowCache : AList fun _ : ℕ => Bytes
  /-- Whether memory for the cache is reserved. -/
  memory : Bool
  windowLru : List ℕ
  live : Option (LiveCursor S)
  prefixFromZero : Bytes
  retainFromZero : Bool
  turn : ℕ

/-- The memory pool: its capacity if it is enabled, which reservations it grants and when it presses for memory. -/
structure Host where
  cap : Option ℕ
  granted : ℕ → Bool
  pressure : ℕ → Bool

structure Setup (S : Type) where
  pack : Pack
  raw : RawDecoder S
  allowIndependentResume : Bool
  chunks : List ChunkIndex
  unpackSize : ℕ
  chunkSize : ℕ
  host : Host

def smallFolderFullCache : ℕ := 4 * 1024 * 1024

def fromPackWithChunkSize {S : Type} (folder : Folder) (pack : Pack) (raw : RawDecoder S) (host : Host)
    (chunkSize maxCachedChunks : ℕ) : Except String (Setup S × State S) :=
  let content := contentCoders folder
  if (folder.coders.any fun coder => coder.method = methodBcj2) = true ∨ folder.packedIndices.length > 1 then
    .error "Lzma2RandomAccessDecoder does not support BCJ2 / multi-pack folders"
  else if lzma2ProgressiveContentCoders content = false then
    .error "Lzma2RandomAccessDecoder requires LZMA2 or native BCJ/Delta+LZMA2"
  else do
    let chunks ← indexLzma2ChunksFromPack pack
    let unpackSize := folder.getUnpackSize
    .ok
      (⟨pack,raw,!content.any coderIsBcjOrDelta,chunks,unpackSize,max chunkSize 4096,host⟩,
        { packedWindow := []
          packedWindowStart := 0
          full := none
          cacheFull := unpackSize ≤ smallFolderFullCache
          maxCachedChunks := max maxCachedChunks 1
          windowCache := ∅
          memory := false
          windowLru := []
          live := none
          prefixFromZero := []
          retainFromZero := false
          -- the reads of the index have been made
          turn := indexReads pack })

end State

abbrev Decoding (S : Type) := EStateM String (State S)

variable {S : Type} (x : Setup S)

section Live

def nextTurn : Decoding S ℕ := do
  let s ← get
  set { s with turn := s.turn + 1 }
  pure s.turn

def readPacked (offset size : ℕ) : Decoding S Bytes := do
  let turn ← nextTurn
  match x.pack.readAt turn offset size with
  | .ok bytes => pure bytes
  | .error e => throw e

def ensurePackedWindow (abs : ℕ) : Decoding S Unit := do
  let s ← get
  if x.pack.bytes.length ≤ abs then pure ()
  else if s.packedWindowStart ≤ abs ∧ abs < s.packedWindowStart + s.packedWindow.length then pure ()
  else do
    let n := min (x.pack.bytes.length - abs) packedInputWindow
    let window ← readPacked x abs n
    modify fun s => { s with packedWindow := window, packedWindowStart := abs }
    if 0 < n ∧ window = [] then throw "packed window refill empty before pack EOF" else pure ()

def windowInput (s : State S) (abs : ℕ) : Bytes :=
  if s.packedWindowStart ≤ abs ∧ abs < s.packedWindowStart + s.packedWindow.length then
    s.packedWindow.drop (abs - s.packedWindowStart)
  else []

/-- One call of the raw decoder: what it has done, how much input it has left, and whether the pack has ended. -/
def liveCode (room : ℕ) : Decoding S (Coded S × ℕ × Bool) := do
  let s ← get
  match s.live with
  | none => throw "LZMA2 live cursor missing"
  | some live => do
    let input := windowInput s live.absPackedPos
    let atPackEof := decide (x.pack.bytes.length ≤ live.absPackedPos)
    let r := x.raw.code live.state input room atPackEof
    set { s with live := some ⟨r.state,live.unpackedPos + r.produced.length,live.absPackedPos + r.consumed⟩ }
    pure (r,input.length - r.consumed,atPackEof)

/-- Every turn that does not end the loop takes a byte or writes one, so the turns are those of the loop. -/
def liveDecodeFrom (room : ℕ) : ℕ → Bytes → Decoding S Bytes
  | 0, produced => pure produced
  | turns + 1, produced =>
    if produced.length = room then pure produced
    else do
      let s ← get
      ensurePackedWindow x ((s.live.map LiveCursor.absPackedPos).getD x.pack.bytes.length)
      let (r,availIn,atPackEof) ← liveCode x (room - produced.length)
      let produced := produced ++ r.produced
      if r.status = .streamEnd then pure produced
      else if r.status = .error then throw "lzma_code (live LZMA2)"
      else if produced.length = room then pure produced
      else if availIn = 0 ∧ atPackEof = false then liveDecodeFrom room turns produced
      else if r.produced = [] then pure produced
      else liveDecodeFrom room turns produced

def liveDecodeInto (room : ℕ) : Decoding S Bytes :=
  if room = 0 then pure [] else liveDecodeFrom x room (x.pack.bytes.length + room + 1) []

/-- The latest independent chunk that begins at `start` or before, or the beginning. -/
def resumeFrom (start : ℕ) : List ChunkIndex → ℕ × ℕ → ℕ × ℕ
  | [], at_ => at_
  | c :: cs, at_ =>
    if start < c.unpackedOffset then at_
    else resumeFrom start cs (if c.independent = true then (c.packedOffset,c.unpackedOffset) else at_)

def resumePoint (start : ℕ) : ℕ × ℕ := if x.allowIndependentResume = false then (0,0) else resumeFrom start x.chunks (0,0)

def startLiveAt (packedPos unpackedPos : ℕ) : Decoding S Unit := do
  modify fun s => { s with live := none, packedWindow := [], packedWindowStart := packedPos }
  ensurePackedWindow x packedPos
  let turn ← nextTurn
  match x.raw.start turn with
  | none => throw "lzma_raw_decoder"
  | some state => modify fun s => { s with live := some ⟨state,unpackedPos,packedPos⟩ }

/-- Decoded bytes that go on with the retained beginning are kept. -/
def noteProduced (start : ℕ) (data : Bytes) : Decoding S Unit := modify fun s =>
  if s.retainFromZero = false ∨ data = [] then s
  else if s.prefixFromZero.length < start then s
  else
    let overlap := s.prefixFromZero.length - start
    if data.length ≤ overlap then s
    else
      let kept := s.prefixFromZero ++ data.drop overlap
      if x.unpackSize ≤ kept.length ∧ s.full = none then { s with prefixFromZero := [], full := some (kept.take x.unpackSize) }
      else { s with prefixFromZero := kept }

def liveSkipFrom (target : ℕ) : ℕ → Decoding S Unit
  | 0 => pure ()
  | turns + 1 => do
    let s ← get
    let pos := (s.live.map LiveCursor.unpackedPos).getD target
    if pos < target then do
      let bytes ← liveDecodeInto x (min (target - pos) (64 * 1024))
      if bytes = [] then throw "LZMA2 live skip stalled"
      else do
        let s ← get
        noteProduced x ((s.live.map LiveCursor.unpackedPos).getD 0 - bytes.length) bytes
        liveSkipFrom target turns
    else pure ()

def liveSkipTo (target : ℕ) : Decoding S Unit := liveSkipFrom x target (target + 1)

/-- A new decoder unless the live one is between the resume point and the start. -/
def resumeLive (start : ℕ) : Decoding S Unit := do
  let s ← get
  let resume := resumePoint x start
  if s.live.any (fun c => c.unpackedPos ≤ start ∧ resume.2 ≤ c.unpackedPos) = true then pure ()
  else startLiveAt x resume.1 resume.2

def positionLiveAt (start : ℕ) : Decoding S Unit :=
  if x.unpackSize < start then pure ()
  else do
    resumeLive x start
    let s ← get
    if (s.live.map LiveCursor.unpackedPos).getD 0 < start then liveSkipTo x start else pure ()

def fillSpan (start room : ℕ) : ℕ → Bytes → Decoding S Bytes
  | 0, out => pure out
  | turns + 1, out =>
    if out.length < room then do
      let bytes ← liveDecodeInto x (room - out.length)
      if bytes = [] then throw "LZMA2 live decode short"
      else do
        noteProduced x (start + out.length) bytes
        fillSpan start room turns (out ++ bytes)
    else pure out

def liveDecodeSpan (start stop : ℕ) : Decoding S Bytes :=
  if stop ≤ start then pure []
  else do
    positionLiveAt x start
    fillSpan x start (stop - start) (stop - start) []

def ensureFull : Decoding S Unit := do
  let s ← get
  if s.full.isSome = true then pure ()
  else if x.unpackSize ≤ s.prefixFromZero.length ∧ 0 < x.unpackSize then
    set { s with prefixFromZero := [], full := some (s.prefixFromZero.take x.unpackSize) }
  else do
    let out ← liveDecodeSpan x 0 (max x.unpackSize 1)
    modify fun s => { s with full := some out }

end Live

section Windows

/-- The cache is locked. Before that, pressure may have cleared it. -/
def lockCache : Decoding S Unit := do
  let turn ← nextTurn
  if x.host.pressure turn = true then modify fun s => { s with windowCache := ∅, memory := false } else pure ()

def evictOldest : ℕ → Decoding S Unit
  | 0 => pure ()
  | n + 1 => do
    let s ← get
    match s.windowLru with
    | [] => pure ()
    | old :: rest => do
      set { s with windowLru := rest }
      lockCache x
      modify fun s => { s with windowCache := s.windowCache.erase old }
      evictOldest n

def touchWindow (index : ℕ) : Decoding S Unit := do
  modify fun s => { s with windowLru := s.windowLru.erase index ++ [index] }
  let s ← get
  evictOldest x (s.windowLru.length - s.maxCachedChunks)

def makeRoom (s : State S) (index : ℕ) : AList fun _ : ℕ => Bytes :=
  if s.windowCache.lookup index = none ∧ s.maxCachedChunks ≤ s.windowCache.entries.length then
    match s.windowLru with
    | [] => s.windowCache
    | old :: _ => s.windowCache.erase old
  else s.windowCache

def storeWindow (index : ℕ) (data : Bytes) : Decoding S Unit :=
  if data = [] then pure ()
  else do
    lockCache x
    let s ← get
    if x.host.cap.isSome = true ∧ s.memory = false then pure ()
    else do
      set { s with windowCache := (makeRoom s index).insert index data }
      touchWindow x index

def cached (index : ℕ) : Decoding S Bool := do
  lockCache x
  let s ← get
  pure (s.windowCache.lookup index).isSome

def allCached : List ℕ → Decoding S Bool
  | [] => pure true
  | index :: indices => do
    let here ← cached x index
    if here = true then allCached indices else pure false

def firstMissing : List ℕ → Decoding S (Option ℕ)
  | [] => pure none
  | index :: indices => do
    let here ← cached x index
    if here = true then firstMissing indices else pure (some index)

def eachWindow (f : ℕ → Decoding S Unit) : List ℕ → Decoding S Unit
  | [] => pure ()
  | index :: indices => do
    f index
    eachWindow f indices

def windows (first last : ℕ) : List ℕ := List.range' first (last + 1 - first)

def cacheSpanWindow (spanStart : ℕ) (data : Bytes) (index : ℕ) : Decoding S Unit :=
  let winStart := index * x.chunkSize
  let winEnd := min (winStart + x.chunkSize) x.unpackSize
  if spanStart ≤ winStart ∧ winEnd ≤ spanStart + data.length ∧ winStart < winEnd then do
    let here ← cached x index
    if here = false then storeWindow x index (data.slice (winStart - spanStart) (winEnd - winStart)) else touchWindow x index
  else pure ()

def cacheSpanWindows (spanStart : ℕ) (data : Bytes) (first last : ℕ) : Decoding S Unit :=
  if data = [] then pure () else eachWindow (cacheSpanWindow x spanStart data) (windows first last)

def storeMissing (needFrom : ℕ) (span : Bytes) (index : ℕ) : Decoding S Unit :=
  let winStart := index * x.chunkSize
  if x.unpackSize ≤ winStart then pure ()
  else do
    let here ← cached x index
    if here = false ∧ needFrom ≤ winStart then
      let off := winStart - needFrom
      let winEnd := min (winStart + x.chunkSize) (needFrom + span.length)
      if off < span.length ∧ winStart < winEnd then storeWindow x index (span.slice off (winEnd - winStart)) else pure ()
    else pure ()

def ensureWindows (start stop : ℕ) : Decoding S Unit :=
  if stop ≤ start then pure ()
  else do
    let first := start / x.chunkSize
    let last := (stop - 1) / x.chunkSize
    let all ← allCached x (windows first last)
    if all = true then eachWindow (touchWindow x) (windows first last)
    else do
      let missing ← firstMissing x (windows first last)
      let needFrom := min ((missing.map (· * x.chunkSize)).getD start) start
      let needThrough := min ((last + 1) * x.chunkSize) x.unpackSize
      let span ← liveDecodeSpan x needFrom needThrough
      cacheSpanWindows x needFrom span first last
      eachWindow (storeMissing x needFrom span) (windows first last)

inductive Assembled
  | missing
  | invalid
  | bytes (out : Bytes)

def assembleFrom (cache : AList fun _ : ℕ => Bytes) (chunkSize stop : ℕ) : ℕ → ℕ → Bytes → Assembled
  | 0, _, out => .bytes out
  | turns + 1, offset, out =>
    if offset < stop then
      match cache.lookup (offset / chunkSize) with
      | none => .missing
      | some win =>
        let start := offset - offset / chunkSize * chunkSize
        if win.length ≤ start then .invalid
        else
          let take := min (stop - offset) (win.length - start)
          assembleFrom cache chunkSize stop turns (offset + take) (out ++ win.slice start take)
    else .bytes out

/-- The cache stays locked while the windows are put together. -/
def assembleFromWindows (start stop : ℕ) : Decoding S Bytes := do
  lockCache x
  let s ← get
  match assembleFrom s.windowCache x.chunkSize stop (stop - start) start [] with
  | .missing => liveDecodeSpan x start stop
  | .invalid => throw "Invalid cached window slice"
  | .bytes out => do
    eachWindow (touchWindow x) (windows (start / x.chunkSize) ((stop - 1) / x.chunkSize))
    pure out

end Windows

section Ranges

/-- Memory for the cache is reserved if the pool is enabled. Without it the caches are passed over. -/
def reserveCache : Decoding S Bool :=
  match x.host.cap with
  | none => pure true
  | some cap => do
    modify fun s => { s with cacheFull := false, retainFromZero := false }
    lockCache x
    let turn ← nextTurn
    modify fun s =>
      if s.memory = true then s
      else { s with maxCachedChunks := min s.maxCachedChunks (cap / x.chunkSize), memory := x.host.granted turn }
    lockCache x
    let s ← get
    pure (s.memory = true ∧ s.maxCachedChunks ≠ 0)

def readFull (start stop : ℕ) : Decoding S Bytes := do
  ensureFull x
  let s ← get
  let full := s.full.getD []
  pure (if full.length ≤ start then [] else full.slice start (min stop full.length - start))

def readWide (start stop : ℕ) : Decoding S Bytes := do
  let first := start / x.chunkSize
  let last := (stop - 1) / x.chunkSize
  let span ← liveDecodeSpan x start (min ((last + 1) * x.chunkSize) x.unpackSize)
  cacheSpanWindows x start span first last
  pure (span.take (min (stop - start) span.length))

def readWindows (start stop : ℕ) : Decoding S Bytes := do
  ensureWindows x start stop
  let all ← allCached x (windows (start / x.chunkSize) ((stop - 1) / x.chunkSize))
  if all = true then assembleFromWindows x start stop else liveDecodeSpan x start stop

def readRange (start length : ℕ) : Decoding S Bytes :=
  if length = 0 ∨ x.unpackSize ≤ start then pure []
  else do
    let stop := min (start + length) x.unpackSize
    let caches ← reserveCache x
    let s ← get
    if caches = false then liveDecodeSpan x start stop
    else if s.full.isSome = true ∨ s.cacheFull = true then readFull x start stop
    else if s.retainFromZero = true ∧ stop ≤ s.prefixFromZero.length then pure (s.prefixFromZero.slice start (stop - start))
    else if s.maxCachedChunks < (stop - 1) / x.chunkSize - start / x.chunkSize + 1 then readWide x start stop
    else readWindows x start stop

def setRetainFromZero (retain : Bool) : Decoding S Unit :=
  modify fun s => { s with retainFromZero := retain && x.host.cap.isNone }

inductive Call
  | read (start length : ℕ)
  | retain (on : Bool)

def replies : List Call → State S → List (ℕ × ℕ × Option Bytes)
  | [], _ => []
  | .retain on :: calls, s => replies calls (Programs.final (setRetainFromZero x on s))
  | .read start length :: calls, s =>
    match readRange x start length s with
    | .ok bytes s => (start,length,some bytes) :: replies calls s
    | .error _ s => (start,length,none) :: replies calls s

end Ranges

end Ratarmount.Lzma2
