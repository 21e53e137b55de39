import Ratarmount.ByteFields
import Ratarmount.StatePrograms

/-!
# The chunks of an LZMA2 stream

A packed stream is walked from chunk header to chunk header through a window of its
bytes. A read of the pack may fail at any time.
-/

namespace Ratarmount.Lzma2

section Pack

/-- The packed bytes, and which of the reads fail. -/
structure Pack where
  bytes : Bytes
  fails : ℕ → Bool

def Pack.readAt (pack : Pack) (turn offset size : ℕ) : Except String Bytes :=
  if size = 0 ∨ pack.bytes.length ≤ offset then .ok []
  else if pack.fails turn = true then .error "read failed"
  else .ok (pack.bytes.slice offset size)

def packedInputWindow : ℕ := 64 * 1024

structure PackCursor where
  abs : ℕ
  window : Bytes
  winStart : ℕ
  turn : ℕ

abbrev Walk := EStateM String PackCursor

def remainingInWindow (c : PackCursor) : ℕ := if c.abs < c.winStart then 0 else c.window.length - (c.abs - c.winStart)

def readPack (pack : Pack) (offset size : ℕ) : Walk Bytes := do
  let c ← get
  set { c with turn := c.turn + 1 }
  match pack.readAt c.turn offset size with
  | .ok bytes => pure bytes
  | .error e => throw e

def ensure (pack : Pack) (n : ℕ) : Walk Unit := do
  let c ← get
  if pack.bytes.length ≤ c.abs then pure ()
  else if n ≤ remainingInWindow c then pure ()
  else if 0 < remainingInWindow c then do
    let rest := c.window.drop (c.abs - c.winStart)
    let more ← readPack pack (c.abs + rest.length) packedInputWindow
    modify fun c => { c with window := rest ++ more, winStart := c.abs }
  else do
    let bytes ← readPack pack c.abs (min (pack.bytes.length - c.abs) packedInputWindow)
    modify fun c => { c with window := bytes, winStart := c.abs }

def readU8 (pack : Pack) : Walk (Option UInt8) := do
  let c ← get
  if pack.bytes.length ≤ c.abs then pure none
  else do
    ensure pack 1
    let c ← get
    match c.window[c.abs - c.winStart]? with
    | none => pure none
    | some b => do
      set { c with abs := c.abs + 1 }
      pure (some b)

def readExact (pack : Pack) (n : ℕ) : Walk Bytes := do
  ensure pack n
  let c ← get
  if c.window.length < c.abs - c.winStart + n then throw "Truncated LZMA2 chunk header"
  else do
    set { c with abs := c.abs + n }
    pure (c.window.slice (c.abs - c.winStart) n)

def skip (pack : Pack) (n : ℕ) : Walk Unit := do
  let c ← get
  if pack.bytes.length < c.abs + n then throw "Truncated LZMA2 compressed data"
  else set { c with abs := c.abs + n }

end Pack

section Chunks

structure ChunkIndex where
  index : ℕ
  packedOffset : ℕ
  packedSize : ℕ
  unpackedOffset : ℕ
  unpackedSize : ℕ
  control : UInt8
  isLzma : Bool
  independent : Bool
  deriving DecidableEq

/-- A number of two bytes, one less than what it stands for. -/
def size16 (bytes : Bytes) (at_ : ℕ) : ℕ := (bytes.getD at_ 0).toNat * 2 ^ 8 + (bytes.getD (at_ + 1) 0).toNat + 1

def dictReset (control : UInt8) : Bool := 0xe0 ≤ control || control = 0x01

def readProps (pack : Pack) (control : UInt8) : Walk Bytes := if 0xc0 ≤ control then readExact pack 1 else pure []

def readChunk (pack : Pack) (chunkIndex chunkStart unpackedPos : ℕ) (control : UInt8) : Walk ChunkIndex :=
  if 0x80 ≤ control then do
    let hdr ← readExact pack 4
    let unpackedSize := (control &&& 0x1f).toNat * 2 ^ 16 + size16 hdr 0
    let _ ← readProps pack control
    skip pack (size16 hdr 2)
    let c ← get
    pure ⟨chunkIndex,chunkStart,c.abs - chunkStart,unpackedPos,unpackedSize,control,true,dictReset control⟩
  else if control = 1 ∨ control = 2 then do
    let hdr ← readExact pack 2
    skip pack (size16 hdr 0)
    let c ← get
    pure ⟨chunkIndex,chunkStart,c.abs - chunkStart,unpackedPos,size16 hdr 0,control,false,control = 1⟩
  else throw "Invalid LZMA2 control byte"

/-- Every chunk takes a byte at least, so the turns are those of the loop. -/
def indexFrom (pack : Pack) : ℕ → ℕ → ℕ → Bool → Walk (List ChunkIndex)
  | 0, _, _, _ => pure []
  | turns + 1, chunkIndex, unpackedPos, needDictReset => do
    let c ← get
    match ← readU8 pack with
    | none => pure []
    | some control =>
      if control = 0 then pure []
      else if dictReset control = false ∧ needDictReset = true then throw "LZMA2 stream missing dictionary reset"
      else do
        let chunk ← readChunk pack chunkIndex c.abs unpackedPos control
        let more ← indexFrom pack turns (chunkIndex + 1) (unpackedPos + chunk.unpackedSize) (needDictReset && !dictReset control)
        pure (chunk :: more)

def indexLzma2ChunksFromPack (pack : Pack) : Except String (List ChunkIndex) :=
  match indexFrom pack (pack.bytes.length + 1) 0 0 true ⟨0,[],0,0⟩ with
  | .ok chunks _ => .ok chunks
  | .error e _ => .error e

/-- How often the index reads the pack. -/
def indexReads (pack : Pack) : ℕ :=
  match indexFrom pack (pack.bytes.length + 1) 0 0 true ⟨0,[],0,0⟩ with
  | .ok _ c => c.turn
  | .error _ c => c.turn

end Chunks

section Format

structure Chunk where
  control : UInt8
  sizes : Bytes
  props : Bytes
  data : Bytes

namespace Chunk

variable (chunk : Chunk)

def bytes : Bytes := [chunk.control] ++ (chunk.sizes ++ (chunk.props ++ chunk.data))

def isLzma : Bool := 0x80 ≤ chunk.control

def unpackedSize : ℕ :=
  if chunk.isLzma = true then (chunk.control &&& 0x1f).toNat * 2 ^ 16 + size16 chunk.sizes 0 else size16 chunk.sizes 0

/-- The sizes of the fields and of the data are those that the header says. -/
def Ok : Prop :=
  if chunk.isLzma = true then
    chunk.sizes.length = 4 ∧ chunk.props.length = (if 0xc0 ≤ chunk.control then 1 else 0) ∧ chunk.data.length = size16 chunk.sizes 2
  else
    (chunk.control = 1 ∨ chunk.control = 2) ∧ chunk.sizes.length = 2 ∧ chunk.props = [] ∧ chunk.data.length = size16 chunk.sizes 0

end Chunk

/-- Where each chunk lies: behind the bytes and the content of those before it. -/
def describe : List Chunk → ℕ → ℕ → ℕ → List ChunkIndex
  | [], _, _, _ => []
  | chunk :: chunks, index, packed, unpacked =>
    ⟨index,packed,chunk.bytes.length,unpacked,chunk.unpackedSize,chunk.control,chunk.isLzma,dictReset chunk.control⟩ ::
      describe chunks (index + 1) (packed + chunk.bytes.length) (unpacked + chunk.unpackedSize)

/-- The chunks of a packed stream, which ends with its bytes or with a zero. -/
structure IsStream (packed : Bytes) (chunks : List Chunk) : Prop where
  ok : ∀ chunk ∈ chunks, chunk.Ok
  reset : ∀ chunk ∈ chunks.head?, dictReset chunk.control = true
  bytes : ∃ tail, packed = chunks.flatMap Chunk.bytes ++ tail ∧ tail.headD 0 = 0

end Format

end Ratarmount.Lzma2
