import Ratarmount.ByteFields
import Ratarmount.SeekableBytes

/-!
# Lzip members

The index of a multi-member lzip file, whose member ends are found by looking for
trailers from the end of the file, and the reader over it. The LZMA decoder is a
parameter.
-/

namespace Ratarmount.Lzip

open Seekable

inductive LzipError
  | memberTooSmall
  | magicMismatch
  | decompressFailed
  | unsupportedVersion (version : UInt8)
  | truncated
  | noMemberEnd (pos : ℕ)
  | noMembers
  | unexpectedEof
  | seekBeforeStart
  | diverged
  deriving DecidableEq

/-- `LZIP`. -/
def lzipMagic : Bytes := [0x4c,0x5a,0x49,0x50]

def headerSize : ℕ := 6

def trailerSize : ℕ := 20

structure Member where
  startOffset : ℕ
  endOffset : ℕ
  uncompressedOffset : ℕ
  uncompressedSize : ℕ
  dictSizeCode : UInt8
  deriving DecidableEq

def dictSizeFromCode (code : UInt8) : ℕ :=
  let base := 2 ^ (code &&& 31).toNat
  let frac := ((code >>> 5) &&& 7).toNat
  max (base - base / 16 * frac) 4096

/-- The raw LZMA decoder: dictionary size, unpacked size if known, payload. -/
abbrev Lzma := ℕ → Option ℕ → Bytes → Option Bytes

def decompressMember (lz : Lzma) (blob : Bytes) (dictCode : UInt8) (unpackedHint : Option ℕ) : Except LzipError Bytes :=
  if blob.length < headerSize + trailerSize then .error .memberTooSmall
  else if blob.slice 0 4 ≠ lzipMagic then .error .magicMismatch
  else
    let payload := blob.slice headerSize (blob.length - trailerSize - headerSize)
    let trySizes := match unpackedHint with
      | some n => [some n,none]
      | none => [none]
    match trySizes.findSome? fun us => lz (dictSizeFromCode dictCode) us payload with
    | some output => .ok output
    | none => .error .decompressFailed

/-- Takes the 20 bytes behind `payloadLen` bytes for the trailer. A member size of zero counts as consistent. -/
def tryAt (lz : Lzma) (rest : Bytes) (dictCode : UInt8) (payloadLen : ℕ) : Option (ℕ × ℕ × ℕ) :=
  if payloadLen + trailerSize > rest.length then none
  else
    let trailer := rest.slice payloadLen trailerSize
    let dataSize := (trailer.slice 4 8).ofLe
    let memberSize := (trailer.slice 12 8).ofLe
    if memberSize ≠ 0 ∧ memberSize ≠ headerSize + payloadLen + trailerSize then none
    else
      let blob := lzipMagic ++ [1,dictCode] ++ rest.take payloadLen ++ trailer
      match decompressMember lz blob dictCode (if dataSize > 0 then some dataSize else none) with
      | .error _ => none
      | .ok plain =>
        let ds := if dataSize > 0 ∧ dataSize = plain.length then dataSize else plain.length
        some (payloadLen + trailerSize,ds,plain.length)

/-- The whole rest as one member, then every payload length from the longest down. -/
def findMemberEnd (lz : Lzma) (rest : Bytes) (dictCode : UInt8) : Option (ℕ × ℕ × ℕ) :=
  if rest.length < trailerSize then none
  else
    match tryAt lz rest dictCode (rest.length - trailerSize) with
    | some r => some r
    | none => (List.range (rest.length - trailerSize + 1)).reverse.findSome? (tryAt lz rest dictCode)

def indexFrom (lz : Lzma) (file : Bytes) : ℕ → ℕ → ℕ → Except LzipError (List Member)
  | 0, _, _ => .error .diverged
  | turns + 1, pos, uOff =>
    if pos + headerSize + trailerSize ≤ file.length then
      let header := file.slice pos 6
      if header.length < 6 ∨ header.slice 0 4 ≠ lzipMagic then .ok []
      else if header.getD 4 0 ≠ 1 then .error (.unsupportedVersion (header.getD 4 0))
      else
        let dictCode := header.getD 5 0
        match findMemberEnd lz (file.drop (pos + headerSize)) dictCode with
        | none => .error (.noMemberEnd pos)
        | some (len,dataSize,plainLen) => do
          let endOffset := pos + (headerSize + len)
          let uncompressedSize := if dataSize > 0 then dataSize else plainLen
          let members ← indexFrom lz file turns endOffset (uOff + uncompressedSize)
          .ok (⟨pos,endOffset,uOff,uncompressedSize,dictCode⟩ :: members)
    else .ok []

/-- Every turn moves on by the size of a header and a trailer at least. -/
def indexLzipFile (lz : Lzma) (file : Bytes) : Except LzipError (List Member) := do
  let members ← indexFrom lz file (file.length + 1) 0 0
  if members = [] then .error .noMembers else .ok members

structure LzipReader where
  members : List Member
  size : ℕ
  pos : ℕ
  cache : Option (ℕ × Bytes)

def openReader (members : List Member) : LzipReader :=
  ⟨members,(members.map Member.uncompressedSize).sum,0,none⟩

/-- The first member that ends behind `pos`, and the offset within it. -/
def findIn : List Member → ℕ → Option (ℕ × ℕ)
  | [], _ => none
  | m :: members, pos =>
    if pos < m.uncompressedOffset + m.uncompressedSize then some (0,pos - m.uncompressedOffset)
    else (findIn members pos).map fun r => (r.1 + 1,r.2)

def LzipReader.find (r : LzipReader) (pos : ℕ) : ℕ × ℕ :=
  match findIn r.members pos with
  | some found => found
  | none => (r.members.length - 1,(r.members.getLast?.map Member.uncompressedSize).getD 0)

def ensureMember (lz : Lzma) (file : Bytes) (r : LzipReader) (idx : ℕ) : Except LzipError Bytes :=
  match r.cache with
  | some (i,data) => if i = idx then .ok data else load
  | none => load
where
  load : Except LzipError Bytes :=
    match r.members[idx]? with
    | none => .error .diverged
    | some m =>
      let blob := file.slice m.startOffset (m.endOffset - m.startOffset)
      if blob.length < m.endOffset - m.startOffset then .error .unexpectedEof
      else decompressMember lz blob m.dictSizeCode (some m.uncompressedSize)

def LzipReader.read (lz : Lzma) (file : Bytes) (r : LzipReader) (n : ℕ) : LzipReader × Reply :=
  if n = 0 ∨ r.pos ≥ r.size then (r,.bytes [])
  else
    let (idx,within) := r.find r.pos
    match ensureMember lz file r idx with
    | .error _ => (r,.error)
    | .ok data =>
      let r := { r with cache := some (idx,data) }
      if within ≥ data.length then (r,.bytes [])
      else
        let out := data.slice within n
        ({ r with pos := r.pos + out.length },.bytes out)

def LzipReader.seek (r : LzipReader) (dest : SeekFrom) : LzipReader × Reply :=
  let new := seekTarget r.size r.pos dest
  if new < 0 then (r,.error) else ({ r with pos := new.toNat },.moved new.toNat)

def LzipReader.step (lz : Lzma) (file : Bytes) (r : LzipReader) : Call → LzipReader × Reply
  | .seek dest => r.seek dest
  | .read n => r.read lz file n

end Ratarmount.Lzip
