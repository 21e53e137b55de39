import Ratarmount.ZstdSeekTable

/-!
# The splice of a zstd stream's last frames

`splice_zstd_last_frames` copies the stream up to a frame, decodes the rest,
transforms it, and writes one new frame and a new seek table.
-/

namespace Ratarmount.Zstd

open Bytes

/-- `decode_zstd_frames_to`, the decoded bytes. -/
def decodeFrames (lib : ZstdLib) (file : Bytes) : List ZstdFrameInfo → Except String Bytes
  | [] => .ok []
  | f :: frames =>
    match lib.decode (file.slice f.compressedOffset f.compressedSize) with
    | none => .error "decoder"
    | some plain => (decodeFrames lib file frames).map (fun rest => plain ++ rest)

def decodeZstdFramesTo (lib : ZstdLib) (file : Bytes) (map : ZstdFrameMap) (fromIdx : ℕ) : Except String Bytes :=
  if map.frames.length < fromIdx then .error "decode from_idx past frames"
  else decodeFrames lib file (map.frames.drop fromIdx)

def tryU32 (n : ℕ) : Option ℕ := if n < 2 ^ 32 then some n else none

/-- One entry of the new table: the distance to the next frame, and the decoded size. -/
def rebuildEntry (f g : ZstdFrameInfo) : Option (ℕ × ℕ) :=
  if g.compressedOffset < f.compressedOffset then none
  else
    match tryU32 (g.compressedOffset - f.compressedOffset), tryU32 f.uncompressedSize with
    | some c, some d => some (c,d)
    | _, _ => none

def rebuildEntries : ℕ → List ZstdFrameInfo → Option (List (ℕ × ℕ))
  | n + 1, f :: g :: frames =>
    match rebuildEntry f g, rebuildEntries n (g :: frames) with
    | some e, some es => some (e :: es)
    | _, _ => none
  | _, _ => some []

def maybeRebuildSeekTable (map : ZstdFrameMap) (fromIdx newComp newPlain : ℕ) : Option Bytes :=
  if map.seekTable = none then none
  else
    match rebuildEntries fromIdx map.frames, tryU32 newComp, tryU32 newPlain with
    | some entries, some c, some d => some (buildSeekTableSkippable (entries ++ [(c,d)]))
    | _, _, _ => none

structure SpliceStats where
  prefixCompressedBytes : ℕ
  newFrameCompressedSize : ℕ
  newFrameUncompressedSize : ℕ
  wroteSeekTable : Bool
  deriving DecidableEq

def writeZstdSpliceSuffix (lib : ZstdLib) (src : Bytes) (map : ZstdFrameMap) (fromIdx : ℕ)
    (transform : Bytes → ℕ → Except String Bytes) : Except String (Bytes × SpliceStats) :=
  match map.frames[fromIdx]? with
  | none => .error "splice from_idx past frames"
  | some frame =>
    match decodeZstdFramesTo lib src map fromIdx with
    | .error e => .error e
    | .ok suffix =>
      match transform suffix frame.uncompressedOffset with
      | .error e => .error e
      | .ok newPlain =>
        let table := maybeRebuildSeekTable map fromIdx (lib.encode newPlain).length newPlain.length
        .ok (lib.encode newPlain ++ table.getD [],
          { prefixCompressedBytes := frame.compressedOffset, newFrameCompressedSize := (lib.encode newPlain).length,
            newFrameUncompressedSize := newPlain.length, wroteSeekTable := table.isSome })

def spliceZstdLastFrames (lib : ZstdLib) (src : Bytes) (map : ZstdFrameMap) (fromIdx : ℕ)
    (transform : Bytes → ℕ → Except String Bytes) : Except String (Bytes × SpliceStats) :=
  match map.frames[fromIdx]? with
  | none => .error "splice from_idx past frames"
  | some frame =>
    if src.length < frame.compressedOffset then .error "zstd splice prefix short"
    else
      (writeZstdSpliceSuffix lib src map fromIdx transform).map (fun r => (src.take frame.compressedOffset ++ r.1,r.2))

end Ratarmount.Zstd
