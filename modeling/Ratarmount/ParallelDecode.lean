import Ratarmount.BitStrings
import Ratarmount.ByteFields
import Ratarmount.ConcatenatedMembers

/-!
# Parallel decoding of gzip and bzip2

Both cut the input at the magics of members or streams and decode the parts with
several workers. bzip2 falls back to the blocks of a stream, found by their 48-bit
magics. The gzip library is any decoder of one member, the bzip2 library any reader of
one block within the format's frame. A failure is `none`.
-/

namespace Ratarmount.Parallel

open Members Bits

def mapDecode {α : Type} (decode : α → Option Bytes) (threads : ℕ) (parts : List α) : Option Bytes :=
  ((parallelMap decode threads parts).mapM Option.join).map List.flatten

section Gzip

def isGzipMagic (data : Bytes) : Bool := data.take 2 = [0x1f,0x8b]

def findGzipMagicOffsets : Bytes → ℕ → List ℕ
  | a :: b :: rest, i =>
    if a = 0x1f ∧ b = 0x8b then i :: findGzipMagicOffsets rest (i + 2) else findGzipMagicOffsets (b :: rest) (i + 1)
  | _, _ => []

def splitGzipMemberSlices (compressed : Bytes) : Option (List Bytes) :=
  if isGzipMagic compressed = false then none
  else
    let markers := findGzipMagicOffsets compressed 0
    if markers.length < 2 then none
    else
      let parts := cut compressed (markers ++ [compressed.length])
      if ∃ part ∈ parts, part.length ≤ 10 then none else some parts

def tryParallelMultiMemberDecode (gz : Decoder UInt8 Bytes) (compressed : Bytes) (threads : ℕ) : Option Bytes := do
  let parts ← splitGzipMemberSlices compressed
  if parts.length < 2 then none else mapDecode (fun part => (gz part).map Prod.fst) threads parts

end Gzip

section Bzip2

def isBzhHeader (data : Bytes) : Bool :=
  data.take 3 = [0x42,0x5a,0x68] ∧ data[3]?.any fun level => 0x31 ≤ level ∧ level ≤ 0x39

def blockMagic : List Bool := word 48 0x314159265359

def eosMagic : List Bool := word 48 0x177245385090

/-- Reads the block behind its magic, at this level: its content and its length in bits. -/
abbrev BlockReader := UInt8 → List Bool → Option (Bytes × ℕ)

def combineCrc (combined crc : List Bool) : List Bool := List.zipWith xor (combined.rotate 1) crc

/-- The blocks of a stream with their lengths, up to the end magic and the stream's checksum. -/
def readBlocks (rb : BlockReader) (level : UInt8) : ℕ → List Bool → List Bool → Option (List (ℕ × Bytes))
  | 0, _, _ => none
  | turns + 1, bits, combined =>
    if bits.take 48 = blockMagic then do
      let (content,n) ← rb level (bits.drop 48)
      let blocks ← readBlocks rb level turns (bits.drop (48 + n)) (combineCrc combined ((bits.drop 48).take 32))
      some ((n,content) :: blocks)
    else if bits.take 48 = eosMagic ∧ (bits.drop 48).take 32 = combined then some []
    else none

def blockBits (blocks : List (ℕ × Bytes)) : ℕ := (blocks.map fun block => 48 + block.1).sum

def streamBlocks (rb : BlockReader) (data : Bytes) : Option (List (ℕ × Bytes)) :=
  if isBzhHeader data = true then
    readBlocks rb (data.getD 3 0) (ofBytes data).length ((ofBytes data).drop 32) (List.replicate 32 false)
  else none

/-- `BzDecoder`: the stream at the start of the data, ended by the checksum and filled up to a byte. -/
def bzDecode (rb : BlockReader) : Decoder UInt8 Bytes := fun data => do
  let blocks ← streamBlocks rb data
  some ((blocks.map Prod.snd).flatten,(32 + blockBits blocks + 80 + 7) / 8)

def decodeOneStream (rb : BlockReader) (compressed : Bytes) : Option Bytes := (bzDecode rb compressed).map Prod.fst

def splitBzip2StreamsAtMarkers (rb : BlockReader) (compressed : Bytes) : Option (List Bytes) :=
  if isBzhHeader compressed = false then none
  else
    let markers := 0 :: (List.range' 4 (compressed.length - 3 - 4)).filter fun i => isBzhHeader (compressed.drop i)
    if markers.length < 2 then none
    else
      let parts := cut compressed (markers ++ [compressed.length])
      if ∃ part ∈ parts, part.length < 14 ∨ decodeOneStream rb part = none then none else some parts

/-- The sliding 48-bit window over the bits: the places of block magics, and the place of the first end magic. -/
def scanFrom : List Bool → ℕ → ℕ → ℕ → List ℕ → List ℕ × Option ℕ
  | [], _, _, _, starts => (starts,none)
  | b :: rest, bit, window, nextAllowed, starts =>
    let window := (window * 2 + b.toNat) % 2 ^ 48
    let start := bit + 1 - 48
    if bit + 1 < 32 + 48 ∨ start < nextAllowed then scanFrom rest (bit + 1) window nextAllowed starts
    else if window = 0x314159265359 then scanFrom rest (bit + 1) window (start + 48) (starts ++ [start])
    else if window = 0x177245385090 then (starts,some start)
    else scanFrom rest (bit + 1) window nextAllowed starts

def rangesOf : List ℕ → List (ℕ × ℕ)
  | start :: stop :: stops => (start,stop) :: rangesOf (stop :: stops)
  | _ => []

def bitBlockScanMaxBytes : ℕ := 256 * 1024 * 1024

def scanBlockBitRanges (compressed : Bytes) : Option (List (ℕ × ℕ)) :=
  if compressed.length > bitBlockScanMaxBytes ∨ compressed.length * 8 < 32 + 48 then none
  else
    match scanFrom (ofBytes compressed) 0 0 32 [] with
    | (_,none) => none
    | (starts,some eos) =>
      if starts = [] then none
      else
        let ranges := rangesOf (starts ++ [eos])
        if ∃ range ∈ ranges, range.2 ≤ range.1 + 48 then none else some ranges

/-- The block as a stream of its own. The bit writer is the string of the bits written. -/
def decodeOneBlock (rb : BlockReader) (header compressed : Bytes) (startBit endBit : ℕ) : Option Bytes :=
  let bits := ofBytes compressed
  if startBit + 48 + 32 > bits.length then none
  else
    let blob := pack (ofBytes header ++ (bits.drop startBit).take (endBit - startBit) ++ eosMagic ++
      (bits.drop (startBit + 48)).take 32)
    (bzDecode rb blob).map Prod.fst

def tryParallelBlockDecode (rb : BlockReader) (compressed : Bytes) (threads : ℕ) : Option Bytes :=
  if compressed.length < 10 ∨ isBzhHeader compressed = false then none
  else do
    let blocks ← scanBlockBitRanges compressed
    if blocks.length < 2 then none
    else mapDecode (fun block => decodeOneBlock rb (compressed.take 4) compressed block.1 block.2) threads blocks

def tryParallelDecode (rb : BlockReader) (compressed : Bytes) (threads : ℕ) : Option Bytes :=
  match splitBzip2StreamsAtMarkers rb compressed with
  | some parts =>
    if parts.length ≥ 2 then mapDecode (decodeOneStream rb) threads parts else tryParallelBlockDecode rb compressed threads
  | none => tryParallelBlockDecode rb compressed threads

end Bzip2

end Ratarmount.Parallel
