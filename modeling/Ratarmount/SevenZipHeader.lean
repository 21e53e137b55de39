import Ratarmount.BitStrings
import Ratarmount.ByteFields
import Ratarmount.FormatReaders

/-!
# The 7z header

The parser of an unpacked header and the entries it makes of the files. The cursor is the
rest of the bytes, machine integers are numbers, file names are UTF-16 units and times
stay FILETIME values. An index out of range is an error.
-/

namespace Ratarmount.SevenZip

open Reading Bytes

abbrev Parser := Reader UInt8 String

section Fields

def readExact (n : ℕ) : Parser Bytes := fun data =>
  if data.length < n then .error "Unexpected end of 7z data" else .ok (data.take n,data.drop n)

def readByte : Parser UInt8 := do
  let bytes ← readExact 1
  pure (bytes.headD 0)

/-- The ones before the first zero of the last `i` bits. -/
def leadingOnes (first : ℕ) : ℕ → ℕ
  | 0 => 0
  | i + 1 => if first.testBit i = true then leadingOnes first i + 1 else 0

def readUint64 : Parser ℕ := do
  let first ← readByte
  if first = 0xff then do
    let bytes ← readExact 8
    pure (ofLe bytes)
  else do
    let extra := leadingOnes first.toNat 8
    if extra = 0 then pure first.toNat
    else do
      let bytes ← readExact extra
      let value := ofLe bytes
      let highBits := first.toNat % 2 ^ (7 - extra)
      pure (if extra < 7 then value ||| highBits <<< (8 * extra) else value)

/-- A bit for each place, from the bits left of the last byte and then from new ones. -/
def readBits : ℕ → List Bool → Parser (List Bool)
  | 0, _ => pure []
  | n + 1, bit :: bits => do
    let more ← readBits n bits
    pure (bit :: more)
  | n + 1, [] => do
    let byte ← readByte
    let more ← readBits n (Bits.ofByte byte).tail
    pure ((Bits.ofByte byte).headD false :: more)

def readBools (count : ℕ) (checkAll : Bool) : Parser (List Bool) :=
  if checkAll = true then do
    let allDefined ← readByte
    if allDefined ≠ 0 then pure (List.replicate count true) else readBits count []
  else readBits count []

def readUtf16 : ℕ → Parser (List ℕ)
  | 0 => throw "Unexpected end of 7z data"
  | turns + 1 => do
    let pair ← readExact 2
    if pair = [0,0] then pure []
    else do
      let units ← readUtf16 turns
      pure (ofLe pair :: units)

def readUtf16z : Parser (List ℕ) := do
  let data ← get
  readUtf16 (data.length + 1)

/-- A number of this many bytes where it is defined. -/
def readDefined (width : ℕ) : List Bool → Parser (List (Option ℕ)) :=
  each fun defined =>
    if defined = true then do
      let bytes ← readExact width
      pure (some (ofLe bytes))
    else pure none

/-- A section that is there if its id is the one just read, and the id behind it. -/
def optional {α : Type} (id : UInt8) (p : Parser α) (prop : UInt8) : Parser (Option α × UInt8) :=
  if prop = id then do
    let a ← p
    let prop ← readByte
    pure (some a,prop)
  else pure (none,prop)

def expectEnd {α : Type} (prop : UInt8) (a : α) : Parser α :=
  if prop = 0x00 then pure a else throw "Expected END"

end Fields

section Streams

structure PackInfo where
  packPos : ℕ
  packSizes : List ℕ
  crcs : List (Option ℕ)
  deriving DecidableEq

/-- The positions, added up as `u64`. -/
def PackInfo.packPositions (info : PackInfo) : List ℕ :=
  (List.range info.packSizes.length).map fun i => (info.packSizes.take i).sum % 2 ^ 64

def readCrcs (count : ℕ) : Parser (List (Option ℕ)) := do
  let defined ← readBools count true
  readDefined 4 defined

def parsePackSizes (numStreams : ℕ) : Parser (List ℕ × List (Option ℕ) × UInt8) := do
  let prop ← readByte
  if prop = 0x09 then do
    let sizes ← times numStreams readUint64
    let prop ← readByte
    let (crcs,prop) ← optional 0x0a (readCrcs numStreams) prop
    pure (sizes,crcs.getD (List.replicate numStreams none),prop)
  else pure (List.replicate numStreams 0,List.replicate numStreams none,prop)

def parsePackInfo : Parser PackInfo := do
  let packPos ← readUint64
  let numStreams ← readUint64
  if numStreams > 1000000 then throw "Unreasonable pack streams"
  else do
    let (sizes,crcs,prop) ← parsePackSizes numStreams
    expectEnd prop ⟨packPos,sizes,crcs⟩

structure Coder where
  method : Bytes
  numInStreams : ℕ
  numOutStreams : ℕ
  properties : Option Bytes
  deriving DecidableEq

structure Folder where
  coders : List Coder
  bindPairs : List (ℕ × ℕ)
  packedIndices : List ℕ
  unpackSizes : List ℕ
  crc : Option ℕ
  deriving DecidableEq

namespace Folder

variable (folder : Folder)

def getUnpackSize : ℕ := folder.unpackSizes.getLast?.getD 0

def totalInStreams : ℕ := (folder.coders.map Coder.numInStreams).sum

def totalOutStreams : ℕ := (folder.coders.map Coder.numOutStreams).sum

/-- How many pack streams the entries count for the folder. -/
def packStreams : ℕ := if folder.packedIndices = [] then 1 else folder.packedIndices.length

end Folder

def methodCopy : Bytes := [0x00]

def parseStreamCounts (isComplex : Bool) : Parser (ℕ × ℕ) :=
  if isComplex = true then do
    let numIn ← readUint64
    let numOut ← readUint64
    pure (numIn,numOut)
  else pure (1,1)

def parseProperties (hasAttrs : Bool) : Parser (Option Bytes) :=
  if hasAttrs = true then do
    let size ← readUint64
    let bytes ← readExact size
    pure (some bytes)
  else pure none

def parseCoder : Parser Coder := do
  let flags ← readByte
  let methodSize := flags.toNat % 16
  if flags.toNat.testBit 7 = true then throw "Unsupported coder flag bit 0x80"
  else do
    let method ← if methodSize = 0 then pure methodCopy else readExact methodSize
    let (numIn,numOut) ← parseStreamCounts (flags.toNat.testBit 4)
    let properties ← parseProperties (flags.toNat.testBit 5)
    pure ⟨method,numIn,numOut,properties⟩

def readPair : Parser (ℕ × ℕ) := do
  let inIndex ← readUint64
  let outIndex ← readUint64
  pure (inIndex,outIndex)

/-- A single packed stream is the first input that no pair binds. -/
def parsePacked (totalIn : ℕ) (bindPairs : List (ℕ × ℕ)) : Parser (List ℕ) :=
  let numPacked := totalIn - bindPairs.length
  if numPacked = 1 then
    pure ((List.range totalIn).find? fun i => i ∉ bindPairs.map Prod.fst).toList
  else times numPacked readUint64

def parseFolder : Parser Folder := do
  let numCoders ← readUint64
  if numCoders = 0 ∨ numCoders > 64 then throw "Unreasonable coders"
  else do
    let coders ← times numCoders parseCoder
    let bindPairs ← times ((coders.map Coder.numOutStreams).sum - 1) readPair
    let packed ← parsePacked (coders.map Coder.numInStreams).sum bindPairs
    pure ⟨coders,bindPairs,packed,[],none⟩

def readUnpackSizes (folder : Folder) : Parser Folder := do
  let sizes ← times folder.totalOutStreams readUint64
  pure { folder with unpackSizes := sizes }

def parseUnpackInfo : Parser (List Folder) := do
  let prop ← readByte
  if prop ≠ 0x0b then throw "Expected FOLDER"
  else do
    let numFolders ← readUint64
    if numFolders > 1000000 then throw "Unreasonable folders"
    else do
      let external ← readByte
      if external ≠ 0 then throw "External folder data is not supported"
      else do
        let folders ← times numFolders parseFolder
        let prop ← readByte
        if prop ≠ 0x0c then throw "Expected CODERS_UNPACK_SIZE"
        else do
          let folders ← each readUnpackSizes folders
          let prop ← readByte
          let (crcs,prop) ← optional 0x0a (readCrcs numFolders) prop
          expectEnd prop (folders.zipWith (fun folder crc => { folder with crc := crc })
            (crcs.getD (List.replicate numFolders none)))

structure SubstreamsInfo where
  numUnpackStreams : List ℕ
  unpackSizes : List ℕ
  digests : List (Option ℕ)
  deriving DecidableEq

/-- The sizes of a folder's substreams but the last one, which is what is left. -/
def readSubstreamSizes (folder : Folder × ℕ) : Parser (List ℕ) := do
  let sizes ← times (folder.2 - 1) readUint64
  pure (sizes ++ [folder.1.getUnpackSize - sizes.sum % 2 ^ 64])

/-- Without sizes every folder has to have one substream. -/
def wholeFolder (folder : Folder × ℕ) : Parser (List ℕ) :=
  if folder.2 = 1 then pure [folder.1.getUnpackSize] else throw "Missing Substreams SIZE for multi-stream folder"

def hasOwnDigest (folder : Folder × ℕ) : Bool := folder.2 = 1 ∧ folder.1.crc.isSome

/-- The digests in their places, and the folder's own one where it has only one substream. -/
def spreadDigests : List (Folder × ℕ) → List (Option ℕ) → List (Option ℕ)
  | [], _ => []
  | folder :: folders, crcs =>
    if hasOwnDigest folder = true then folder.1.crc :: spreadDigests folders crcs
    else crcs.take folder.2 ++ spreadDigests folders (crcs.drop folder.2)

def numDigests (folders : List (Folder × ℕ)) : ℕ :=
  (folders.map fun folder => if hasOwnDigest folder = true then 0 else folder.2).sum

/-- The sizes of all substreams and the id of the next property. -/
def parseSubstreamSizes (counted : List (Folder × ℕ)) (prop : UInt8) : Parser (List ℕ × UInt8) :=
  if prop = 0x09 then do
    let sizes ← each readSubstreamSizes counted
    let prop ← readByte
    pure (sizes.flatten,prop)
  else do
    let sizes ← each wholeFolder counted
    pure (sizes.flatten,prop)

def substreamDigests (counted : List (Folder × ℕ)) : Option (List (Option ℕ)) → List (Option ℕ)
  | some crcs => spreadDigests counted crcs
  | none => List.replicate (counted.map Prod.snd).sum none

def parseSubstreamsInfo (folders : List Folder) : Parser SubstreamsInfo := do
  let prop ← readByte
  let (counts,prop) ← optional 0x0d (times folders.length readUint64) prop
  let counted := folders.zip (counts.getD (List.replicate folders.length 1))
  let (sizes,prop) ← parseSubstreamSizes counted prop
  let (crcs,prop) ← optional 0x0a (readCrcs (numDigests counted)) prop
  expectEnd prop ⟨counted.map Prod.snd,sizes,substreamDigests counted crcs⟩

structure StreamsInfo where
  packInfo : Option PackInfo
  folders : List Folder
  substreams : Option SubstreamsInfo
  deriving DecidableEq

def wholeFolders (folders : List Folder) : Option SubstreamsInfo :=
  if folders = [] then none
  else some ⟨List.replicate folders.length 1,folders.map Folder.getUnpackSize,folders.map Folder.crc⟩

def parseStreamsInfo : Parser StreamsInfo := do
  let prop ← readByte
  let (packInfo,prop) ← optional 0x06 parsePackInfo prop
  let (folders,prop) ← optional 0x07 parseUnpackInfo prop
  let folders := folders.getD []
  let (substreams,prop) ← optional 0x08 (parseSubstreamsInfo folders) prop
  expectEnd prop ⟨packInfo,folders,substreams.or (wholeFolders folders)⟩

end Streams

section Files

structure RawFile where
  emptystream : Bool
  filename : List ℕ
  mtime : ℕ
  attributes : Option ℕ
  deriving DecidableEq

structure RawFiles where
  files : List RawFile
  emptyFiles : List Bool
  antiFiles : List Bool
  deriving DecidableEq

def slashes (name : List ℕ) : List ℕ := name.map fun unit => if unit = 0x5c then 0x2f else unit

def notExternal {α : Type} (external : UInt8) (a : α) : Parser α := if external = 0 then pure a else throw "External data not supported"

/-- Numbers of this width for the files that have one. -/
def readPerFile (numFiles width : ℕ) : Parser (List (Option ℕ)) := do
  let defined ← readBools numFiles true
  let external ← readByte
  let defined ← notExternal external defined
  readDefined width defined

def applyProperty (raw : RawFiles) (prop : UInt8) : Parser RawFiles :=
  let numFiles := raw.files.length
  let numEmpty := (raw.files.filter RawFile.emptystream).length
  if prop = 0x0e then do
    let defined ← readBools numFiles false
    let empty := List.replicate (defined.filter id).length false
    pure ⟨raw.files.zipWith (fun file e => { file with emptystream := e }) defined,empty,empty⟩
  else if prop = 0x0f then do
    let emptyFiles ← readBools numEmpty false
    pure { raw with emptyFiles := emptyFiles }
  else if prop = 0x10 then do
    let antiFiles ← readBools numEmpty false
    pure { raw with antiFiles := antiFiles }
  else if prop = 0x11 then do
    let external ← readByte
    let numFiles ← notExternal external numFiles
    let names ← times numFiles readUtf16z
    pure { raw with files := raw.files.zipWith (fun file name => { file with filename := slashes name }) names }
  else if prop = 0x14 ∨ prop = 0x12 ∨ prop = 0x13 then do
    let stamps ← readPerFile numFiles 8
    if prop = 0x14 then
      pure { raw with files := raw.files.zipWith (fun file stamp => { file with mtime := stamp.getD file.mtime }) stamps }
    else pure raw
  else if prop = 0x15 then do
    let attributes ← readPerFile numFiles 4
    pure { raw with files := raw.files.zipWith (fun file a => { file with attributes := a.or file.attributes }) attributes }
  else if prop = 0x18 then do
    let _ ← readPerFile numFiles 8
    pure raw
  else pure raw

/-- The payload is read on its own. -/
def parseProperty (raw : RawFiles) (prop : UInt8) : Parser RawFiles := do
  let size ← readUint64
  let payload ← readExact size
  match applyProperty raw prop payload with
  | .ok (raw,_) => pure raw
  | .error e => throw e

def parseFileProperties : ℕ → RawFiles → Parser RawFiles
  | 0, _ => throw "Unexpected end of 7z data"
  | turns + 1, raw => do
    let prop ← readByte
    if prop = 0x00 then pure raw
    else do
      let raw ← parseProperty raw prop
      parseFileProperties turns raw

def parseFilesInfo : Parser RawFiles := do
  let numFiles ← readUint64
  if numFiles > 10000000 then throw "Unreasonable files"
  else do
    let data ← get
    parseFileProperties (data.length + 1) ⟨List.replicate numFiles ⟨false,[],0,none⟩,[],[]⟩

def parseUnpackedHeader : Parser (Option StreamsInfo × RawFiles) := do
  let prop ← readByte
  let (streams,prop) ← optional 0x04 parseStreamsInfo prop
  let (files,prop) ← optional 0x05 parseFilesInfo prop
  expectEnd prop (streams,files.getD ⟨[],[],[]⟩)

end Files

section Entries

structure Entry where
  path : List ℕ
  size : ℕ
  mtime : ℕ
  mode : ℕ
  isDir : Bool
  isEmptyStream : Bool
  isEmptyFile : Bool
  folderIndex : Option ℕ
  unpackOffset : ℕ
  packOffset : ℕ
  packSize : ℕ
  packStreamIndex : ℕ
  crc : Option ℕ
  deriving DecidableEq

def attributesToMode (attributes : Option ℕ) (isDir : Bool) : ℕ :=
  let plain := if isDir = true then 0o040755 else 0o100644
  match attributes with
  | none => plain
  | some attrs =>
    let unix := attrs / 2 ^ 16
    if unix = 0 then plain
    else if unix &&& 0o170000 = 0o120000 then (unix &&& 0o777) ||| 0o120000
    else if unix &&& 0o7777 ≠ 0 then (unix &&& 0o7777) ||| (if isDir = true then 0o040000 else 0o100000)
    else plain

def isDirectoryEntry (filename : List ℕ) (attributes : Option ℕ) (isEmptyStream isEmptyFile : Bool) : Bool :=
  attributes.any (fun a => a.testBit 4) || filename.getLast? = some 0x2f || (isEmptyStream && !isEmptyFile)

def trimSlashes (name : List ℕ) : List ℕ := (name.reverse.dropWhile (· = 0x2f)).reverse

def emptyEntry (raw : RawFile) (isDir isEmptyFile : Bool) : Entry where
  path := trimSlashes raw.filename
  size := 0
  mtime := raw.mtime
  mode := attributesToMode raw.attributes isDir
  isDir := isDir
  isEmptyStream := raw.emptystream
  isEmptyFile := isEmptyFile
  folderIndex := none
  unpackOffset := 0
  packOffset := 0
  packSize := 0
  packStreamIndex := 0
  crc := none

/-- One substream: its folder, where it lies in it, its size and the folder's first pack stream. -/
structure Stream where
  folderIndex : ℕ
  unpackOffset : ℕ
  size : ℕ
  packStreamIndex : ℕ
  deriving DecidableEq

def folderStreams (sizes : List ℕ) (folderIndex packCursor : ℕ) : ℕ → ℕ → ℕ → Except String (List Stream)
  | 0, _, _ => .ok []
  | n + 1, sizeCursor, unpackOffset =>
    match sizes[sizeCursor]? with
    | none => .error "index out of range"
    | some size => do
      let streams ← folderStreams sizes folderIndex packCursor n (sizeCursor + 1) ((unpackOffset + size) % 2 ^ 64)
      .ok (⟨folderIndex,unpackOffset,size,packCursor⟩ :: streams)

def streamMap (sizes : List ℕ) : List (Folder × ℕ) → ℕ → ℕ → ℕ → Except String (List Stream)
  | [], _, _, _ => .ok []
  | (folder,numStreams) :: folders, folderIndex, sizeCursor, packCursor => do
    let streams ← folderStreams sizes folderIndex packCursor numStreams sizeCursor 0
    let more ← streamMap sizes folders (folderIndex + 1) (sizeCursor + numStreams) (packCursor + folder.packStreams)
    .ok (streams ++ more)

def plainEntries (emptyFiles : List Bool) : List RawFile → ℕ → List Entry
  | [], _ => []
  | raw :: files, emptyIndex =>
    let isEmptyFile := raw.emptystream && emptyFiles.getD emptyIndex false
    let isDir := isDirectoryEntry raw.filename raw.attributes raw.emptystream isEmptyFile
    emptyEntry raw isDir isEmptyFile ::
      plainEntries emptyFiles files (if raw.emptystream = true then emptyIndex + 1 else emptyIndex)

def streamEntry (packInfo : PackInfo) (folders : List Folder) (digests : List (Option ℕ)) (afterHeader : ℕ) (raw : RawFile)
    (streamIndex : ℕ) (stream : Stream) : Except String Entry :=
  match folders[stream.folderIndex]?, packInfo.packPositions[stream.packStreamIndex]? with
  | some folder, some position =>
    if stream.packStreamIndex + folder.packStreams ≤ packInfo.packSizes.length then
      .ok
        { path := trimSlashes raw.filename
          size := stream.size
          mtime := raw.mtime
          mode := attributesToMode raw.attributes false
          isDir := false
          isEmptyStream := false
          isEmptyFile := false
          folderIndex := some stream.folderIndex
          unpackOffset := stream.unpackOffset
          packOffset := (afterHeader + packInfo.packPos + position) % 2 ^ 64
          packSize := ((packInfo.packSizes.drop stream.packStreamIndex).take folder.packStreams).sum % 2 ^ 64
          packStreamIndex := stream.packStreamIndex
          crc := (digests[streamIndex]?).join }
    else .error "index out of range"
  | _, _ => .error "index out of range"

def fileEntries (emptyFiles : List Bool) (streams : List Stream) (place : RawFile → ℕ → Stream → Except String Entry) :
    List RawFile → ℕ → ℕ → Except String (List Entry)
  | [], _, _ => .ok []
  | raw :: files, emptyIndex, streamIndex =>
    let isEmptyFile := raw.emptystream && emptyFiles.getD emptyIndex false
    let isDir := isDirectoryEntry raw.filename raw.attributes raw.emptystream isEmptyFile
    if raw.emptystream = true ∨ isDir = true then do
      let entries ← fileEntries emptyFiles streams place files
        (if raw.emptystream = true then emptyIndex + 1 else emptyIndex) streamIndex
      .ok (emptyEntry raw (isDir || (raw.emptystream && !isEmptyFile)) isEmptyFile :: entries)
    else
      match streams[streamIndex]? with
      | none => .error "More non-empty files than unpack streams"
      | some stream => do
        let entry ← place raw streamIndex stream
        let entries ← fileEntries emptyFiles streams place files emptyIndex (streamIndex + 1)
        .ok (entry :: entries)

def buildFileEntries (raw : RawFiles) (streams : Option StreamsInfo) (afterHeader : ℕ) : Except String (List Entry × Bool) :=
  match streams.bind StreamsInfo.packInfo, streams with
  | some packInfo, some streams =>
    match streams.substreams with
    | none => .error "missing substreams"
    | some substreams => do
      let counted := streams.folders.zip substreams.numUnpackStreams
      let map ← streamMap substreams.unpackSizes counted 0 0 0
      let entries ← fileEntries raw.emptyFiles map
        (streamEntry packInfo streams.folders substreams.digests afterHeader) raw.files 0 0
      .ok (entries,counted.any fun folder => folder.2 > 1)
  | _, _ => .ok (plainEntries raw.emptyFiles raw.files 0,false)

def parseHeader (data : Bytes) (afterHeader : ℕ) : Except String (List Entry × Bool) := do
  let (header,_) ← parseUnpackedHeader data
  buildFileEntries header.2 header.1 afterHeader

end Entries

end Ratarmount.SevenZip
