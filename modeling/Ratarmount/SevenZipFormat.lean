import Ratarmount.SevenZipHeader

/-!
# Descriptions of 7z archives

What a 7z header describes, how it is encoded, and where each file's content lies. The
writer may leave sections out where the format says what is meant without them.
-/

namespace Ratarmount.SevenZip

section Encoding

/-- `extra` bytes behind the first one, which has as many ones and the highest bits of the number. -/
def writeNumberIn (extra n : ℕ) : Bytes :=
  if extra = 8 then 0xff :: Bytes.le 8 n
  else UInt8.ofNat (256 - 2 ^ (8 - extra) + n / 2 ^ (8 * extra)) :: Bytes.le extra n

def writeNumber (n : ℕ) : Bytes := writeNumberIn (((List.range 8).find? fun extra => n < 2 ^ (7 * (extra + 1))).getD 8) n

def writeDefined {α : Type} (values : List (Option α)) : Bytes :=
  if values.all Option.isSome = true then [1] else 0 :: Bits.pack (values.map Option.isSome)

def writeValues (width : ℕ) (values : List (Option ℕ)) : Bytes := (values.filterMap id).flatMap (Bytes.le width)

def writeCrcs (crcs : List (Option ℕ)) : Bytes := writeDefined crcs ++ writeValues 4 crcs

def writePerFile (width : ℕ) (values : List (Option ℕ)) : Bytes := writeDefined values ++ ([0] ++ writeValues width values)

/-- The id of a section that is there, with the section, or nothing. -/
def writeSection (written : Bool) (id : UInt8) (body : Bytes) : Bytes := if written = true then id :: body else []

end Encoding

section Descriptions

structure Substream where
  size : ℕ
  crc : Option ℕ
  deriving DecidableEq

structure FolderSpec extends Folder where
  substreams : List Substream
  deriving DecidableEq

structure FileSpec where
  name : List ℕ
  hasStream : Bool
  emptyFile : Bool
  anti : Bool
  mtime : Option ℕ
  attributes : Option ℕ
  deriving DecidableEq

structure Spec where
  packPos : ℕ
  packSizes : List ℕ
  packCrcs : Option (List (Option ℕ))
  folders : List FolderSpec
  files : List FileSpec
  streamsWritten : Bool
  folderCrcsWritten : Bool
  substreamsWritten : Bool
  countsWritten : Bool
  sizesWritten : Bool
  digestsWritten : Bool
  /-- The properties of the files as they are written, with those that say nothing about the content. -/
  properties : List (UInt8 × Bytes)
  deriving DecidableEq

def encodeCoder (coder : Coder) : Bytes :=
  let complex := coder.numInStreams ≠ 1 ∨ coder.numOutStreams ≠ 1
  [UInt8.ofNat (coder.method.length + (if complex then 16 else 0) + (if coder.properties.isSome = true then 32 else 0))] ++
    (coder.method ++
      ((if complex then writeNumber coder.numInStreams ++ writeNumber coder.numOutStreams else []) ++
        (match coder.properties with
        | some properties => writeNumber properties.length ++ properties
        | none => [])))

def encodePair (pair : ℕ × ℕ) : Bytes := writeNumber pair.1 ++ writeNumber pair.2

/-- A single packed stream is not written. -/
def encodeFolder (folder : Folder) : Bytes :=
  writeNumber folder.coders.length ++ (folder.coders.flatMap encodeCoder ++ (folder.bindPairs.flatMap encodePair ++
    (if folder.packedIndices.length = 1 then [] else folder.packedIndices.flatMap writeNumber)))

namespace FolderSpec

variable (folder : FolderSpec)

def sizes : List ℕ := folder.substreams.map Substream.size

def digests : List (Option ℕ) :=
  if folder.substreams.length = 1 ∧ folder.crc.isSome = true then [] else folder.substreams.map Substream.crc

/-- The output streams that no bind pair consumes. -/
def unbound : List ℕ := (List.range folder.totalOutStreams).filter fun i => i ∉ folder.bindPairs.map Prod.snd

/-- The size of the output stream that no bind pair consumes. -/
def size : ℕ := (folder.unbound.head?.bind fun i => folder.unpackSizes[i]?).getD 0

end FolderSpec

namespace Spec

variable (spec : Spec)

def encodePackInfo : Bytes :=
  writeNumber spec.packPos ++ (writeNumber spec.packSizes.length ++ ([0x09] ++ (spec.packSizes.flatMap writeNumber ++
    (writeSection spec.packCrcs.isSome 0x0a (writeCrcs (spec.packCrcs.getD [])) ++ [0x00]))))

def encodeUnpackInfo : Bytes :=
  [0x0b] ++ (writeNumber spec.folders.length ++ ([0x00] ++ (spec.folders.flatMap (fun folder => encodeFolder folder.toFolder) ++
    ([0x0c] ++ (spec.folders.flatMap (fun folder => folder.unpackSizes.flatMap writeNumber) ++
      (writeSection spec.folderCrcsWritten 0x0a (writeCrcs (spec.folders.map fun folder => folder.crc)) ++ [0x00]))))))

def encodeSubstreamsInfo : Bytes :=
  writeSection spec.countsWritten 0x0d (spec.folders.flatMap fun folder => writeNumber folder.substreams.length) ++
    (writeSection spec.sizesWritten 0x09 (spec.folders.flatMap fun folder => folder.sizes.dropLast.flatMap writeNumber) ++
      (writeSection spec.digestsWritten 0x0a (writeCrcs (spec.folders.flatMap FolderSpec.digests)) ++ [0x00]))

def encodeStreamsInfo : Bytes :=
  [0x06] ++ (spec.encodePackInfo ++ ([0x07] ++ (spec.encodeUnpackInfo ++
    (writeSection spec.substreamsWritten 0x08 spec.encodeSubstreamsInfo ++ [0x00]))))

/-- The properties of the files that the entries are made of. -/
def fileProperties : List (UInt8 × Bytes) :=
  let empty := spec.files.filter fun file => !file.hasStream
  (if empty = [] then [] else [(0x0e,Bits.pack (spec.files.map fun file => !file.hasStream))]) ++
  (if empty.any FileSpec.emptyFile = true then [(0x0f,Bits.pack (empty.map FileSpec.emptyFile))] else []) ++
  (if empty.any FileSpec.anti = true then [(0x10,Bits.pack (empty.map FileSpec.anti))] else []) ++
  [(0x11,0 :: spec.files.flatMap fun file => file.name.flatMap (Bytes.le 2) ++ [0,0])] ++
  (if spec.files.any (fun file => file.mtime.isSome) = true then [(0x14,writePerFile 8 (spec.files.map FileSpec.mtime))]
    else []) ++
  (if spec.files.any (fun file => file.attributes.isSome) = true then
    [(0x15,writePerFile 4 (spec.files.map FileSpec.attributes))] else [])

def encodeProperty (property : UInt8 × Bytes) : Bytes := [property.1] ++ (writeNumber property.2.length ++ property.2)

def encodeFilesInfo : Bytes := writeNumber spec.files.length ++ (spec.properties.flatMap encodeProperty ++ [0x00])

def encode : Bytes :=
  writeSection spec.streamsWritten 0x04 spec.encodeStreamsInfo ++ ([0x05] ++ (spec.encodeFilesInfo ++ [0x00]))

end Spec

structure Placement where
  folder : ℕ
  unpackOffset : ℕ
  size : ℕ
  crc : Option ℕ
  packOffset : ℕ
  packSize : ℕ
  deriving DecidableEq

def placeSubstreams (folder packOffset packSize : ℕ) : List Substream → ℕ → List Placement
  | [], _ => []
  | substream :: substreams, unpackOffset =>
    ⟨folder,unpackOffset,substream.size,substream.crc,packOffset,packSize⟩ ::
      placeSubstreams folder packOffset packSize substreams (unpackOffset + substream.size)

def placeFolders : List FolderSpec → ℕ → ℕ → List ℕ → List Placement
  | [], _, _, _ => []
  | folder :: folders, index, packOffset, packSizes =>
    let mine := packSizes.take folder.packedIndices.length
    placeSubstreams index packOffset mine.sum folder.substreams 0 ++
      placeFolders folders (index + 1) (packOffset + mine.sum) (packSizes.drop folder.packedIndices.length)

/-- Each file with a stream gets the next placement. -/
def assign : List FileSpec → List Placement → List (List ℕ × Option Placement)
  | [], _ => []
  | file :: files, placements =>
    if file.hasStream = true then
      (trimSlashes (slashes file.name),placements.head?) :: assign files placements.tail
    else (trimSlashes (slashes file.name),none) :: assign files placements

def Spec.expected (spec : Spec) (afterHeader : ℕ) : List (List ℕ × Option Placement) :=
  assign spec.files (placeFolders spec.folders 0 (afterHeader + spec.packPos) spec.packSizes)

def Entry.placement (entry : Entry) : Option Placement :=
  entry.folderIndex.map fun folder =>
    ⟨folder,entry.unpackOffset,entry.size,entry.crc,entry.packOffset,entry.packSize⟩

/-- The entries of the encoded header are the files with their content, in order. -/
def MapsFiles (spec : Spec) (afterHeader : ℕ) : Prop :=
  ∃ entries solid, parseHeader spec.encode afterHeader = .ok (entries,solid) ∧
    entries.map (fun entry => (entry.path,entry.placement)) = spec.expected afterHeader

end Descriptions

section WellFormed

def IsU64 (n : ℕ) : Prop := n < 2 ^ 64

def IsU32 (n : ℕ) : Prop := n < 2 ^ 32

instance (n : ℕ) : Decidable (IsU64 n) := inferInstanceAs (Decidable (n < 2 ^ 64))

instance (n : ℕ) : Decidable (IsU32 n) := inferInstanceAs (Decidable (n < 2 ^ 32))

@[mk_iff]
structure CoderOk (coder : Coder) : Prop where
  method : 0 < coder.method.length ∧ coder.method.length < 16
  streams : IsU64 coder.numInStreams ∧ IsU64 coder.numOutStreams
  properties : ∀ properties, coder.properties = some properties → IsU64 properties.length

instance decidableForallSome {α : Type} (o : Option α) (P : α → Prop) [DecidablePred P] : Decidable (∀ a, o = some a → P a) :=
  inferInstanceAs (Decidable (∀ a ∈ o, P a))

instance (coder : Coder) : Decidable (CoderOk coder) := decidable_of_iff' _ (coderOk_iff coder)

/-- A coder graph with one output and at least one pack stream, and substreams that fill its output. -/
@[mk_iff]
structure FolderOk (folder : FolderSpec) : Prop where
  coders : ∀ coder ∈ folder.coders, CoderOk coder
  someCoder : folder.coders ≠ []
  bindPairs : folder.bindPairs.length = folder.totalOutStreams - 1
  pairs : ∀ pair ∈ folder.bindPairs, IsU64 pair.1 ∧ IsU64 pair.2
  output : ∃ i, folder.unbound = [i]
  packed : folder.packedIndices ≠ [] ∧ folder.packedIndices.length = folder.totalInStreams - folder.bindPairs.length
  packedIndices : ∀ i ∈ folder.packedIndices, IsU64 i
  /-- A single packed stream is the first input that no pair binds. -/
  single : folder.packedIndices.length = 1 →
    folder.packedIndices = ((List.range folder.totalInStreams).find? fun i => i ∉ folder.bindPairs.map Prod.fst).toList
  unpackSizes : folder.unpackSizes.length = folder.totalOutStreams ∧ ∀ size ∈ folder.unpackSizes, IsU64 size
  sizes : folder.substreams ≠ [] → folder.sizes.sum = folder.size
  counted : IsU64 folder.coders.length ∧ IsU64 folder.substreams.length
  crc : ∀ crc, folder.crc = some crc → IsU32 crc
  ownCrc : ∀ substream, folder.substreams = [substream] → folder.crc.isSome = true → substream.crc = folder.crc
  digests : ∀ substream ∈ folder.substreams, ∀ crc, substream.crc = some crc → IsU32 crc

@[mk_iff]
structure FileOk (file : FileSpec) : Prop where
  name : ∀ unit ∈ file.name, 0 < unit ∧ unit < 2 ^ 16
  mtime : ∀ mtime, file.mtime = some mtime → IsU64 mtime
  attributes : ∀ attributes, file.attributes = some attributes → IsU32 attributes

instance decidableSingleton {α : Type} (xs : List α) : Decidable (∃ x, xs = [x]) := decidable_of_iff _ List.length_eq_one_iff

instance decidableForallSingleton {α : Type} (P : α → Prop) [DecidablePred P] : (xs : List α) → Decidable (∀ x, xs = [x] → P x)
  | [] => isTrue nofun
  | [y] => decidable_of_iff (P y) ⟨fun h _ hx => List.singleton_inj.mp hx ▸ h,fun h => h y rfl⟩
  | _ :: _ :: _ => isTrue nofun

instance (folder : FolderSpec) : Decidable (FolderOk folder) := decidable_of_iff' _ (folderOk_iff folder)

instance (file : FileSpec) : Decidable (FileOk file) := decidable_of_iff' _ (fileOk_iff file)

/-- A property that says nothing about the content: a time or a start position, or one that is not known. -/
def Skipped (numFiles : ℕ) (property : UInt8 × Bytes) : Prop :=
  (property.1 ∈ [0x12,0x13,0x18] ∧ ∃ values : List (Option ℕ), values.length = numFiles ∧
    (∀ value, some value ∈ values → IsU64 value) ∧ property.2 = writePerFile 8 values) ∨
  property.1 ∉ [0x00,0x0e,0x0f,0x10,0x11,0x12,0x13,0x14,0x15,0x18]

/-- The second list with others put between. -/
inductive Woven {α : Type} (other : α → Prop) : List α → List α → Prop
  | nil : Woven other [] []
  | skip {x : α} {xs ys : List α} : other x → Woven other xs ys → Woven other (x :: xs) ys
  | take {x : α} {xs ys : List α} : Woven other xs ys → Woven other (x :: xs) (x :: ys)

structure WellFormed (spec : Spec) : Prop where
  packPos : IsU64 spec.packPos
  packSizes : IsU64 spec.packSizes.length ∧ ∀ size ∈ spec.packSizes, IsU64 size
  packCrcs : ∀ crcs, spec.packCrcs = some crcs → crcs.length = spec.packSizes.length ∧ ∀ crc, some crc ∈ crcs → IsU32 crc
  folders : IsU64 spec.folders.length ∧ ∀ folder ∈ spec.folders, FolderOk folder
  packStreams : (spec.folders.map fun folder => folder.packedIndices.length).sum ≤ spec.packSizes.length
  files : IsU64 spec.files.length ∧ ∀ file ∈ spec.files, FileOk file
  streams : (spec.files.filter FileSpec.hasStream).length = (spec.folders.map fun folder => folder.substreams.length).sum
  properties : Woven (Skipped spec.files.length) spec.properties spec.fileProperties ∧
    ∀ property ∈ spec.properties, IsU64 property.2.length
  -- what is not written is what the format takes for it
  noStreams : spec.streamsWritten = false → spec.folders = []
  noFolderCrcs : spec.folderCrcsWritten = false → ∀ folder ∈ spec.folders, folder.crc = none
  noSubstreams : spec.substreamsWritten = false →
    ∀ folder ∈ spec.folders, ∃ substream, folder.substreams = [substream] ∧ substream.crc = folder.crc
  noCounts : spec.countsWritten = false → ∀ folder ∈ spec.folders, folder.substreams.length = 1
  noSizes : spec.sizesWritten = false → ∀ folder ∈ spec.folders, folder.substreams.length ≤ 1
  noDigests : spec.digestsWritten = false → ∀ folder ∈ spec.folders, ∀ crc ∈ folder.digests, crc = none

end WellFormed

end Ratarmount.SevenZip
