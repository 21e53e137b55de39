import Ratarmount.ExceptRuns
import Ratarmount.TarPax

/-!
# The header walk of the indexer

The loop that `parse_tar_from` runs over a whole stream and `walk_tar_region`
over the payload of a nested TAR. It reads headers, keeps the PAX state and
returns each member with what the index stores of it.
-/

namespace Ratarmount.Tar

structure IndexOptions where
  encoding : Encoding
  ignoreZeros : Bool
  recursionDepth : Option ℤ
  recursive : Bool

namespace PaxKey

def sparseSize : Str := "GNU.sparse.size".toList
def sparseRealsize : Str := "GNU.sparse.realsize".toList
def sparseMap : Str := "GNU.sparse.map".toList
def sparseMajor : Str := "GNU.sparse.major".toList

end PaxKey

structure Found where
  name : Str
  headerStart : ℕ
  dataOff : ℕ
  logicalSize : ℕ
  modeBits : ℕ
  uid : ℕ
  gid : ℕ
  typeflag : UInt8
  linkname : Str
  issparse : Bool
  istar : Bool
  xattrs : Xattrs
  dumpdir : Bytes

structure Walk where
  pos : ℕ
  paxGlobal : PaxMap := PaxMap.empty
  globalXattrs : Xattrs := []
  pending : PaxParsed := PaxParsed.empty
  paxHeaderStart : Option ℕ := none
  gnu : Bool

inductive WalkTurn
  | stop (w : Walk)
  | again (w : Walk)
  | found (f : Found) (w : Walk)

/-- Where a walk may read: a nested region ends before the stream does, and a walk from `start` must not
seek below it. -/
structure WalkBounds where
  start : ℕ
  regionEnd : Option ℕ

def WalkBounds.within (b : WalkBounds) (n : ℕ) : Bool :=
  match b.regionEnd with
  | none => true
  | some e => n ≤ e

def wholeStream : WalkBounds := { start := 0, regionEnd := none }

theorem within_wholeStream (n : ℕ) : wholeStream.within n=true := rfl

/-- `PrefixSeekGuard::seek`. -/
def seekGuard (start n : ℕ) : Except TarError Unit :=
  if 2 ^ 63 ≤ n then .error (.invalidInput "seek before start")
  else if 0 < start ∧ n < start then
    .error (.invalidInput s!"incremental TAR parse must not seek to {n} (below window start {start})")
  else .ok ()

/-- `read_tar_header` at `pos`: nothing at the end of the stream. -/
def readTarHeader (data : Bytes) (pos : ℕ) : Except TarError (Option Bytes) :=
  let header := data.slice pos blockSize
  if header = [] then .ok none
  else if header.length < blockSize then
    .error (.unexpectedEof s!"truncated TAR header: {header.length} of 512 bytes")
  else .ok (some header)

def readExact (data : Bytes) (pos len : ℕ) : Except TarError Bytes :=
  if (data.slice pos len).length < len then .error (.unexpectedEof "failed to fill whole buffer")
  else .ok (data.slice pos len)

def isRegularTarMember (flag : UInt8) (name : Str) : Bool :=
  name.getLast? ≠ some '/' ∧
    flag ∉ ([49,50,51,52,53,54,68,83,76,75,120,103,88] : List UInt8)

def asciiLower (c : Char) : Char := if 65 ≤ c.toNat ∧ c.toNat ≤ 90 then Char.ofNat (c.toNat + 32) else c

def nameLooksLikeTar (name : Str) : Bool := ".tar".toList <:+ name.map asciiLower

def peekTarMagicAt (data : Bytes) (dataOff : ℕ) : Bool :=
  let magic := data.slice (dataOff + 257) 5
  magic = [117,115,116,97,114] ∨ magic = [71,78,85,32,32]

def isOctalDigit (c : Char) : Bool := 48 ≤ c.toNat ∧ c.toNat ≤ 55

/-- The timestamp component of an incremental name goes when the ustar field repeats it. -/
def fixIncrementalBackupNamePrefixes (name : Str) (header : Bytes) : Str :=
  let front := name.takeWhile (· ≠ '/')
  let rest := name.drop (front.length + 1)
  let raw := header.slice 345 155
  if '/' ∈ name ∧ front ≠ [] ∧ front.all isOctalDigit = true ∧ Utf8.encode front <+: raw ∧
      raw[(Utf8.encode front).length]? = some 0 then rest
  else name

/-- Decimal text as the sparse maps have it: `0` where it is no number. -/
def mapNumber (bs : Bytes) : ℕ :=
  (parseU64 (ArchivePath.trim ((Utf8.decodeStrict bs).getD ['0']))).getD 0

/-- The pairs of a sparse 1.0 map from `pos` on, and the position behind them. -/
def sparse10Pairs (buf : Bytes) : ℕ → ℕ → List (ℕ × ℕ) → List (ℕ × ℕ) × ℕ
  | 0, pos, acc => (acc,pos)
  | count + 1, pos, acc =>
    match (buf.drop pos).findIdx? (· = 10) with
    | none => (acc,pos)
    | some n1 =>
      match (buf.drop (pos + n1 + 1)).findIdx? (· = 10) with
      | none => (acc,pos + n1 + 1)
      | some n2 =>
        let off := mapNumber (buf.slice pos n1)
        let len := mapNumber (buf.slice (pos + n1 + 1) n2)
        sparse10Pairs buf count (pos + n1 + 1 + n2 + 1) (if off ≠ 0 ∨ len ≠ 0 then acc ++ [(off,len)] else acc)

/-- `parse_sparse_1_0_map` on the bytes that one read returned. -/
def parseSparse10Map (buf : Bytes) (dataStart : ℕ) : Except TarError (List (ℕ × ℕ) × ℕ) :=
  match buf.findIdx? (· = 10) with
  | none => .error (.invalidData "sparse 1.0 map missing count")
  | some nl =>
    let count := mapNumber (buf.take nl)
    -- `Vec::with_capacity` panics when the buffer would pass `isize::MAX` bytes
    if 2 ^ 63 ≤ count * 16 then .error .panicked
    else
      let (map,pos) := sparse10Pairs buf (min count (buf.length + 1)) (nl + 1) []
      .ok (map,dataStart + pad512 pos)

/-- The blocks with the rest of an old-GNU sparse map: where the data begins. -/
def skipExtensions (data : Bytes) (b : WalkBounds) : ℕ → Bool → ℕ → Except TarError ℕ
  | _, false, off => .ok off
  | 0, true, _ => .error .diverged
  | fuel + 1, true, off =>
    if b.within (off + blockSize) then do
      let ext ← readExact data off blockSize
      skipExtensions data b fuel (ext.getD 504 0 ≠ 0) (off + blockSize)
    else .ok off

section Turn

variable (opts : IndexOptions) (data : Bytes) (b : WalkBounds)

/-- The name, size and data position of a member as the sparse formats may change them. -/
structure Extent where
  name : Str
  issparse : Bool
  logicalSize : ℕ
  dataOff : ℕ
  onTape : ℕ

/-- The old-GNU sparse format, typeflag `S`. -/
def oldGnuExtent (pos : ℕ) (header : Bytes) (name : Str) : Except TarError Extent :=
  let size := sizeField header
  let dataOff := u64 (pos + blockSize)
  if typeflag header = 83 then do
    let off ← skipExtensions data b (data.length / blockSize + 1) (header.getD 482 0 ≠ 0) dataOff
    return { name, issparse := true, logicalSize := (parseOctal (header.slice 483 12)).getD size, dataOff := off,
             onTape := size }
  else return { name, issparse := false, logicalSize := size, dataOff, onTape := size }

def isPaxSparse (pax : PaxMap) (pairs : List (ℕ × ℕ)) : Bool :=
  (pax PaxKey.sparseSize).isSome || (pax PaxKey.sparseRealsize).isSome || (pax PaxKey.sparseMap).isSome ||
    pax PaxKey.sparseMajor = some ['1'] || pairs ≠ []

/-- The PAX sparse formats 0.0, 0.1 and 1.0. -/
def paxSparseExtent (pax : PaxMap) (pairs : List (ℕ × ℕ)) (size : ℕ) (e : Extent) : Except TarError Extent :=
  if isPaxSparse pax pairs then
    let name := (pax PaxKey.sparseName).getD e.name
    let logicalSize := (((pax PaxKey.sparseRealsize).or (pax PaxKey.sparseSize)).bind parseU64).getD size
    if pax PaxKey.sparseMajor = some ['1'] then
      match b.regionEnd with
      | none => do
        let (_,contentOff) ← parseSparse10Map (data.slice e.dataOff (512 * 64)) e.dataOff
        return { name, issparse := true, logicalSize, dataOff := contentOff, onTape := size }
      | some regionEnd =>
        if e.dataOff < regionEnd then do
          let (_,contentOff) ← parseSparse10Map (data.slice e.dataOff (512 * 64)) e.dataOff
          return { name, issparse := true, logicalSize, dataOff := min contentOff regionEnd, onTape := size }
        else return { name, issparse := true, logicalSize, dataOff := e.dataOff, onTape := size }
    else return { name, issparse := true, logicalSize, dataOff := e.dataOff, onTape := size }
  else return e

/-- A plain PAX `size` on a member that is not sparse. -/
def plainSizeExtent (pax : PaxMap) (flag : UInt8) (e : Extent) : Extent :=
  if !e.issparse && isRegularTarMember flag e.name then
    match (pax PaxKey.size).bind parseU64 with
    | some n => { e with logicalSize := n, onTape := n }
    | none => e
  else e

def contains (text s : Str) : Bool := text <:+: s

def isPlaceholder (name : Str) : Bool := contains "PaxHeaders/".toList name

/-- Whether the member's data are taken for a TAR. -/
def looksNested (flag : UInt8) (e : Extent) : Bool :=
  !e.issparse && isRegularTarMember flag e.name && blockSize ≤ e.logicalSize &&
    b.within (e.dataOff + min e.logicalSize blockSize) &&
    (nameLooksLikeTar e.name || peekTarMagicAt data e.dataOff)

/-- The records in force for the next member. -/
def Walk.pax (w : Walk) : PaxMap := w.paxGlobal.extend w.pending.map

def Walk.gnuAfter (w : Walk) (header : Bytes) : Bool := w.gnu || typeflag header = 68

def Walk.headerName (w : Walk) (header : Bytes) : Str :=
  let name := memberName opts.encoding w.pax header
  if w.gnuAfter header then fixIncrementalBackupNamePrefixes name header else name

def Walk.extent (w : Walk) (header : Bytes) : Except TarError Extent := do
  let plain ← oldGnuExtent data b w.pos header (w.headerName opts header)
  let e ← paxSparseExtent data b w.pax w.pending.sparsePairs (sizeField header) plain
  return plainSizeExtent w.pax (typeflag header) e

def Walk.next (w : Walk) (header : Bytes) (e : Extent) : Walk :=
  { w with pending := PaxParsed.empty, paxHeaderStart := none, gnu := w.gnuAfter header,
           pos := u64 (w.pos + blockSize + pad512 e.onTape) }

def Walk.member (w : Walk) (header : Bytes) (e : Extent) (dumpdir : Bytes) : Found where
  name := e.name
  headerStart := w.paxHeaderStart.getD w.pos
  dataOff := e.dataOff
  logicalSize := e.logicalSize
  modeBits := (parseOctal (header.slice 100 8)).getD 0o644
  uid := (parseOctal (header.slice 108 8)).getD 0
  gid := (parseOctal (header.slice 116 8)).getD 0
  typeflag := typeflag header
  linkname := (w.pax PaxKey.linkpath).getD (opts.encoding (cstr (header.slice 157 100)))
  issparse := e.issparse
  istar := looksNested data b (typeflag header) e
  xattrs := w.globalXattrs.extend w.pending.fsXattrs
  dumpdir := dumpdir

/-- The payload of a dumpdir, which only the walk over the whole stream reads. -/
def readDumpdir (flag : UInt8) (e : Extent) : Except TarError Bytes :=
  if flag = 68 ∧ b.regionEnd = none then
    if 2 ^ 63 ≤ e.logicalSize then .error .panicked else readExact data e.dataOff e.logicalSize
  else .ok []

/-- A member header: the member, unless its name is a placeholder, and the walk behind it. -/
def memberTurn (w : Walk) (header : Bytes) : Except TarError WalkTurn := do
  let e ← w.extent opts data b header
  if isPlaceholder e.name then return .again (w.next header e)
  else
    let dumpdir ← readDumpdir data b (typeflag header) e
    return .found (w.member opts data b header e dumpdir) (w.next header e)

/-- The body of a helper record, unless it reaches beyond the region. -/
def helperBody (w : Walk) (size : ℕ) (kind : String) : Except TarError (Option Bytes) :=
  if maxHeaderPayloadBytes < size then
    .error (.invalidData s!"{kind} header payload size {size} exceeds cap of {maxHeaderPayloadBytes} bytes")
  else if b.within (w.pos + blockSize + size) then do
    let body ← readExact data (w.pos + blockSize) size
    return some body
  else .ok none

def paxTurn (w : Walk) (header : Bytes) : Except TarError WalkTurn := do
  let pos := w.pos + blockSize + pad512 (sizeField header)
  match ← helperBody data b w (sizeField header) "PAX" with
  | none => return .stop w
  | some body =>
    let recs ← parsePaxRecords body
    if typeflag header = 103 then
      return .again { w with paxGlobal := w.paxGlobal.extend recs.map,
                             globalXattrs := w.globalXattrs.extend recs.fsXattrs, pos }
    else return .again { w with pending := recs, paxHeaderStart := some w.pos, pos }

def longTurn (w : Walk) (header : Bytes) : Except TarError WalkTurn := do
  let kind := if typeflag header = 76 then "GNU long name" else "GNU long link"
  match ← helperBody data b w (sizeField header) kind with
  | none => return .stop w
  | some body =>
    let key := if typeflag header = 76 then PaxKey.path else PaxKey.linkpath
    let map := w.pending.map.insert key (opts.encoding (stripNuls body))
    return .again { w with pending := { w.pending with map }, pos := w.pos + blockSize + pad512 (sizeField header) }

/-- A zero block ends the walk; the block behind it is read all the same. -/
def zeroTurn (w : Walk) : Except TarError WalkTurn :=
  if opts.ignoreZeros then .ok (.again { w with pos := u64 (w.pos + blockSize) })
  else if b.within (w.pos + 2 * blockSize) then do
    let _ ← readTarHeader data (w.pos + blockSize)
    return .stop w
  else .ok (.stop w)

def headerTurn (w : Walk) (header : Bytes) : Except TarError WalkTurn :=
  if isZero header then zeroTurn opts data b w
  else if typeflag header = 120 ∨ typeflag header = 103 then paxTurn data b w header
  else if typeflag header = 76 ∨ typeflag header = 75 then longTurn opts data b w header
  else memberTurn opts data b w header

def Walk.turn (w : Walk) : Except TarError WalkTurn :=
  if b.within (u64 (w.pos + blockSize)) then do
    seekGuard b.start w.pos
    match ← readTarHeader data w.pos with
    | none => return .stop w
    | some header => headerTurn opts data b w header
  else .ok (.stop w)

structure WalkEnd where
  gnu : Bool
  error : Option TarError

/-- The members of a walk up to its end. A region also ends where a member reaches beyond it. -/
def walkMembers : ℕ → Walk → List Found × WalkEnd
  | 0, w => ([],{ gnu := w.gnu, error := some .diverged })
  | fuel + 1, w =>
    match w.turn opts data b with
    | .error e => ([],{ gnu := w.gnu, error := some e })
    | .ok (.stop w) => ([],{ gnu := w.gnu, error := none })
    | .ok (.again w) => walkMembers fuel w
    | .ok (.found f w) =>
      if b.within w.pos then
        let rest := walkMembers fuel w
        (f :: rest.1,rest.2)
      else ([f],{ gnu := w.gnu, error := none })

end Turn

section TurnSpec

variable {opts : IndexOptions} {data : Bytes} {b : WalkBounds} {w : Walk} {t : WalkTurn}

theorem readTarHeader_whole {pos : ℕ} (h : pos+blockSize≤data.length) :
    readTarHeader data pos = .ok (some (data.slice pos blockSize)) := by
  have hlength : (data.slice pos blockSize).length=blockSize := by
    rw [Bytes.length_slice]
    omega
  rw [readTarHeader,if_neg,if_neg (by omega)]
  intro hnil
  rw [hnil] at hlength
  cases hlength

/-- A turn where a whole header can be read. -/
theorem Walk.turn_whole (hb : b.within (u64 (w.pos+blockSize))=true) (hstart : b.start≤w.pos)
    (hpos : w.pos+blockSize≤data.length) (hlen : data.length<2^63) :
    w.turn opts data b=headerTurn opts data b w (data.slice w.pos blockSize) := by
  have hseek : seekGuard b.start w.pos = .ok () := by
    rw [seekGuard,if_neg (by omega),if_neg (by omega)]
  rw [Walk.turn,if_pos hb,hseek,readTarHeader_whole hpos]
  rfl

/-- A turn stops behind the last header, or is one at a header. -/
theorem Walk.turn_cases (h : w.turn opts data b = .ok t) :
    (t = .stop w ∧ ((data.length≤w.pos ∧ w.pos<2^63) ∨ b.within (u64 (w.pos+blockSize))=false)) ∨
      (w.pos<2^63 ∧ w.pos+blockSize≤data.length ∧ headerTurn opts data b w (data.slice w.pos blockSize) = .ok t) := by
  have hlength:=Bytes.length_slice data w.pos blockSize
  have hblock : blockSize=512:=rfl
  rw [Walk.turn] at h
  split_ifs at h with hb
  · obtain ⟨u,hseek,h⟩:=bind_ok h
    obtain ⟨header,hread,h⟩:=bind_ok h
    rw [seekGuard] at hseek
    split_ifs at hseek with hbig
    rw [readTarHeader] at hread
    split_ifs at hread with hnil
    · cases hread
      cases h
      rw [hnil,List.length_nil] at hlength
      exact .inl ⟨rfl,.inl ⟨by omega,by omega⟩⟩
    · cases hread
      exact .inr ⟨by omega,by omega,h⟩
  · cases h
    exact .inl ⟨rfl,.inr (by simpa using hb)⟩

end TurnSpec

end Ratarmount.Tar
