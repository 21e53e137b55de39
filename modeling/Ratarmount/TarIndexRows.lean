import Ratarmount.TarIndexWalk
import Ratarmount.KeyedLog

/-!
# The rows of the index

`parse_tar_from`: the rows that the members of a stream add to the `files` table,
with the parent directories that have no member of their own, dumpdir entries and
tombstones, and the members of nested TARs under the path of their archive.
-/

namespace Ratarmount.Tar

open ArchivePath
open scoped Str

/-- A row of the `files` table, without the modification time. -/
structure Row where
  path : Str
  name : Str
  offsetheader : ℕ
  offset : ℕ
  size : ℤ
  mode : ℕ
  type : UInt8
  linkname : Str
  uid : ℤ
  gid : ℤ
  istar : Bool
  issparse : Bool
  isgenerated : Bool
  recursiondepth : ℕ
  deriving DecidableEq

def asI64 (n : ℕ) : ℤ := if n % 2 ^ 64 < 2 ^ 63 then (n % 2 ^ 64 : ℕ) else (n % 2 ^ 64 : ℕ) - 2 ^ 64

def sIfdir : ℕ := 0o040000
def sIflnk : ℕ := 0o120000
def sIfreg : ℕ := 0o100000

structure Batch where
  rows : List Row := []
  generatedDirs : List Str := []
  dumpdirState : Str → Option (List Str) := fun _ => none
  xattrs : List (ℕ × Str × Bytes) := []

/-- `rsplit_once('/')`, with an empty first part when there is no slash. -/
def rsplitSlash (s : Str) : Str × Str :=
  let r := s.reverse
  (((r.dropWhile (· ≠ '/')).drop 1).reverse,(r.takeWhile (· ≠ '/')).reverse)

/-- `normalize_member_path`. -/
def memberPath (name : Str) : Str :=
  normpath (stripDotSlash (trimEndSlash name))

def parentRow (parent part : Str) (uid gid : ℕ) : Row where
  path := parent
  name := part
  offsetheader := 0
  offset := 0
  size := 0
  mode := sIfdir + 0o755
  type := 53
  linkname := []
  uid := asI64 uid
  gid := asI64 gid
  istar := false
  issparse := false
  isgenerated := true
  recursiondepth := 0

def ensureParts (uid gid : ℕ) : Str → List Str → Batch → Batch
  | _, [], b => b
  | parent, part :: parts, b =>
    let cur := parent ++ '/' :: part
    let b := if cur ∈ b.generatedDirs then b
      else { b with generatedDirs := cur :: b.generatedDirs, rows := b.rows ++ [parentRow parent part uid gid] }
    ensureParts uid gid cur parts b

def ensureParentDirs (path : Str) (uid gid : ℕ) (b : Batch) : Batch :=
  ensureParts uid gid [] ((path.splitOn '/').filter (· ≠ [])) b

def endsWithSlash (s : Str) : Bool := s.getLast? = some '/'

/-- `push_entry` for a member whose path in the index is `fullName`. -/
def pushEntry (fullName : Str) (depth : ℕ) (f : Found) (b : Batch) : Batch :=
  if trimEndSlash fullName = [] then b
  else
    let isDir := f.typeflag = 53 ∨ endsWithSlash fullName
    let (path,name) := rsplitSlash (memberPath fullName)
    let b := ensureParentDirs path f.uid f.gid b
    let ifmt := if isDir then sIfdir else if f.typeflag = 50 then sIflnk else sIfreg
    let size := if f.typeflag = 53 ∨ endsWithSlash f.name then 0 else f.logicalSize
    { b with rows := b.rows ++ [{
        path, name, offsetheader := f.headerStart, offset := f.dataOff, size := if isDir then 0 else asI64 size,
        mode := f.modeBits % 4096 + ifmt, type := f.typeflag, linkname := f.linkname, uid := asI64 f.uid,
        gid := asI64 f.gid, istar := f.istar, issparse := f.issparse, isgenerated := false, recursiondepth := depth }] }

/-- A dumpdir: a file with its payload and a directory. -/
def pushDumpdirEntries (fullName : Str) (depth : ℕ) (f : Found) (b : Batch) : Batch :=
  if trimEndSlash fullName = [] then b
  else
    let (path,name) := rsplitSlash (memberPath fullName)
    let b := ensureParentDirs path f.uid f.gid b
    let file : Row := {
      path, name, offsetheader := f.headerStart, offset := f.dataOff, size := asI64 f.logicalSize,
      mode := f.modeBits % 4096 + sIfreg, type := 68, linkname := f.linkname, uid := asI64 f.uid,
      gid := asI64 f.gid, istar := false, issparse := false, isgenerated := false, recursiondepth := depth }
    let dir : Row := { file with offsetheader := f.headerStart + 1, size := 0, mode := f.modeBits % 4096 + sIfdir }
    { b with rows := b.rows ++ [file,dir], generatedDirs := (path ++ '/' :: name) :: b.generatedDirs }

/-- `parse_dumpdir_entries`, with the payload's length as fuel. -/
def parseDumpdirEntries : ℕ → Bytes → List (UInt8 × Str)
  | 0, _ => []
  | _ + 1, [] => []
  | fuel + 1, status :: rest =>
    if status = 0 then []
    else
      let name := rest.takeWhile (· ≠ 0)
      let more := parseDumpdirEntries fuel (rest.drop (name.length + 1))
      if name = [] then more else (status,Utf8.decodeLossy name) :: more

def dumpdirPresentNames (payload : Bytes) : List Str :=
  (parseDumpdirEntries payload.length payload).filterMap
    (fun e => if e.1 = 89 ∨ e.1 = 78 ∨ e.1 = 68 then some e.2 else none)

def dumpdirDeleteLinkname : Str := Char.ofNat 0 :: "GNU.dumpdir.delete".toList

def tombstone (path name : Str) (offsetheader uid gid depth : ℕ) : Row where
  path := path
  name := name
  offsetheader := offsetheader
  offset := 0
  size := 0
  mode := 0
  type := 68
  linkname := dumpdirDeleteLinkname
  uid := asI64 uid
  gid := asI64 gid
  istar := false
  issparse := false
  isgenerated := true
  recursiondepth := depth

/-- Names of an earlier dumpdir of the directory that this one no longer lists get a tombstone. -/
def applyDumpdirDeletes (f : Found) (b : Batch) : Batch :=
  let dirFull := memberPath f.name
  let childPath := if dirFull = ['/'] then [] else dirFull
  let present := dumpdirPresentNames f.dumpdir
  let gone := ((b.dumpdirState dirFull).getD []).dedup.filter (· ∉ present)
  { b with
    rows := b.rows ++ gone.mapIdx (fun i name => tombstone childPath name (f.headerStart + 2 + i) f.uid f.gid 0),
    dumpdirState := Function.update b.dumpdirState dirFull (some present) }

def pushXattrRows (f : Found) (b : Batch) : Batch :=
  { b with xattrs := b.xattrs ++ f.xattrs.map (fun x => (f.headerStart,x.1,x.2)) }

def pushTop (b : Batch) (f : Found) : Batch :=
  pushXattrRows f (if f.typeflag = 68 then pushDumpdirEntries f.name 0 f (applyDumpdirDeletes f b)
    else pushEntry f.name 0 f b)

/-! ## Nested TARs -/

structure NestedPending where
  path : Str
  offset : ℕ
  size : ℕ
  offsetheader : ℕ
  modeBits : ℕ
  uid : ℕ
  gid : ℕ

def joinPathPrefix (front name : Str) : Str :=
  let name := trimStartSlash (stripDotSlash name)
  if front = [] then name
  else if name = [] then trimEndSlash front
  else trimEndSlash front ++ '/' :: name

def nestedPending (fullName : Str) (f : Found) : NestedPending :=
  { path := memberPath fullName, offset := f.dataOff, size := f.logicalSize, offsetheader := f.headerStart,
    modeBits := f.modeBits, uid := f.uid, gid := f.gid }

/-- A member of a nested TAR under the path of its archive. -/
def pushNested (front : Str) (depth : ℕ) (b : Batch) (f : Found) : Batch :=
  let fullName := joinPathPrefix front f.name
  pushXattrRows f (if f.typeflag = 68 then pushDumpdirEntries fullName depth f b else pushEntry fullName depth f b)

def nestedFlattenMaxBytes : ℕ := 64 * 1024 * 1024

def maxRecursionDepth (opts : IndexOptions) : ℤ :=
  match opts.recursionDepth with
  | some d => d
  | none => if opts.recursive then 2 ^ 31 - 1 else 0

def shouldFlattenNested (opts : IndexOptions) (size depth : ℕ) : Bool :=
  (depth : ℤ) ≤ maxRecursionDepth opts ∨
    (maxRecursionDepth opts = 0 ∧ depth = 1 ∧ size ≤ nestedFlattenMaxBytes)

/-- The nested archive once more, as a directory. -/
def pushNestedMemberAsDirectory (p : NestedPending) (depth : ℕ) (b : Batch) : Batch :=
  let full := trimEndSlash p.path
  let (path,name) := rsplitSlash full
  if name = [] then b
  else { b with
    generatedDirs := full :: b.generatedDirs,
    rows := b.rows ++ [{
      path, name, offsetheader := p.offsetheader + 1, offset := p.offset + 1, size := 0,
      mode := p.modeBits % 4096 + sIfdir, type := 53, linkname := [], uid := asI64 p.uid, gid := asI64 p.gid,
      istar := true, issparse := false, isgenerated := true, recursiondepth := depth }] }

/-- What flattening carries from one archive to the next. -/
structure Flatten where
  batch : Batch
  gnu : Bool
  deeper : List NestedPending := []

section Flatten

variable (opts : IndexOptions) (data : Bytes) (start : ℕ)

def nestedWalk (p : NestedPending) (gnu : Bool) : List Found × WalkEnd :=
  let regionEnd := min (p.offset + p.size) (2 ^ 64 - 1)
  if regionEnd ≤ p.offset + blockSize then ([],{ gnu, error := none })
  else walkMembers opts data { start, regionEnd := some regionEnd } (data.length / blockSize + 2)
    { pos := p.offset, gnu }

def flattenOne (depth : ℕ) (st : Flatten) (p : NestedPending) : Flatten :=
  if shouldFlattenNested opts p.size depth then
    let (found,fin) := nestedWalk opts data start p st.gnu
    let batch := { st.batch with generatedDirs := p.path :: st.batch.generatedDirs }
    let batch := found.foldl (pushNested p.path depth) batch
    let deeper := st.deeper ++
      (found.filter Found.istar).map (fun f => nestedPending (joinPathPrefix p.path f.name) f)
    let batch := if fin.error = none ∧ found ≠ [] then pushNestedMemberAsDirectory p depth batch else batch
    { batch, gnu := fin.gnu, deeper }
  else st

/-- `flatten_nested_tars`: one layer after the other, at most 64. -/
def flattenNestedTars : ℕ → ℕ → List NestedPending → Batch → Bool → Batch × Bool
  | 0, _, _, batch, gnu => (batch,gnu)
  | layers + 1, depth, nested, batch, gnu =>
    if nested = [] then (batch,gnu)
    else
      let st := nested.foldl (flattenOne opts data start depth) { batch, gnu }
      flattenNestedTars layers (depth + 1) st.deeper st.batch st.gnu

end Flatten

/-- The rows that `parse_tar_from` inserts, in order, and the attributes. -/
structure ParsedIndex where
  rows : List Row
  xattrs : List (ℕ × Str × Bytes)
  gnu : Bool

def parseTarFrom (opts : IndexOptions) (data : Bytes) (start : ℕ) (gnu : Bool) : Except TarError ParsedIndex :=
  let (found,fin) := walkMembers opts data { start, regionEnd := none } (data.length / blockSize + 2)
    { pos := start, gnu }
  match fin.error with
  | some e => .error e
  | none =>
    let batch := found.foldl pushTop {}
    let nested := (found.filter Found.istar).map (fun f => nestedPending f.name f)
    let (batch,gnu) := flattenNestedTars opts data start 64 1 nested batch fin.gnu
    .ok { rows := batch.rows, xattrs := batch.xattrs, gnu }

def Row.key (r : Row) : Str × Str × ℕ := (r.path,r.name,r.offsetheader)

/-- The `files` table: an insert replaces the row that has its path, name and header offset. -/
def table (rows : List Row) : List Row := KeyedLog.latest Row.key rows

end Ratarmount.Tar
