import Ratarmount.TarWriter

/-!
# Rewriting the last window of a TAR

The scan for a member header, the cursor that walks raw members, and
`rewrite_tar_suffix`, which drops members of the window and appends new ones.
-/

namespace Ratarmount.Tar

open ArchivePath
open scoped Str

/-- The blocks of `data` at `i`, `i + 512`, … that end within `scanEnd`. -/
def scanHeaders (data : Bytes) (scanEnd : ℕ) : ℕ → ℕ → Option ℕ
  | 0, _ => none
  | fuel + 1, i =>
    if scanEnd < i + blockSize then none
    else
      let header := data.slice i blockSize
      if !isZero header && hasTarMagic header && checksumOk header then some i
      else scanHeaders data scanEnd fuel (i + blockSize)

def streamAlign (streamOffset : ℕ) : ℕ := (blockSize - streamOffset % blockSize) % blockSize

def findFirstValidHeader (suffix : Bytes) (streamOffset : ℕ) : Option ℕ :=
  scanHeaders suffix suffix.length (suffix.length / blockSize + 1) (streamAlign streamOffset)

def windowHasMemberBoundary (suffix : Bytes) (streamOffset : ℕ) : Bool :=
  (findFirstValidHeader suffix streamOffset).isSome || isZero suffix

structure TarRawMember where
  rawStart : ℕ
  rawEnd : ℕ
  logicalPath : Str
  typeflag : UInt8
  deriving DecidableEq

structure PendingHelper where
  rawStart : ℕ
  map : PaxMap

/-- `TarMemberCursor` over a reader whose content is fixed. -/
structure Cursor where
  pos : ℕ
  paxGlobal : PaxMap := PaxMap.empty
  pending : Option PendingHelper := none
  eofOff : Option ℕ := none

/-- What one turn of the loop in `next_member` comes to. -/
inductive Turn
  | stop (c : Cursor)
  | again (c : Cursor)
  | found (m : TarRawMember) (c : Cursor)

namespace Cursor

variable (enc : Encoding) (data : Bytes)

def atStop (c : Cursor) : Bool :=
  (match c.eofOff with
    | some eof => eof ≤ c.pos
    | none => false) || data.length < u64 (c.pos + blockSize)

/-- The end of the zero run whose part up to `runEnd` is known. -/
def zeroRunEnd : ℕ → ℕ → ℕ
  | 0, runEnd => runEnd
  | fuel + 1, runEnd =>
    let n := min (data.length - runEnd) blockSize
    if n = 0 ∨ isZero (data.slice runEnd n) = false then runEnd
    else zeroRunEnd fuel (runEnd + n)

def readHelperBody (c : Cursor) (size : ℕ) (kind : String) : Except TarError Bytes :=
  if maxHeaderPayloadBytes < size then
    .error (.invalidData s!"{kind} header payload size {size} exceeds cap of {maxHeaderPayloadBytes} bytes")
  else if (data.slice (c.pos + blockSize) size).length < size then
    .error (.unexpectedEof "failed to fill whole buffer")
  else .ok (data.slice (c.pos + blockSize) size)

def helperMap (flag : UInt8) (body : Bytes) (map : PaxMap) : Except TarError PaxMap :=
  if flag = 120 then do
    let recs ← parsePaxRecords body
    return map.extend recs.map
  else
    let key := if flag = 76 then PaxKey.path else PaxKey.linkpath
    return map.insert key (enc (stripNuls body))

def helperKind (flag : UInt8) : String :=
  if flag = 120 then "PAX" else if flag = 76 then "GNU long name" else "GNU long link"

def consumePendingHelper (c : Cursor) (flag : UInt8) (size : ℕ) : Except TarError Cursor := do
  let body ← c.readHelperBody data size (helperKind flag)
  let pending := c.pending.getD { rawStart := c.pos, map := PaxMap.empty }
  let map ← helperMap enc flag body pending.map
  return { c with pending := some { pending with map }, pos := c.pos + blockSize + pad512 size }

def satAdd (a b : ℕ) : ℕ := min (a + b) (2 ^ 64 - 1)

def onTapeSize (pax : PaxMap) (header : Bytes) : ℕ :=
  ((pax PaxKey.size).bind parseU64).getD (sizeField header)

def globalMember (c : Cursor) (size : ℕ) : Except TarError Turn :=
  if c.pending.isSome then .error (.invalidData "global PAX g between pending extended header and file")
  else do
    let body ← c.readHelperBody data size "PAX"
    let parsed ← parsePaxRecords body
    let rawEnd := c.pos + blockSize + pad512 size
    return .found { rawStart := c.pos, rawEnd, logicalPath := [], typeflag := 103 }
      { c with paxGlobal := c.paxGlobal.extend parsed.map, pos := rawEnd }

/-- The global records, and over them those of the pending helpers. -/
def pax (c : Cursor) : PaxMap :=
  match c.pending with
  | some pend => c.paxGlobal.extend pend.map
  | none => c.paxGlobal

def plainMember (c : Cursor) (header : Bytes) : Turn :=
  let rawEnd := satAdd (satAdd c.pos blockSize) (pad512 (onTapeSize c.pax header))
  .found { rawStart := (c.pending.map PendingHelper.rawStart).getD c.pos, rawEnd,
           logicalPath := normalizeArchiveRelPath (memberName enc c.pax header),
           typeflag := typeflag header }
    { c with pending := none, pos := rawEnd }

def turn (c : Cursor) : Except TarError Turn :=
  let header := data.slice c.pos blockSize
  if c.atStop data ∨ header.length < blockSize then .ok (.stop c)
  else if isZero header then
    let runEnd := zeroRunEnd data (data.length / blockSize + 1) (c.pos + blockSize)
    if data.length ≤ runEnd then .ok (.stop { c with eofOff := some c.pos, pos := runEnd })
    else .ok (.again { c with pos := runEnd })
  else if !checksumOk header then
    .error (.invalidData s!"invalid ustar checksum at suffix offset {c.pos}")
  else if typeflag header = 103 then c.globalMember data (sizeField header)
  else if typeflag header = 120 ∨ typeflag header = 76 ∨ typeflag header = 75 then do
    let c ← c.consumePendingHelper enc data (typeflag header) (sizeField header)
    return .again c
  else .ok (c.plainMember enc header)

/-- `while let Some(m) = cursor.next_member()?`: every member that the walk returns. -/
def members : ℕ → Cursor → Except TarError (List TarRawMember)
  | 0, _ => .error .diverged
  | fuel + 1, c => do
    match ← c.turn enc data with
    | .stop _ => return []
    | .again c => members fuel c
    | .found m c => return m :: (← members fuel c)

end Cursor

structure RewriteTarSuffix where
  deletedPaths : List Str
  append : List UstarMember
  encoding : Encoding

structure RewriteTarSuffixStats where
  bytesKept : ℕ := 0
  membersDropped : ℕ := 0
  membersKept : ℕ := 0
  membersAppended : ℕ := 0
  deriving DecidableEq

namespace RewriteTarSuffix

variable (opts : RewriteTarSuffix)

def deleted : List Str := (opts.deletedPaths.map normalizeArchiveRelPath).dedup

/-- Whether a walked member is one of the deleted names. -/
def drops (m : TarRawMember) : Bool :=
  let norm := normalizeArchiveRelPath m.logicalPath
  m.typeflag ≠ 103 ∧ norm ≠ [] ∧ norm ∈ opts.deleted

def seen (members : List TarRawMember) : List Str :=
  (members.filter opts.drops).map (fun m => normalizeArchiveRelPath m.logicalPath)

def missing (members : List TarRawMember) : List Str :=
  opts.deleted.filter (fun p => p ≠ [] ∧ p ∉ opts.seen members)

def missingText (paths : List Str) : String :=
  String.ofList (List.intercalate ", ".toList (paths.mergeSort (fun a b => decide (a ≤ b))))

end RewriteTarSuffix

def copySpan (data : Bytes) (start stop : ℕ) : Bytes := data.slice start (stop - start)

/-- The copy loop: what is written, where the next copy begins, and the counters. -/
structure CopyState where
  out : Bytes
  copyFrom : ℕ
  dropped : ℕ := 0
  kept : ℕ := 0

def CopyState.member (opts : RewriteTarSuffix) (data : Bytes) (copyEnd : ℕ) (st : CopyState)
    (m : TarRawMember) : CopyState :=
  if m.typeflag = 103 then st
  else if opts.drops m then
    { out := st.out ++ (if st.copyFrom < m.rawStart then copySpan data st.copyFrom m.rawStart else []),
      copyFrom := min m.rawEnd copyEnd, dropped := st.dropped + 1, kept := st.kept }
  else { st with kept := st.kept + 1 }

/-- The kept bytes of a window whose first header is at `first`. -/
def keepMembers (opts : RewriteTarSuffix) (data : Bytes) (first : ℕ) (members : List TarRawMember) :
    Except TarError (Bytes × RewriteTarSuffixStats) :=
  let copyEnd := min (members.foldl (fun a m => max a m.rawEnd) first) data.length
  if opts.missing members ≠ [] then
    .error (.invalidData ("last-window delete path(s) not found in the suffix: " ++
      RewriteTarSuffix.missingText (opts.missing members)))
  else
    let st := members.foldl (CopyState.member opts data copyEnd)
      { out := copySpan data 0 first, copyFrom := first }
    let out := st.out ++ copySpan data st.copyFrom copyEnd
    .ok (out,{ bytesKept := out.length, membersDropped := st.dropped, membersKept := st.kept })

/-- What the rewrite copies from the window. -/
def keepWindow (suffix : Bytes) (streamOffset : ℕ) (opts : RewriteTarSuffix) :
    Except TarError (Bytes × RewriteTarSuffixStats) :=
  match findFirstValidHeader suffix streamOffset with
  | none =>
    if opts.deletedPaths ≠ [] then
      .error (.invalidData "could not parse last-window TAR headers; cannot apply last-window delete")
    else if opts.append ≠ [] ∧ isZero suffix = false then
      .error (.invalidData ("could not parse last-window TAR headers; the window has no member boundary " ++
        "(a member spans the whole window) — cannot locate the data end; enlarge the rewrite window"))
    else .ok ([],{})
  | some first => do
    let members ← Cursor.members opts.encoding suffix (suffix.length / blockSize + 2) { pos := first }
    keepMembers opts suffix first members

def rewriteTarSuffix (suffix : Bytes) (streamOffset : ℕ) (opts : RewriteTarSuffix) :
    Except TarError (Bytes × RewriteTarSuffixStats) := do
  let kept ← keepWindow suffix streamOffset opts
  let appended ← writeUstarMembers opts.append
  return (kept.1 ++ (appended ++ tarEof),{ kept.2 with membersAppended := opts.append.length })

end Ratarmount.Tar
