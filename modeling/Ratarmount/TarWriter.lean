import Ratarmount.ExceptRuns
import Ratarmount.TarPax

/-!
# Writing members

`write_ustar_members`: an optional PAX header with the fields that a ustar header
cannot hold, the ustar header, and the padded body.
-/

namespace Ratarmount.Tar

open List Bytes

/-- A file on disk is what `open` reads of it and the size that the caller planned for. -/
inductive Payload
  | file (bytes : Bytes)
  | fileOnDisk (content : Bytes) (size : ℕ)
  | directory
  | symlink (target : Str)
  deriving DecidableEq

structure UstarMember where
  path : Str
  payload : Payload
  mode : ℕ
  uid : ℕ
  gid : ℕ
  mtime : ℕ
  xattrs : Xattrs
  deriving DecidableEq

structure UstarHeaderFields where
  name : Bytes
  size : ℕ
  typeflag : UInt8
  linkname : Bytes := []
  mode : ℕ
  uid : ℕ := 0
  gid : ℕ := 0
  mtime : ℕ := 0

/-- A text field of fixed width, cut or filled with NULs. -/
def fixedField (width : ℕ) (bs : Bytes) : Bytes :=
  bs.take width ++ zeros (width - bs.length)

/-- Magic `ustar\0`, version `00`, and the fields that stay empty. -/
def headerTail : Bytes := [117,115,116,97,114,0,48,48] ++ zeros 247

def checksumField (sum : ℕ) : Bytes := Utf8.encode (paddedOctal 6 sum) ++ [0,32]

def writeRawUstarHeader (f : UstarHeaderFields) : Except TarError Bytes := do
  let mode ← writeOctal 8 f.mode
  let uid ← writeOctal 8 f.uid
  let gid ← writeOctal 8 f.gid
  let size ← writeOctal 12 f.size
  let mtime ← writeOctal 12 f.mtime
  let front := fixedField 100 f.name ++ (mode ++ (uid ++ (gid ++ (size ++ mtime))))
  let back := f.typeflag :: (fixedField 100 f.linkname ++ headerTail)
  let sum := ((front ++ (List.replicate 8 32 ++ back)).map UInt8.toNat).sum
  return front ++ (checksumField sum ++ back)

/-- What a reader finds in a header that the writer has written. -/
structure WrittenHeader (f : UstarHeaderFields) (h : Bytes) : Prop where
  length : h.length = 512
  checksum : checksumOk h = true
  magic : hasTarMagic h = true
  nonzero : isZero h = false
  flag : typeflag h = f.typeflag
  size : f.size < 2 ^ 64 → parseOctal (h.slice 124 12) = some f.size
  mode : f.mode < 2 ^ 64 → parseOctal (h.slice 100 8) = some f.mode
  uid : f.uid < 2 ^ 64 → parseOctal (h.slice 108 8) = some f.uid
  gid : f.gid < 2 ^ 64 → parseOctal (h.slice 116 8) = some f.gid
  name : h.slice 0 100 = fixedField 100 f.name
  linkname : h.slice 157 100 = fixedField 100 f.linkname
  front : h.slice 345 155 = zeros 155

theorem length_fixedField (width : ℕ) (bs : Bytes) : (fixedField width bs).length=width := by
  simp [fixedField]
  omega

theorem sum_toNat_le (bs : Bytes) : (bs.map UInt8.toNat).sum≤255*bs.length := by
  induction bs with
  | nil => simp
  | cons b bs ih =>
    have := b.toNat_lt
    simp
    omega

theorem length_checksumField {sum : ℕ} (h : sum<8^6) : (checksumField sum).length=8 := by
  have := Numeral.length_text_le (by decide) (by decide) h
  rw [checksumField,length_append,encode_paddedOctal,length_map,paddedOctal,length_append,length_replicate]
  simp
  omega

/-- The fields of a written header around its checksum. -/
theorem checksumOk_of_sum {front back : Bytes} (hf : front.length=148) (hb : back.length=356) :
    checksumOk (front++(checksumField ((front++(List.replicate 8 32++back)).map UInt8.toNat).sum++back)) = true := by
  generalize hsum : ((front++(List.replicate 8 32++back)).map UInt8.toNat).sum=sum
  have hlt : sum<8^6 := by
    have hle:=sum_toNat_le (front++(List.replicate 8 32++back))
    simp only [length_append,length_replicate] at hle
    omega
  have hlen:=length_checksumField hlt
  have hfield : (front++(checksumField sum++back)).slice 148 8=checksumField sum :=
    slice_append _ _ _ hf.symm hlen.symm
  have hview : checksumView (front++(checksumField sum++back))=front++(List.replicate 8 32++back) := by
    rw [checksumView,take_left' hf,←append_assoc front (checksumField sum),
      drop_left' (by rw [length_append,hf,hlen])]
  have hparse : parseOctal (checksumField sum)=some sum:=parseOctal_padded 6 [32] (by omega)
  simp only [checksumOk,hfield,hparse,checksumUnsigned,hview,hsum,true_or,decide_true]

theorem writeRawUstarHeader_ok {f : UstarHeaderFields} {h : Bytes} (hw : writeRawUstarHeader f = .ok h) :
    WrittenHeader f h := by
  simp only [writeRawUstarHeader] at hw
  obtain ⟨mode,hmode,hw⟩:=bind_ok hw
  obtain ⟨uid,huid,hw⟩:=bind_ok hw
  obtain ⟨gid,hgid,hw⟩:=bind_ok hw
  obtain ⟨size,hsize,hw⟩:=bind_ok hw
  obtain ⟨mtime,hmtime,hw⟩:=bind_ok hw
  obtain ⟨lmode,pmode⟩:=writeOctal_ok (by decide) hmode
  obtain ⟨luid,puid⟩:=writeOctal_ok (by decide) huid
  obtain ⟨lgid,pgid⟩:=writeOctal_ok (by decide) hgid
  obtain ⟨lsize,psize⟩:=writeOctal_ok (by decide) hsize
  obtain ⟨lmtime,-⟩:=writeOctal_ok (by decide) hmtime
  have lname:=length_fixedField 100 f.name
  have llink:=length_fixedField 100 f.linkname
  have ltail : headerTail.length=255 := by simp [headerTail]
  have hok:=@checksumOk_of_sum (fixedField 100 f.name++(mode++(uid++(gid++(size++mtime)))))
    (f.typeflag::(fixedField 100 f.linkname++headerTail))
    (by simp [lname,lmode,luid,lgid,lsize,lmtime]) (by simp [llink,ltail])
  have hsum:=sum_toNat_le (fixedField 100 f.name++(mode++(uid++(gid++(size++mtime)))) ++
    (List.replicate 8 32++f.typeflag::(fixedField 100 f.linkname++headerTail)))
  generalize ((fixedField 100 f.name++(mode++(uid++(gid++(size++mtime)))) ++
    (List.replicate 8 32++f.typeflag::(fixedField 100 f.linkname++headerTail))).map UInt8.toNat).sum=sum
    at hw hok hsum
  have lsum : (checksumField sum).length=8 := by
    apply length_checksumField
    simp [ltail] at hsum
    omega
  injection hw with hw
  generalize checksumField sum=chk at hw hok lsum
  generalize hname : fixedField 100 f.name=name at hw lname
  generalize hlink : fixedField 100 f.linkname=link at hw llink
  have lengths:=And.intro lname (And.intro lmode (And.intro luid (And.intro lgid (And.intro lsize
    (And.intro lmtime (And.intro lsum llink))))))
  have hfields : h=[name,mode,uid,gid,size,mtime,chk,[f.typeflag],link,[117,115,116,97,114],
      [0,48,48]++zeros 80,zeros 155,zeros 12].flatten := by
    rw [←hw,headerTail,show (247 : ℕ)=80+(155+12) from rfl,zeros_add,zeros_add]
    simp
  have hmagic : h.slice 257 5=[117,115,116,97,114] := by
    rw [hfields]
    exact slice_flatten 9 rfl (by simp [lengths]) rfl
  constructor
  case length => simp [hfields,lengths]
  case checksum => rw [←hw,←hname,←hlink]; exact hok
  case magic => simp [hasTarMagic,hmagic]
  case nonzero =>
    -- the magic is not made of zeros
    rw [isZero,all_eq_false]
    refine ⟨117,?_,by decide⟩
    have hmem : (117 : UInt8)∈h.slice 257 5 := by simp [hmagic]
    exact mem_of_mem_drop (mem_of_mem_take hmem)
  case flag =>
    have hflag : (h.slice 156 1).head?=some f.typeflag := by
      rw [hfields,slice_flatten 7 (by rfl) (by simp [lengths]) (by rfl),head?_singleton]
    rw [slice,head?_take,if_neg Nat.one_ne_zero,head?_drop] at hflag
    rw [typeflag,getD_eq_getElem?_getD,hflag,Option.getD_some]
  case size =>
    rw [hfields,slice_flatten 4 (by rfl) (by simp [lengths]) (by simp [lengths])]
    exact psize
  case mode =>
    rw [hfields,slice_flatten 1 (by rfl) (by simp [lengths]) (by simp [lengths])]
    exact pmode
  case uid =>
    rw [hfields,slice_flatten 2 (by rfl) (by simp [lengths]) (by simp [lengths])]
    exact puid
  case gid =>
    rw [hfields,slice_flatten 3 (by rfl) (by simp [lengths]) (by simp [lengths])]
    exact pgid
  case name =>
    rw [hname,hfields]
    exact slice_flatten 0 rfl rfl lname.symm
  case linkname =>
    rw [hlink,hfields]
    exact slice_flatten 8 rfl (by simp [lengths]) llink.symm
  case front =>
    rw [hfields]
    exact slice_flatten 11 rfl (by simp [lengths]) (by simp)

/-- `write_padding`. -/
def padding (dataLen : ℕ) : Bytes := zeros ((512 - dataLen % 512) % 512)

def ustarMaxSize : ℕ := 0o77777777777

def octalDigitMax (digits : ℕ) : ℕ := 2 ^ (3 * digits) - 1

def paxHeaderName (path : Str) : Str :=
  "PaxHeaders.0/".toList ++ takeBytes 87 path
where
  /-- The longest front part of at most `n` bytes that ends between characters. -/
  takeBytes (n : ℕ) : Str → Str
    | [] => []
    | c :: s =>
      let k := (String.utf8EncodeChar c).length
      if k ≤ n then c :: takeBytes (n - k) s else []

def lastBytes (bs : Bytes) (n : ℕ) : Bytes := bs.drop (bs.length - n)

def dirUstarName (path : Str) : Bytes :=
  let b := Utf8.encode path
  if b.getLast? = some 47 then b else b ++ [47]

namespace UstarMember

variable (m : UstarMember)

def relPath : Str := ArchivePath.trimStartSlash m.path

def typeflag : UInt8 :=
  match m.payload with
  | .directory => 53
  | .symlink _ => 50
  | .file _ | .fileOnDisk _ _ => 48

def linkTarget : Option Str :=
  match m.payload with
  | .symlink target => some target
  | _ => none

def ustarName : Bytes :=
  match m.payload with
  | .directory => dirUstarName m.relPath
  | _ => Utf8.encode m.relPath

def bodySize : ℕ :=
  match m.payload with
  | .file bytes => bytes.length
  | .fileOnDisk _ size => size
  | .directory | .symlink _ => 0

def linkBytes : Bytes := Utf8.encode (m.linkTarget.getD [])

def needPaxPath : Bool := 100 < m.ustarName.length

def needPaxLink : Bool := 100 < m.linkBytes.length

def needPaxSize : Bool := ustarMaxSize < m.bodySize

def needPaxUid : Bool := octalDigitMax 7 < m.uid

def needPaxGid : Bool := octalDigitMax 7 < m.gid

def needPaxMtime : Bool := octalDigitMax 11 < m.mtime

def needPax : Bool :=
  m.needPaxPath || m.needPaxLink || m.needPaxSize || m.needPaxUid || m.needPaxGid || m.needPaxMtime ||
    !m.xattrs.isEmpty

/-- The records before the attributes, in order. -/
def fixedRecords : List (Str × Bytes) :=
  (if m.needPaxPath then [(PaxKey.path,Utf8.encode m.relPath)] else []) ++
  (if m.needPaxLink then [(PaxKey.linkpath,m.linkBytes)] else []) ++
  (if m.needPaxSize then [(PaxKey.size,Utf8.encode (Numeral.text 10 m.bodySize))] else []) ++
  (if m.needPaxUid then [(PaxKey.uid,Utf8.encode (Numeral.text 10 m.uid))] else []) ++
  (if m.needPaxGid then [(PaxKey.gid,Utf8.encode (Numeral.text 10 m.gid))] else []) ++
  (if m.needPaxMtime then [(PaxKey.mtime,Utf8.encode (Numeral.text 10 m.mtime))] else [])

def encodeXattr (x : Str × Bytes) : Except TarError Bytes :=
  if '=' ∈ x.1 ∨ Char.ofNat 0 ∈ x.1 ∨ '\n' ∈ x.1 then .error (.invalidInput "invalid xattr name")
  else encodePaxRecord (schilyXattr ++ x.1) x.2

def paxBody : Except TarError Bytes := do
  let fixed ← m.fixedRecords.mapM (fun kv => encodePaxRecord kv.1 kv.2)
  let xattrs ← m.xattrs.mapM encodeXattr
  return fixed.flatten ++ xattrs.flatten

/-- The PAX record in front of the header, if a field needs it. -/
def writePaxHeader : Except TarError Bytes :=
  if m.needPax then do
    let body ← m.paxBody
    let header ← writeRawUstarHeader { name := Utf8.encode (paxHeaderName m.relPath), size := body.length,
                                       typeflag := 120, mode := 0o644 }
    return header ++ (body ++ padding body.length)
  else return []

def headerFields : UstarHeaderFields where
  name := if m.needPaxPath then lastBytes m.ustarName 100 else m.ustarName
  size := if m.needPaxSize then 0 else m.bodySize
  typeflag := m.typeflag
  linkname := if m.needPaxLink then lastBytes m.linkBytes 100 else m.linkBytes
  mode := m.mode
  uid := if m.needPaxUid then 0 else m.uid
  gid := if m.needPaxGid then 0 else m.gid
  mtime := if m.needPaxMtime then 0 else m.mtime

def writeMemberHeaders : Except TarError Bytes := do
  let pax ← m.writePaxHeader
  let header ← writeRawUstarHeader m.headerFields
  return pax ++ header

def writeMemberBody : Except TarError Bytes :=
  match m.payload with
  | .file bytes => .ok (bytes ++ padding bytes.length)
  | .fileOnDisk content size =>
    if (content.take size).length = size then .ok (content.take size ++ padding size)
    else .error (.unexpectedEof s!"overlay file ended after {(content.take size).length} bytes, expected {size}")
  | .directory | .symlink _ => .ok []

def write : Except TarError Bytes := do
  let headers ← m.writeMemberHeaders
  let body ← m.writeMemberBody
  return headers ++ body

end UstarMember

def writeUstarMembers (members : List UstarMember) : Except TarError Bytes := do
  let written ← members.mapM UstarMember.write
  return written.flatten

/-- `write_tar_eof`. -/
def tarEof : Bytes := zeros 1024

end Ratarmount.Tar
