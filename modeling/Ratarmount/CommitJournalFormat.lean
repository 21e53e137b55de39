import Ratarmount.ByteFields

/-!
# The bytes of a commit journal

The journal is a 96-byte header, the replaced tail, the replacement tail and a CRC.
`validate` compares it with the archive's content; SHA-256 and CRC-32 are parameters,
of which only the widths are used.
-/

namespace Ratarmount.CommitJournal
open Bytes List

/-- `RMCJ0002` -/
def magic : Bytes := [0x52,0x4D,0x43,0x4A,0x30,0x30,0x30,0x32]

def headerLen : ℕ := 96

/-- The digests of the `sha2` and `crc32fast` crates. -/
structure Digests where
  sha256 : Bytes → Bytes
  crc32 : Bytes → ℕ
  sha256_length : ∀ xs, (sha256 xs).length = 32
  crc32_lt : ∀ xs, crc32 xs < 256 ^ 4

/-- `fs::Metadata` of the archive as the journal and `same_stamp` read it. The
seconds are the bit pattern of an `i64`. -/
structure Stamp where
  dev : UInt64
  ino : UInt64
  len : ℕ
  mtime : UInt64
  mtimeNsec : Fin 1000000000
  ctime : UInt64
  ctimeNsec : Fin 1000000000
  deriving DecidableEq, Repr

def signed64 (n : ℕ) : ℤ := if n < 2 ^ 63 then n else n - 2 ^ 64

def mtimeNs (seconds nanos : ℕ) : ℤ := signed64 seconds * 1000000000 + nanos

structure PendingJournal where
  dev : ℕ
  ino : ℕ
  len : ℕ
  mtimeNs : ℤ
  offset : ℕ
  newLen : ℕ
  complete : Bool
  deriving DecidableEq, Repr

/-- Boundary fingerprint of the preserved prefix: its first and last 64 KiB. -/
def fingerprint (D : Digests) (xs : Bytes) (offset : ℕ) : Bytes :=
  D.sha256 (xs.slice 0 (min offset 65536) ++ xs.slice (offset - 65536) (min offset 65536))

/-- The seven integers of the header, in order. -/
def headerValues (s : Stamp) (offset newLen : ℕ) : List ℕ :=
  [s.dev.toNat,s.ino.toNat,s.len,offset,s.mtime.toNat,s.mtimeNsec,newLen]

def headerWords (values : List ℕ) : Bytes := (values.map (le 8)).flatten

def headerBytes (s : Stamp) (offset newLen : ℕ) (pre : Bytes) : Bytes :=
  magic ++ (headerWords (headerValues s offset newLen) ++ pre)

def journalBody (D : Digests) (s : Stamp) (offset : ℕ) (orig new : Bytes) : Bytes :=
  headerBytes s offset (offset + new.length) (fingerprint D orig offset) ++
    (orig.drop offset ++ new)

def journalBytes (D : Digests) (s : Stamp) (offset : ℕ) (orig new : Bytes) : Bytes :=
  journalBody D s offset orig new ++ le 4 (D.crc32 (journalBody D s offset orig new))

def word (header : Bytes) (i : ℕ) : ℕ := ofLe (header.slice i 8)

def parsePending (header : Bytes) (complete : Bool) : PendingJournal where
  dev := word header 8
  ino := word header 16
  len := word header 24
  offset := word header 32
  mtimeNs := mtimeNs (word header 40) (word header 48)
  newLen := word header 56
  complete := complete

structure Header where
  pending : PendingJournal
  seconds : ℕ
  nanos : ℕ
  oldInPlace : Bool
  deriving DecidableEq, Repr

/-- Compare the archive past `offset` with the journal bytes at `start`. -/
def matchesTail (file journal : Bytes) (offset start maxLen : ℕ) : Bool :=
  offset ≤ file.length && file.length - offset ≤ maxLen &&
    file.drop offset == journal.slice start (file.length - offset)

/-- `len.checked_sub(offset)` and the journal size that the lengths imply. -/
def journalSize (len offset newLen : ℕ) : Option ℕ :=
  if offset ≤ len ∧ offset ≤ newLen ∧ (len - offset) + (newLen - offset) + (headerLen + 4) < 2 ^ 64 then
    some ((len - offset) + (newLen - offset) + (headerLen + 4))
  else none

/-- The header checks of `validate`. A journal shorter than its header fails the
size check. -/
def headerOk (journal : Bytes) : Bool :=
  journal.slice 0 8 == magic && word journal 48 < 1000000000 &&
    journalSize (word journal 24) (word journal 32) (word journal 56) == some journal.length

def crcOk (D : Digests) (journal : Bytes) : Bool :=
  D.crc32 (journal.slice 0 (journal.length - 4)) == ofLe (journal.slice (journal.length - 4) 4)

def prefixOk (D : Digests) (file journal : Bytes) : Bool :=
  word journal 32 ≤ file.length && fingerprint D file (word journal 32) == journal.slice 64 32

def newMatches (file journal : Bytes) : Bool :=
  matchesTail file journal (word journal 32) (headerLen + word journal 24 - word journal 32)
    (word journal 56 - word journal 32)

def oldMatches (file journal : Bytes) : Bool :=
  matchesTail file journal (word journal 32) headerLen (word journal 24 - word journal 32)

def oldInPlace (file journal : Bytes) (len : ℕ) : Bool := oldMatches file journal && len == word journal 24

/-! ## Reading back what was written -/

@[simp] theorem length_headerWords (values : List ℕ) : (headerWords values).length=8*values.length := by
  induction values with
  | nil => rfl
  | cons v vs ih =>
    simp only [headerWords,map_cons,flatten_cons,length_append,length_le,length_cons] at ih ⊢
    omega

/-- The `k`-th value of a block of 64-bit words. -/
theorem slice_headerWords {values : List ℕ} {k v : ℕ} (h : values[k]?=some v) (post : Bytes) :
    slice (headerWords values++post) (8*k) 8=le 8 v := by
  induction values generalizing k with
  | nil => simp at h
  | cons u vs ih =>
    have hw : headerWords (u::vs)++post=le 8 u++(headerWords vs++post) := by
      simp [headerWords]
    cases k with
    | zero =>
      have hv : u=v := by simpa using h
      subst hv
      simp [hw,slice]
    | succ k =>
      exact ih (by simpa using h)

@[simp] theorem length_magic : magic.length=8 := rfl

variable {D : Digests} {s : Stamp} {offset newLen : ℕ} {pre post orig new file : Bytes}

variable (D s offset newLen orig) in
theorem length_headerBytes : (headerBytes s offset newLen (fingerprint D orig offset)).length=headerLen := by
  simp [headerBytes,headerValues,fingerprint,D.sha256_length,headerLen]

theorem word_headerBytes {k v : ℕ} (h : (headerValues s offset newLen)[k]?=some v) (hv : v<256^8) :
    word (headerBytes s offset newLen pre++post) (8+8*k)=v := by
  have hs : slice (headerBytes s offset newLen pre++post) (8+8*k) 8 =
      slice (headerWords (headerValues s offset newLen)++(pre++post)) (8*k) 8 := by
    rw [headerBytes,append_assoc,append_assoc]
    exact slice_append_right _ _ (by simp)
  rw [word,hs,slice_headerWords h,ofLe_le_of_lt hv]

/-- The lengths that a journal of this replacement stores fit its 64-bit words. -/
structure Fits (s : Stamp) (offset : ℕ) (orig new : Bytes) : Prop where
  len_eq : s.len = orig.length
  offset_le : offset ≤ orig.length
  size_lt : orig.length + new.length + (headerLen + 4) < 2 ^ 64

variable (D s offset orig new) in
theorem journalBytes_eq : journalBytes D s offset orig new =
    headerBytes s offset (offset+new.length) (fingerprint D orig offset) ++
      (orig.drop offset++(new++le 4 (D.crc32 (journalBody D s offset orig new)))) := by
  simp [journalBytes,journalBody]

variable (D s offset orig new) in
theorem length_journalBytes : (journalBytes D s offset orig new).length =
    headerLen+(orig.length-offset)+new.length+4 := by
  rw [journalBytes_eq]
  simp only [length_append,length_headerBytes,length_drop,length_le]
  omega

theorem journalBytes_nanos : word (journalBytes D s offset orig new) 48=s.mtimeNsec := by
  rw [journalBytes_eq]
  refine word_headerBytes (k := 5) rfl ?_
  omega

theorem journalBytes_ino : word (journalBytes D s offset orig new) 16=s.ino.toNat := by
  rw [journalBytes_eq]
  exact word_headerBytes (k := 1) rfl s.ino.toNat_lt

theorem journalBytes_magic : (journalBytes D s offset orig new).slice 0 8=magic := by
  rw [journalBytes_eq,headerBytes,append_assoc,slice_append_left _ _ (by simp)]
  exact slice_zero_length magic

theorem journalBytes_fingerprint : (journalBytes D s offset orig new).slice 64 32=fingerprint D orig offset := by
  rw [journalBytes_eq,headerBytes,←append_assoc magic,append_assoc]
  refine slice_append _ _ _ ?_ (D.sha256_length _).symm
  simp [headerValues]

/-- Any part of the replaced tail, read from the journal. -/
theorem journalBytes_old {k : ℕ} (hk : k≤orig.length-offset) :
    (journalBytes D s offset orig new).slice headerLen k=(orig.drop offset).take k := by
  rw [journalBytes_eq,slice_append_right (k := 0) _ _ (by rw [length_headerBytes]; rfl),
    slice_append_left _ _ (by simp; omega)]
  simp [slice]

/-- The journal's tail at `start` is compared with what follows `offset`. -/
theorem matchesTail_eq_true {journal tail : Bytes} {start : ℕ} (ho : offset≤file.length)
    (hj : ∀k≤tail.length,journal.slice start k=tail.take k) :
    matchesTail file journal offset start tail.length=true ↔ file.drop offset <+: tail := by
  simp only [matchesTail,Bool.and_eq_true,decide_eq_true_eq,beq_iff_eq,ho,true_and]
  constructor
  · rintro ⟨hl,he⟩
    rw [he,hj _ hl]
    exact take_prefix _ _
  · intro hp
    have hl:=hp.length_le
    rw [length_drop] at hl
    refine ⟨hl,?_⟩
    rw [hj _ hl,←length_drop]
    exact List.prefix_iff_eq_take.mp hp

theorem crcOk_journalBytes : crcOk D (journalBytes D s offset orig new)=true := by
  have hbody : (journalBytes D s offset orig new).length-4=(journalBody D s offset orig new).length := by
    simp [journalBytes]
  rw [crcOk,hbody,beq_iff_eq,journalBytes,slice_append_end _ _ rfl (length_le _ _).symm,
    ofLe_le_of_lt (D.crc32_lt _),slice_append_left _ _ (by simp),slice_zero_length]

section Fields

variable (h : Fits s offset orig new)
include h

theorem journalBytes_len : word (journalBytes D s offset orig new) 24=orig.length := by
  rw [journalBytes_eq,←h.len_eq]
  refine word_headerBytes (k := 2) rfl ?_
  have := h.size_lt
  rw [h.len_eq]
  omega

theorem journalBytes_offset : word (journalBytes D s offset orig new) 32=offset := by
  rw [journalBytes_eq]
  refine word_headerBytes (k := 3) rfl ?_
  have := h.size_lt
  have := h.offset_le
  omega

theorem journalBytes_newLen : word (journalBytes D s offset orig new) 56=offset+new.length := by
  rw [journalBytes_eq]
  refine word_headerBytes (k := 6) rfl ?_
  have := h.size_lt
  have := h.offset_le
  omega

/-- Any part of the replacement, read from the journal. -/
theorem journalBytes_new {k : ℕ} (hk : k≤new.length) :
    (journalBytes D s offset orig new).slice (headerLen+orig.length-offset) k=new.take k := by
  have ho:=h.offset_le
  rw [journalBytes_eq,←append_assoc,slice_append_right (k := 0) _ _ (by
    rw [length_append,length_headerBytes,length_drop]; omega),
    slice_append_left _ _ (by simp; omega)]
  simp [slice]

theorem headerOk_journalBytes : headerOk (journalBytes D s offset orig new)=true := by
  have hl:=length_journalBytes D s offset orig new
  have ho:=h.offset_le
  have hs:=h.size_lt
  have hsize : journalSize orig.length offset (offset+new.length) =
      some (journalBytes D s offset orig new).length := by
    rw [journalSize,if_pos (by omega),hl]
    congr 1
    omega
  simp only [headerOk,journalBytes_magic,journalBytes_nanos,journalBytes_len h,journalBytes_offset h,
    journalBytes_newLen h,hsize,beq_self_eq_true,s.mtimeNsec.isLt,decide_true,Bool.and_self]

theorem newMatches_iff (ho : offset≤file.length) :
    newMatches file (journalBytes D s offset orig new)=true ↔ file.drop offset <+: new := by
  rw [newMatches,journalBytes_offset h,journalBytes_len h,journalBytes_newLen h,Nat.add_sub_cancel_left]
  exact matchesTail_eq_true ho (fun k hk => journalBytes_new h hk)

theorem oldMatches_iff (ho : offset≤file.length) :
    oldMatches file (journalBytes D s offset orig new)=true ↔ file.drop offset <+: orig.drop offset := by
  rw [oldMatches,journalBytes_offset h,journalBytes_len h,←length_drop]
  exact matchesTail_eq_true ho (fun k hk => journalBytes_old (by simpa using hk))

theorem prefixOk_of_take_eq (ho : offset≤file.length) (ht : file.take offset=orig.take offset) :
    prefixOk D file (journalBytes D s offset orig new)=true := by
  have hslice : ∀a k,a+k≤offset → file.slice a k=orig.slice a k := by
    intro a k hak
    have hf : ∀xs : Bytes,offset≤xs.length → xs.slice a k=slice (xs.take offset) a k := by
      intro xs hx
      conv_lhs => rw [←take_append_drop offset xs]
      exact slice_append_left _ _ (by rw [length_take]; omega)
    rw [hf file ho,ht,←hf orig h.offset_le]
  rw [prefixOk,journalBytes_offset h,journalBytes_fingerprint]
  simp only [fingerprint,ho,decide_true,Bool.true_and,beq_iff_eq]
  rw [hslice 0 _ (by omega),hslice (offset-65536) _ (by omega)]

/-- The old bytes are in place exactly when the archive is what it was. -/
theorem oldInPlace_iff (ho : offset≤file.length) (ht : file.take offset=orig.take offset) :
    oldInPlace file (journalBytes D s offset orig new) file.length=true ↔ file=orig := by
  simp only [oldInPlace,Bool.and_eq_true,oldMatches_iff h ho,journalBytes_len h,beq_iff_eq]
  constructor
  · rintro ⟨hp,hl⟩
    have hd : file.drop offset=orig.drop offset:=hp.eq_of_length (by simp [hl])
    rw [←take_append_drop offset file,ht,hd,take_append_drop]
  · rintro rfl
    exact ⟨prefix_rfl,rfl⟩

end Fields

end Ratarmount.CommitJournal
