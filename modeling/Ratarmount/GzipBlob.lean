import Ratarmount.GzipIndex

/-!
# The exported seek index

The blob in which the offsets of an index are exported, its parser, and that the
parser returns the points that were written.
-/

namespace Ratarmount.Gzip

open List Bytes

/-- `RGZI`. -/
def gzipSeekIndexMagic : Bytes := [0x52,0x47,0x5a,0x49]

@[simp] theorem length_gzipSeekIndexMagic : gzipSeekIndexMagic.length=4 := rfl

def gzipSeekIndexVersion : ℕ := 1

def gzipSeekIndexHeaderLen : ℕ := 32

def encodePoint (p : ℕ × ℕ) : Bytes := Bytes.le 8 p.1 ++ Bytes.le 8 p.2

/-- The points of the blob; their number is cut to 32 bits. -/
def encodeGzipSeekIndexBlob (spacing uncompressedSize : ℕ) (points : List (ℕ × ℕ)) : Bytes :=
  let count := min points.length (2 ^ 32 - 1)
  gzipSeekIndexMagic ++ Bytes.le 4 gzipSeekIndexVersion ++ Bytes.le 4 0 ++ Bytes.le 8 spacing ++ Bytes.le 8 uncompressedSize ++
    Bytes.le 4 count ++ (points.take count).flatMap encodePoint

structure GzipSeekIndexBlob where
  version : ℕ
  flags : ℕ
  spacing : ℕ
  uncompressedSize : ℕ
  points : List (ℕ × ℕ)

def decodePoints (blob : Bytes) : ℕ → ℕ → List (ℕ × ℕ)
  | 0, _ => []
  | count + 1, off => ((blob.slice off 8).ofLe,(blob.slice (off + 8) 8).ofLe) :: decodePoints blob count (off + 16)

def parseGzipSeekIndexBlob (blob : Bytes) : Except GzipError GzipSeekIndexBlob :=
  if blob.length < gzipSeekIndexHeaderLen then .error (.blobTooShort blob.length)
  else if blob.slice 0 4 ≠ gzipSeekIndexMagic then .error (.badMagic (blob.slice 0 4))
  else
    let version := (blob.slice 4 4).ofLe
    if version = 0 ∨ version > gzipSeekIndexVersion then .error (.unsupportedVersion version)
    else
      let flags := (blob.slice 8 4).ofLe
      if flags ≠ 0 then .error (.unknownFlags flags)
      else
        let spacing := (blob.slice 12 8).ofLe
        let uncompressedSize := (blob.slice 20 8).ofLe
        let pointCount := (blob.slice 28 4).ofLe
        let need := gzipSeekIndexHeaderLen + pointCount * 16
        if blob.length < need then .error (.blobTruncated blob.length need pointCount)
        else
          let points := decodePoints blob pointCount gzipSeekIndexHeaderLen
          if (points.zip points.tail).any fun w => decide (w.2.2 < w.1.2) then .error .pointsNotSorted
          else .ok ⟨version,flags,spacing,uncompressedSize,points⟩

def exportSeekIndexBlob {S : Type} (index : GzipSeekIndex S) : Bytes :=
  encodeGzipSeekIndexBlob index.spacing index.uncompressedSize (index.checkpoints.map Checkpoint.offsets)

def Ascending (points : List (ℕ × ℕ)) : Prop := points.Pairwise fun a b => a.2 ≤ b.2

theorem not_any_descent {points : List (ℕ × ℕ)} (h : Ascending points) :
    ((points.zip points.tail).any fun w => decide (w.2.2<w.1.2))=false := by
  induction points with
  | nil => rfl
  | cons p points ih =>
    rw [Ascending,pairwise_cons] at h
    cases points with
    | nil => rfl
    | cons q points =>
      have hpq:=h.1 q mem_cons_self
      have hrest:=ih h.2
      simp only [tail_cons] at hrest
      simp only [tail_cons,zip_cons_cons,any_cons,hrest,Bool.or_false,decide_eq_false_iff_not]
      omega

@[simp] theorem length_encodePoint (p : ℕ × ℕ) : (encodePoint p).length=16 := by simp [encodePoint]

def Fit (points : List (ℕ × ℕ)) : Prop := ∀ p ∈ points, p.1 < 2 ^ 64 ∧ p.2 < 2 ^ 64

theorem decodePoints_encoded {points : List (ℕ × ℕ)} (hfit : Fit points) (pre : Bytes) {off : ℕ}
    (hoff : off=pre.length) : decodePoints (pre++points.flatMap encodePoint) points.length off=points := by
  induction points generalizing pre off with
  | nil => rfl
  | cons p points ih =>
    obtain ⟨hc,hu⟩:=hfit p mem_cons_self
    have hrest:=@ih (fun q hq => hfit q (mem_cons_of_mem _ hq)) (pre++encodePoint p) (off+16)
      (by simp [hoff])
    rw [append_assoc] at hrest
    have hfirst : slice (pre++(p::points).flatMap encodePoint) off 8=Bytes.le 8 p.1 := by
      rw [flatMap_cons,encodePoint,append_assoc]
      exact slice_append pre _ _ hoff (by simp)
    have hsecond : slice (pre++(p::points).flatMap encodePoint) (off+8) 8=Bytes.le 8 p.2 := by
      rw [flatMap_cons,encodePoint,append_assoc,←append_assoc]
      exact slice_append (pre++Bytes.le 8 p.1) _ _ (by simp [hoff]) (by simp)
    rw [length_cons,decodePoints,hfirst,hsecond,ofLe_le_of_lt hc,ofLe_le_of_lt hu,flatMap_cons,hrest]

/-- The parser returns the points that the blob has room for. -/
theorem parse_encode {points : List (ℕ × ℕ)} (hfit : Fit points) (hup : Ascending points) {spacing size : ℕ}
    (hsize : size<2^64) : parseGzipSeekIndexBlob (encodeGzipSeekIndexBlob spacing size points) =
      .ok ⟨1,0,spacing % 2^64,size,points.take (2^32-1)⟩ := by
  obtain ⟨kept,hkept⟩ : ∃kept,kept=points.take (min points.length (2^32 - 1)):=⟨_,rfl⟩
  have htake : points.take (2^32-1)=kept := by
    rw [hkept,Nat.min_comm,←take_eq_take_min]
  have hcount : kept.length=min points.length (2^32-1) := by
    rw [hkept,length_take]
    omega
  have hkeptFit : Fit kept:=fun p hp => hfit p (mem_of_mem_take (hkept ▸ hp))
  have hkeptUp : Ascending kept := by
    rw [hkept]
    exact List.Pairwise.sublist (take_sublist _ _) hup
  rw [encodeGzipSeekIndexBlob,←hkept,←hcount,htake]
  have hlt : kept.length<256^4 := by omega
  obtain ⟨blob,hblob⟩ : ∃blob,blob=gzipSeekIndexMagic++Bytes.le 4 gzipSeekIndexVersion++Bytes.le 4 0 ++
    Bytes.le 8 spacing++Bytes.le 8 size++Bytes.le 4 kept.length++kept.flatMap encodePoint := ⟨_,rfl⟩
  have hfields : blob=[gzipSeekIndexMagic,Bytes.le 4 gzipSeekIndexVersion,Bytes.le 4 0,Bytes.le 8 spacing,
      Bytes.le 8 size,Bytes.le 4 kept.length,kept.flatMap encodePoint].flatten := by
    simp [hblob]
  have hlength : blob.length=gzipSeekIndexHeaderLen+kept.length*16 := by
    rw [hblob]
    simp [gzipSeekIndexHeaderLen]
    omega
  have hmagic : blob.slice 0 4=gzipSeekIndexMagic := by
    rw [hfields]
    exact slice_flatten 0 rfl rfl rfl
  have hversion : (blob.slice 4 4).ofLe=1 := by
    rw [hfields]
    rfl
  have hflags : (blob.slice 8 4).ofLe=0 := by
    rw [hfields]
    rfl
  have hspacing : (blob.slice 12 8).ofLe=spacing % 2^64 := by
    rw [hfields,slice_flatten 3 (by rfl) (by rfl) (by rfl),ofLe_le]
    rfl
  have hsizeField : (blob.slice 20 8).ofLe=size := by
    rw [hfields,slice_flatten 4 (by rfl) (by rfl) (by rfl),ofLe_le_of_lt hsize]
  have hpointCount : (blob.slice 28 4).ofLe=kept.length := by
    rw [hfields,slice_flatten 5 (by rfl) (by rfl) (by rfl),ofLe_le_of_lt hlt]
  have hpoints : decodePoints blob kept.length gzipSeekIndexHeaderLen=kept := by
    rw [hblob]
    exact decodePoints_encoded hkeptFit _ (by simp [gzipSeekIndexHeaderLen])
  rw [←hblob,parseGzipSeekIndexBlob,if_neg (by omega),if_neg (not_not_intro hmagic)]
  simp only [hversion,hflags,hspacing,hsizeField,hpointCount,hpoints,not_any_descent hkeptUp]
  rw [if_neg (by simp [gzipSeekIndexVersion]),if_neg (by simp),if_neg (by omega)]
  rfl

end Ratarmount.Gzip
