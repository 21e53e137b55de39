import Ratarmount.PieceCursors
import Mathlib.Data.List.GetD
import Mathlib.Logic.Equiv.Defs

/-!
# Ranges of encrypted 7z data

`AesPackSource` decrypts a range of a CBC ciphertext from the blocks that cover it and the
block before them. The key is behind the permutation of blocks that it stands for.
-/

namespace Ratarmount.SevenZip

open Seekable List Bytes

abbrev Block := Fin 16 → UInt8

def blockAt (data : Bytes) (b : ℕ) : Block := fun j => data.getD (16 * b + j) 0

namespace Block

scoped instance neZero : NeZero (16 : ℕ) := inferInstance

end Block

open scoped Block in
/-- CBC decryption of whole blocks: each is decrypted and added to the one before it. -/
def cbcDecrypt (dec : Equiv.Perm Block) (iv : Block) (data : Bytes) : Bytes :=
  (range data.length).map fun k =>
    dec (blockAt data (k / 16)) (Fin.ofNat 16 k) ^^^ (if k / 16 = 0 then iv else blockAt data (k / 16 - 1)) (Fin.ofNat 16 k)

/-- `resize(n, 0)` of a buffer that is not longer. -/
def padTo (data : Bytes) (n : ℕ) : Bytes := data ++ zeros (n - data.length)

def packReadAt (region : Bytes) (offset size : ℕ) : Bytes :=
  if size = 0 ∨ region.length ≤ offset then [] else region.slice offset (min size (region.length - offset))

def padBlocks (data : Bytes) : Bytes := if data.length % 16 ≠ 0 then padTo data (data.length + (16 - data.length % 16)) else data

structure AesPackSource where
  inner : Bytes
  plainSize : ℕ
  dec : Equiv.Perm Block
  iv : Block

namespace AesPackSource

/-- The end of `read_at`: what the blocks `decCt` decrypt to from `plainOff` on. -/
def decryptRange (src : AesPackSource) (blockIv : Block) (decCt : Bytes) (plainOff size : ℕ) : Option Bytes :=
  if decCt = [] then some []
  else if (padBlocks decCt).length % 16 ≠ 0 then none
  else
    let plain := cbcDecrypt src.dec blockIv (padBlocks decCt)
    if plain.length ≤ plainOff then some []
    else some (plain.slice plainOff (min (plainOff + size) plain.length - plainOff))

def readAt (src : AesPackSource) (offset size : ℕ) : Option Bytes :=
  if size = 0 ∨ src.plainSize ≤ offset then some []
  else
    let size := min size (src.plainSize - offset)
    let startBlock := offset / 16
    let endBlock := (offset + size + 15) / 16
    let ctStart := if startBlock = 0 then 0 else (startBlock - 1) * 16
    let ctEnd := endBlock * 16
    let ct := packReadAt src.inner ctStart (ctEnd - ctStart)
    let ct := padBlocks (if ct.length < ctEnd - ctStart then padTo ct (ctEnd - ctStart) else ct)
    if startBlock = 0 then src.decryptRange src.iv ct offset size
    else src.decryptRange (blockAt ct 0) (ct.drop 16) (offset - startBlock * 16) size

/-- The decryption of the ciphertext, which zero blocks continue, up to the declared size. -/
def plain (src : AesPackSource) : Bytes :=
  (cbcDecrypt src.dec src.iv (padTo src.inner ((max src.inner.length src.plainSize + 15) / 16 * 16))).take src.plainSize

end AesPackSource

variable {data : Bytes} {dec : Equiv.Perm Block} {iv : Block}

theorem length_cbcDecrypt : (cbcDecrypt dec iv data).length=data.length := by simp [cbcDecrypt]

theorem length_padTo {n : ℕ} (h : data.length≤n) : (padTo data n).length=n := by
  simp [padTo]
  omega

theorem getD_padTo (data : Bytes) (n i : ℕ) : (padTo data n).getD i 0=data.getD i 0 := by
  by_cases h : i<data.length
  · rw [padTo,getD_append _ _ _ _ h]
  · rw [padTo,getD_append_right _ _ _ _ (not_lt.mp h),getD_eq_default _ _ (not_lt.mp h)]
    by_cases h' : i-data.length<n-data.length
    · rw [zeros,getD_replicate _ h']
    · exact getD_eq_default _ _ (by rw [length_zeros]; omega)

/-- What the pack source gives of a range of blocks, continued by zeros. -/
theorem packReadAt_padded (region : Bytes) (a : ℕ) {n : ℕ} (hn : n % 16=0) {ct : Bytes} (hct : ct=padBlocks
    (if (packReadAt region a n).length<n then padTo (packReadAt region a n) n else packReadAt region a n)) :
    ct.length=n ∧ ∀i<n,ct.getD i 0=region.getD (a+i) 0 := by
  have hread : packReadAt region a n=region.slice a n := by
    rw [packReadAt]
    split_ifs with h
    · symm
      rw [←length_eq_zero_iff,length_slice]
      omega
    · rw [slice,slice,take_eq_take_iff,length_drop]
      omega
  have hlen : (region.slice a n).length≤n := by simp
  have hpad : (if (region.slice a n).length<n then padTo (region.slice a n) n else region.slice a n)=padTo (region.slice a n) n := by
    split_ifs with h
    · rfl
    · rw [padTo,Nat.sub_eq_zero_of_le (not_lt.mp h)]
      exact (append_nil _).symm
  rw [hread,hpad,padBlocks,length_padTo hlen,if_neg (not_not.mpr hn)] at hct
  rw [hct]
  refine ⟨length_padTo hlen,fun i hi => ?_⟩
  rw [getD_padTo]
  simp [slice,hi]

/-- Decrypting from a block on needs the block before it alone. -/
theorem cbcDecrypt_from {part : Bytes} {s : ℕ} (hpart : ∀i<part.length,part.getD i 0=data.getD (16*s+i) 0)
    (hfits : 16*s+part.length≤data.length) (hwhole : part.length % 16=0) {iv' : Block}
    (hiv : iv'=if s=0 then iv else blockAt data (s-1)) :
    cbcDecrypt dec iv' part=(cbcDecrypt dec iv data).slice (16*s) part.length := by
  have hblock {b : ℕ} (hb : 16*b<part.length) : blockAt part b=blockAt data (s+b) := by
    funext j
    rw [blockAt,hpart _ (by omega)]
    congr 1
    ring
  refine ext_getElem (by simp [length_cbcDecrypt]; omega) fun i hi _ => ?_
  rw [length_cbcDecrypt] at hi
  have hindex : Fin.ofNat 16 (16*s+i)=Fin.ofNat 16 i := by
    ext
    simp
  have hdiv : (16*s+i) / 16=s+i / 16 := by omega
  simp only [cbcDecrypt,slice,getElem_take,getElem_drop,getElem_map,getElem_range]
  rw [hindex,hdiv,hblock (by omega),hiv]
  congr 2
  by_cases hi0 : i / 16=0
  · rw [if_pos hi0,hi0,add_zero]
  · rw [if_neg hi0,if_neg (by omega),hblock (by omega),Nat.add_sub_assoc (by omega)]

namespace AesPackSource

variable (src : AesPackSource)

theorem decryptRange_eq {part : Bytes} (hwhole : part.length % 16=0) {plainOff size : ℕ} (hsize : 0<size)
    (hfits : plainOff+size≤part.length) (iv : Block) :
    src.decryptRange iv part plainOff size=some ((cbcDecrypt src.dec iv part).slice plainOff size) := by
  have hne : part≠[]:=ne_nil_of_length_pos (by omega)
  have hpad : padBlocks part=part:=if_neg (not_not.mpr hwhole)
  rw [decryptRange,if_neg hne,hpad,if_neg (not_not.mpr hwhole)]
  dsimp only
  rw [length_cbcDecrypt,if_neg (by omega),min_eq_left hfits,Nat.add_sub_cancel_left]

/-- Every range reads as it does in the whole decryption. -/
theorem readAt_eq (offset size : ℕ) : src.readAt offset size=some (src.plain.slice offset size) := by
  rw [readAt,plain]
  have hget (n i : ℕ) : (padTo src.inner n).getD i 0=src.inner.getD i 0:=getD_padTo _ _ _
  have hlong:=@length_padTo src.inner ((max src.inner.length src.plainSize+15) / 16*16) (by omega)
  have hget:=hget ((max src.inner.length src.plainSize+15) / 16*16)
  generalize padTo src.inner ((max src.inner.length src.plainSize+15) / 16*16)=full at hget hlong ⊢
  rw [slice,drop_take,take_take,←slice]
  split_ifs with hend
  · symm
    rw [Option.some_inj,←length_eq_zero_iff,length_slice]
    omega
  have hsize : 0 < min size (src.plainSize-offset) ∧ offset+min size (src.plainSize-offset) ≤ src.plainSize := by omega
  generalize min size (src.plainSize-offset)=n at hsize ⊢
  -- the blocks from the first one of the range to its last one, and the vector that they start with
  have hrange {part : Bytes} {iv : Block} (hlen : 16*(offset / 16)+part.length=(offset+n+15) / 16*16)
      (hpart : ∀i<part.length,part.getD i 0=full.getD (16*(offset / 16)+i) 0)
      (hiv : iv=if offset / 16=0 then src.iv else blockAt full (offset / 16-1)) :
      src.decryptRange iv part (offset-16*(offset / 16)) n=some ((cbcDecrypt src.dec src.iv full).slice offset n) := by
    rw [src.decryptRange_eq (by omega) hsize.1 (by omega),cbcDecrypt_from hpart (by omega) (by omega) hiv,
      slice_slice _ (by omega),Nat.add_sub_cancel' (by omega)]
  by_cases hstart : offset / 16=0
  · simp only [hstart,if_true] at hrange ⊢
    generalize hct : padBlocks _=ct
    obtain ⟨hlen,hct⟩:=packReadAt_padded _ _ (by omega) hct.symm
    exact hrange (by omega) (fun i hi => by rw [hct i (by omega),hget]) rfl
  · simp only [hstart,if_false] at hrange ⊢
    generalize hct : padBlocks _=ct
    obtain ⟨hlen,hct⟩:=packReadAt_padded _ _ (by omega) hct.symm
    rw [mul_comm]
    refine hrange (by rw [length_drop]; omega) (fun i hi => ?_) ?_
    · rw [length_drop] at hi
      rw [getD_eq_getElem?_getD,getElem?_drop,←getD_eq_getElem?_getD,hct _ (by omega),hget]
      congr 1
      omega
    · funext j
      rw [blockAt,blockAt,hct _ (by omega),hget]
      congr 1
      omega

end AesPackSource

structure PackSourceReader where
  base : ℕ
  len : ℕ
  pos : ℕ

namespace PackSourceReader

variable (src : AesPackSource)

/-- The offset in the pack source is a sum of 64-bit words. -/
def read (r : PackSourceReader) (n : ℕ) : PackSourceReader × Reply :=
  if r.len ≤ r.pos ∨ n = 0 then (r,.bytes [])
  else
    let want := min (r.len - r.pos) n
    match src.readAt ((r.base + r.pos) % 2 ^ 64) want with
    | none => (r,.error)
    | some data => ({ r with pos := r.pos + min data.length want },.bytes (data.take (min data.length want)))

def seek (r : PackSourceReader) (dest : SeekFrom) : PackSourceReader × Reply :=
  let new := seekTarget r.len r.pos dest
  if new < 0 then (r,.error) else ({ r with pos := new.toNat },.moved new.toNat)

def step (r : PackSourceReader) (call : Call) (_ : Unit) : PackSourceReader × Reply :=
  match call with
  | .seek dest => r.seek dest
  | .read n => r.read src n

/-- A call of a reader of the window `len` bytes long at `base`: a read returns all that the plain text has of the
bytes asked for. A seek that ends where no `i64` points is refused. -/
def ReaderStep (base len pos : ℕ) (call : Call) (reply : Reply) (pos' : ℕ) : Prop :=
  match call, reply with
  | .read n, .bytes out => out = src.plain.slice (base + pos) (min (len - pos) n) ∧ pos' = pos + out.length
  | .seek dest, .moved p => (len < 2 ^ 63 → pos < 2 ^ 63 → dest.target len pos = some p ∧ p < 2 ^ 63) ∧ pos' = p
  | .seek dest, .error => (len < 2 ^ 63 → pos < 2 ^ 63 → ∀ p, dest.target len pos = some p → 2 ^ 63 ≤ p) ∧ pos' = pos
  | _, _ => False

theorem step_reads (r : PackSourceReader) {call : Call} (hcall : call.Fits) (hfits : r.base+r.len≤2^64) :
    ((r.step src call ()).1.base=r.base ∧ (r.step src call ()).1.len=r.len) ∧
      ReaderStep src r.base r.len r.pos call (r.step src call ()).2 (r.step src call ()).1.pos := by
  cases call with
  | read n =>
    rw [step,read]
    dsimp only
    split_ifs with hend
    · refine ⟨⟨rfl,rfl⟩,?_,rfl⟩
      symm
      rw [←length_eq_zero_iff,length_slice]
      omega
    · have htake : (src.plain.slice (r.base+r.pos) (min (r.len-r.pos) n)).length ≤ min (r.len-r.pos) n := by simp
      rw [Nat.mod_eq_of_lt (by omega),src.readAt_eq]
      dsimp only
      rw [min_eq_left htake,take_length]
      exact ⟨⟨rfl,rfl⟩,rfl,rfl⟩
  | seek dest =>
    rw [step,seek]
    split_ifs with hneg
    · exact ⟨⟨rfl,rfl⟩,fun hlen hpos p hp => seekTarget_neg hlen hpos hneg hp,rfl⟩
    · exact ⟨⟨rfl,rfl⟩,fun hlen hpos => seekTarget_spec hlen hpos hcall (not_lt.mp hneg),rfl⟩

end PackSourceReader

/-- Ranges of the encrypted data are slices of its decryption, by themselves and through every run of a reader. -/
theorem aes_ranges (src : AesPackSource) :
    (∀ offset size, src.readAt offset size = some (src.plain.slice offset size)) ∧
      ∀ (base len : ℕ) (calls : List (Call × Unit)), base + len ≤ 2 ^ 64 → (∀ x ∈ calls, x.1.Fits) →
        Along (PackSourceReader.ReaderStep src base len) 0
          (run (PackSourceReader.step src) PackSourceReader.pos ⟨base,len,0⟩ calls) := by
  refine ⟨src.readAt_eq,fun base len calls hfits hcalls => ?_⟩
  refine along_of (fun r : PackSourceReader => r.base = base ∧ r.len = len) ?_ hcalls ⟨rfl,rfl⟩ rfl
  rintro r call _ hcall ⟨rfl,rfl⟩
  exact r.step_reads src hcall hfits

end Ratarmount.SevenZip
