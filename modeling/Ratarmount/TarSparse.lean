import Ratarmount.SegmentedFile
import Ratarmount.TarIndexWalk
import Ratarmount.TarWriter

/-!
# Sparse members

`open_sparse_member` reads the map of a sparse member again, in the old-GNU
format or one of the PAX formats, and presents the stored segments with zeros in
between.
-/

namespace Ratarmount.Tar

open Compress Seekable List Bytes FileSegment SegmentedFile

/-- `segments_from_map` from the data at `cursor` on, behind the extents that end at `lastEnd`. -/
def segmentsFromMap (logicalSize : ℕ) : List (ℕ × ℕ) → ℕ → ℕ → Except TarError (List FileSegment)
  | [], _, lastEnd => .ok (if lastEnd < logicalSize then [.zero (logicalSize - lastEnd)] else [])
  | (off,num) :: map, cursor, lastEnd =>
    if off = 0 ∧ num = 0 then segmentsFromMap logicalSize map cursor lastEnd
    else if off < lastEnd then .error (.invalidData "sparse map not sorted / overlapping")
    else do
      let rest ← segmentsFromMap logicalSize map (u64 (cursor + num)) (u64 (off + num))
      return (if lastEnd < off then [.zero (off - lastEnd)] else []) ++
        ((if 0 < num then [.data cursor num] else []) ++ rest)

/-- The pairs of an old-GNU map in a block. -/
def gnuEntries (block : Bytes) (base count : ℕ) : List (ℕ × ℕ) :=
  ((List.range count).map fun i =>
    ((parseOctal (block.slice (base + i * 24) 12)).getD 0,(parseOctal (block.slice (base + i * 24 + 12) 12)).getD 0)).filter
    fun e => e.1 ≠ 0 ∨ e.2 ≠ 0

/-- The pairs of the extension blocks, and the position behind them. -/
def gnuExtensions (data : Bytes) : ℕ → Bool → ℕ → Except TarError (List (ℕ × ℕ) × ℕ)
  | _, false, off => .ok ([],off)
  | 0, true, _ => .error .diverged
  | fuel + 1, true, off => do
    let ext ← readExact data off blockSize
    let rest ← gnuExtensions data fuel (ext.getD 504 0 ≠ 0) (off + blockSize)
    return (gnuEntries ext 0 21 ++ rest.1,rest.2)

/-- The pairs of a list of numbers; an odd one at the end is left. -/
def pairUp : List ℕ → List (ℕ × ℕ)
  | off :: len :: rest => if off ≠ 0 ∨ len ≠ 0 then (off,len) :: pairUp rest else pairUp rest
  | _ => []

def sparseMapFromPax (pax : PaxParsed) : List (ℕ × ℕ) :=
  match pax.map PaxKey.sparseMap with
  | some m => pairUp ((m.splitOn ',').filterMap fun s => parseU64 (ArchivePath.trim s))
  | none => pax.sparsePairs

/-- The header of the member, behind an `x` record in front of it. -/
def openHeader (data : Bytes) (headerOffset : ℕ) : Except TarError (PaxParsed × ℕ × Bytes) := do
  let header ← readExact data headerOffset blockSize
  if typeflag header = 120 then
    let size := sizeField header
    if maxHeaderPayloadBytes < size then
      throw (.invalidData s!"PAX header payload size {size} exceeds cap of {maxHeaderPayloadBytes} bytes")
    let body ← readExact data (headerOffset + blockSize) size
    let pax ← parsePaxRecords body
    let header ← readExact data (headerOffset + blockSize + pad512 size) blockSize
    return (pax,headerOffset + blockSize + pad512 size,header)
  else return (PaxParsed.empty,headerOffset,header)

def openRealSize (pax : PaxMap) (header : Bytes) (logicalSize : ℕ) : ℕ :=
  let real := ((pax PaxKey.sparseRealsize).bind parseU64).getD logicalSize
  let real := ((pax PaxKey.sparseSize).bind parseU64).getD real
  if typeflag header = 83 then (parseOctal (header.slice 483 12)).getD real else real

/-- `parse_sparse_1_0_map` over the reader: one read into a buffer of 64 blocks. -/
def readSparse10Map (data : Bytes) (inner : Chunking data.length) (dataStart : ℕ) :
    Except TarError (List (ℕ × ℕ) × ℕ) :=
  parseSparse10Map (data.slice dataStart (inner.chunk dataStart (512 * 64))) dataStart

/-- The map and the position of the data for a header at `pos`. -/
def openMap (data : Bytes) (inner : Chunking data.length) (pax : PaxParsed) (pos : ℕ) (header : Bytes)
    (dataOffset : ℕ) : Except TarError (List (ℕ × ℕ) × ℕ) :=
  let contentOff := pos + blockSize
  if typeflag header = 83 then do
    let (map,contentOff) ← gnuExtensions data (data.length / blockSize + 1) (header.getD 482 0 ≠ 0) contentOff
    return (gnuEntries header 386 4 ++ map,contentOff)
  else if pax.map PaxKey.sparseMajor = some ['1'] then readSparse10Map data inner contentOff
  else .ok (sparseMapFromPax pax,if 0 < dataOffset then dataOffset else contentOff)

def openSparseMember (data : Bytes) (inner : Chunking data.length) (headerOffset dataOffset logicalSize : ℕ) :
    Except TarError SegmentedFile := do
  let (pax,pos,header) ← openHeader data headerOffset
  let realSize := openRealSize pax.map header logicalSize
  let (map,contentOff) ← openMap data inner pax pos header dataOffset
  if map = [] then return .stenciled [(max dataOffset contentOff,realSize)]
  else
    let segments ← segmentsFromMap realSize map contentOff 0
    return .new segments

/-! ## What a sparse member holds -/

/-- The byte at `i` of a sparse file with that map and stored data: the stored byte within an extent, zero elsewhere. -/
def sparseByte : List (ℕ × ℕ) → Bytes → ℕ → UInt8
  | [], _, _ => 0
  | (off,num) :: map, stored, i =>
    if off ≤ i ∧ i < off + num then stored.getD (i - off) 0 else sparseByte map (stored.drop num) i

def sparseContent (map : List (ℕ × ℕ)) (stored : Bytes) (realSize : ℕ) : Bytes :=
  (List.range realSize).map (sparseByte map stored)

/-- Extents in order that do not overlap, from `lastEnd` to `size`. -/
def Extents (size : ℕ) : ℕ → List (ℕ × ℕ) → Prop
  | lastEnd, [] => lastEnd ≤ size
  | lastEnd, (off,num) :: map => lastEnd ≤ off ∧ Extents size (off + num) map

def storedSize (map : List (ℕ × ℕ)) : ℕ := (map.map Prod.snd).sum

variable {size lastEnd : ℕ} {map : List (ℕ × ℕ)}

theorem Extents.le (h : Extents size lastEnd map) : lastEnd ≤ size := by
  induction map generalizing lastEnd with
  | nil => exact h
  | cons e map ih =>
    have := ih h.2
    have := h.1
    omega

theorem sparseByte_below {i : ℕ} (h : Extents size lastEnd map) (hi : i<lastEnd) (stored : Bytes) : sparseByte map stored i=0 := by
  induction map generalizing lastEnd stored with
  | nil => rfl
  | cons e map ih =>
    obtain ⟨off,num⟩:=e
    have hoff:=h.1
    rw [sparseByte,if_neg (by omega)]
    exact ih h.2 (by omega) _

/-- The content from an extent on: a hole, the stored bytes, and the content behind the extent. -/
theorem sparseContent_cons {off num : ℕ} {here later : Bytes} (h : Extents size lastEnd ((off,num)::map))
    (hhere : here.length=num) :
    (List.range' lastEnd (size-lastEnd)).map (sparseByte ((off,num)::map) (here++later)) = zeros (off-lastEnd) ++
        (here++(List.range' (off+num) (size-(off+num))).map (sparseByte map later)) := by
  have hoff:=h.1
  have hend:=Extents.le h.2
  have hsplit : List.range' lastEnd (size-lastEnd) =
      List.range' lastEnd (off-lastEnd)++(List.range' off num++List.range' (off+num) (size-(off+num))) := by
    obtain ⟨gap,rfl⟩ : ∃gap,off=lastEnd+gap:=⟨off - lastEnd,by omega⟩
    rw [range'_append_1,Nat.add_sub_cancel_left,range'_append_1]
    congr 1
    omega
  have hdrop : (here++later).drop num=later:=drop_left' hhere
  rw [hsplit,map_append,map_append]
  congr 1
  · apply ext_getElem (by simp)
    intro i hi hi'
    rw [length_map,length_range'] at hi
    rw [getElem_map,getElem_range',sparseByte,if_neg (by omega),
      sparseByte_below h.2 (by omega)]
    simp [zeros]
  · congr 1
    · apply ext_getElem (by simp [hhere])
      intro i hi hi'
      rw [getElem_map,getElem_range',sparseByte,if_pos (by omega)]
      rw [show off+1*i-off=i by omega,getD_eq_getElem?_getD,getElem?_append_left hi',
        getElem?_eq_getElem hi',Option.getD_some]
    · apply map_congr_left
      intro i hi
      rw [mem_range'_1] at hi
      rw [sparseByte,if_neg (by omega),hdrop]

theorem map_sparseByte_nil (offsets : List ℕ) (stored : Bytes) : offsets.map (sparseByte [] stored)=zeros offsets.length := by
  rw [zeros,eq_replicate_iff]
  refine ⟨length_map _,?_⟩
  intro b hb
  obtain ⟨i,-,rfl⟩:=mem_map.mp hb
  rfl

theorem segmentsFromMap_ok {data : Bytes} (hsize : size<2^64) (hlen : data.length<2^64)
    {pre stored rest : Bytes} (hmap : Extents size lastEnd map) (hstored : stored.length=storedSize map)
    (hdata : data=pre++(stored++rest)) : ∃segments,segmentsFromMap size map pre.length lastEnd = .ok segments ∧
      (∀s∈segments,s.Within data.length) ∧ content data segments =
        (List.range' lastEnd (size-lastEnd)).map (sparseByte map stored) := by
  induction map generalizing lastEnd pre stored with
  | nil =>
    rw [segmentsFromMap,map_sparseByte_nil,length_range']
    by_cases hlt : lastEnd<size
    · rw [if_pos hlt]
      refine ⟨_,rfl,?_,?_⟩
      · intro s hs
        rw [mem_singleton.mp hs]
        trivial
      · rw [content_cons,content_nil,append_nil,bytes]
    · rw [if_neg hlt]
      refine ⟨_,rfl,by simp,?_⟩
      rw [show size-lastEnd=0 by omega]
      rfl
  | cons e map ih =>
    obtain ⟨off,num⟩:=e
    have hoff:=hmap.1
    have hend:=Extents.le hmap.2
    have hsum : stored.length=num+storedSize map := by
      rw [hstored]
      rfl
    obtain ⟨here,later,rfl,hhere⟩ : ∃here later,stored=here++later ∧ here.length=num :=
      ⟨stored.take num,stored.drop num,(take_append_drop num stored).symm,length_take_of_le (by omega)⟩
    have hlater : later.length=storedSize map := by
      rw [length_append] at hsum
      omega
    have hdata' : data=(pre++here)++(later++rest) := by simp [hdata]
    have hlength : data.length=pre.length+(num+(later.length+rest.length)) := by
      simp [hdata',hhere]
    obtain ⟨segments,hsegments,hwithin,hcontent⟩:=@ih (off+num) (pre++here) later hmap.2 hlater hdata'
    rw [length_append,hhere] at hsegments
    rw [segmentsFromMap,sparseContent_cons hmap hhere]
    by_cases hzero : off=0 ∧ num=0
    · obtain ⟨rfl,rfl⟩:=hzero
      have hnil:=eq_nil_of_length_eq_zero hhere
      have hlast : lastEnd=0 := by omega
      subst hlast hnil
      refine ⟨segments,hsegments,hwithin,?_⟩
      rw [hcontent]
      rfl
    · rw [if_neg hzero,if_neg (by omega),u64_eq (by omega),u64_eq (by omega),hsegments]
      refine ⟨_,rfl,?_,?_⟩
      · intro s hs
        rcases mem_append.mp hs with hs | hs
        · rw [mem_ite_nil_right,mem_singleton] at hs
          rw [hs.2]
          trivial
        · rcases mem_append.mp hs with hs | hs
          · rw [mem_ite_nil_right,mem_singleton] at hs
            rw [hs.2]
            show pre.length+num≤data.length
            omega
          · exact hwithin s hs
      · rw [content_append,content_append]
        congr 1
        · split_ifs with hgap
          · rw [content_cons,content_nil,append_nil,bytes]
          · rw [show off-lastEnd=0 by omega]
            rfl
        · congr 1
          split_ifs with hnum
          · rw [content_cons,content_nil,append_nil,bytes,hdata,append_assoc]
            exact slice_append _ _ _ rfl hhere.symm
          · rw [eq_nil_of_length_eq_zero (hhere.trans (by omega)),content_nil]

end Ratarmount.Tar
