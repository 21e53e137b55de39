import Ratarmount.TarSparse
import Ratarmount.TarWrittenMember

/-!
# The PAX sparse 1.0 map

The map stands in front of the data as decimal lines: the number of extents, then
offset and size of each. `parse_sparse_1_0_map` takes it from a single read, so
it finds the whole map exactly when that read returns all its lines.
-/

namespace Ratarmount.Tar

open Compress Seekable List Bytes ArchivePath Option Numeral

def mapLine (n : ℕ) : Bytes := Utf8.encode (Numeral.text 10 n) ++ [10]

def mapLines (map : List (ℕ × ℕ)) : Bytes := map.flatMap fun e => mapLine e.1 ++ mapLine e.2

def mapText (map : List (ℕ × ℕ)) : Bytes := mapLine map.length ++ mapLines map

def mapBlock (map : List (ℕ × ℕ)) : Bytes := mapText map ++ padding (mapText map).length

@[simp] theorem mapLines_nil : mapLines []=[] := rfl

@[simp] theorem mapLines_cons (e : ℕ × ℕ) (map : List (ℕ × ℕ)) :
    mapLines (e::map)=mapLine e.1++(mapLine e.2++mapLines map) := by
  simp [mapLines]

theorem newline_not_mem (n : ℕ) : (10 : UInt8)∉Utf8.encode (Numeral.text 10 n) := by
  apply Utf8.not_mem_encode (by decide)
  intro hmem
  have := mem_text (by decide) (by decide) hmem
  rw [show (Char.ofNat (10 : UInt8).toNat).toNat=10 from rfl] at this
  omega

/-- The end of a line, where the bytes reach so far. -/
theorem findIdx_line (n j : ℕ) (t : Bytes) : ((mapLine n++t).take j).findIdx? (·=10) =
      if (mapLine n).length≤j then some (Utf8.encode (Numeral.text 10 n)).length else none := by
  generalize hd : Utf8.encode (Numeral.text 10 n)=digits
  have hnone : digits.findIdx? (·=10)=none := by
    rw [findIdx?_eq_none_iff]
    intro b hb
    have hne : b≠10 := by
      rintro rfl
      exact newline_not_mem n (hd ▸ hb)
    simpa using hne
  have hline : mapLine n=digits++[10] := by rw [mapLine,hd]
  rw [hline,length_append,length_singleton]
  split_ifs with hj
  · obtain ⟨k,rfl⟩ : ∃k,j=digits.length+1+k:=⟨j - (digits.length+1),by omega⟩
    have htake : ((digits++[10])++t).take (digits.length+1+k)=digits++(10::t.take k) := by
      rw [take_append,take_of_length_le (by simp)]
      simp
    rw [htake,findIdx?_append,hnone,findIdx?_cons]
    simp
  · have htake : ((digits++[10])++t).take j=digits.take j := by
      rw [append_assoc,take_append_of_le_length (by omega)]
    rw [htake,findIdx?_eq_none_iff]
    intro b hb
    exact findIdx?_eq_none_iff.mp hnone b (mem_of_mem_take hb)

theorem mapNumber_text {n : ℕ} (hn : n<2^64) : mapNumber (Utf8.encode (Numeral.text 10 n))=n := by
  have hwhite : trim (Numeral.text 10 n)=Numeral.text 10 n := by
    apply trim_eq
    intro c hc
    have := mem_text (by decide) (by decide) hc
    simp [isWhite]
    omega
  have hparse : parseU64 (Numeral.text 10 n)=some n:=parse_text (by decide) (by decide) 0 hn
  rw [mapNumber,Utf8.decodeStrict_encode,getD_some,hwhite,hparse,getD_some]

def NumbersFit (map : List (ℕ × ℕ)) : Prop := ∀ e ∈ map, e.1 < 2 ^ 64 ∧ e.2 < 2 ^ 64

def keptPairs (map : List (ℕ × ℕ)) : List (ℕ × ℕ) := map.filter fun e => e.1 ≠ 0 ∨ e.2 ≠ 0

theorem findIdx_whole_line (n : ℕ) (t : Bytes) :
    (mapLine n++t).findIdx? (·=10)=some (Utf8.encode (Numeral.text 10 n)).length := by
  have h:=findIdx_line n (mapLine n++t).length t
  rw [take_length,if_pos (by rw [length_append]; omega)] at h
  exact h

theorem length_mapLine (n : ℕ) : (mapLine n).length=(Utf8.encode (Numeral.text 10 n)).length+1 := by
  rw [mapLine,length_append,length_singleton]

/-- The line behind `front`. -/
theorem line_at (front : Bytes) (n : ℕ) (t : Bytes) :
    ((front++(mapLine n++t)).drop front.length).findIdx? (·=10)=some (Utf8.encode (Numeral.text 10 n)).length ∧
      (front++(mapLine n++t)).slice front.length (Utf8.encode (Numeral.text 10 n)).length =
        Utf8.encode (Numeral.text 10 n) ∧
      front.length+(Utf8.encode (Numeral.text 10 n)).length+1=(front++mapLine n).length := by
  refine ⟨?_,?_,?_⟩
  · rw [drop_left,findIdx_whole_line]
  · rw [mapLine,append_assoc (Utf8.encode _)]
    exact slice_append _ _ _ rfl rfl
  · rw [length_append,length_mapLine,add_assoc]

/-- One pair of lines behind `front`. -/
theorem sparse10Pairs_step {front t : Bytes} {e : ℕ × ℕ} (he : e.1<2^64 ∧ e.2<2^64) (count : ℕ) (acc : List (ℕ × ℕ)) :
    sparse10Pairs (front++(mapLine e.1++(mapLine e.2++t))) (count+1) front.length acc =
      sparse10Pairs ((front++(mapLine e.1++mapLine e.2))++t) count
        (front++(mapLine e.1++mapLine e.2)).length (acc++keptPairs [e]) := by
  obtain ⟨hfirst,hoff,hpos⟩:=line_at front e.1 (mapLine e.2++t)
  obtain ⟨hsecond,hlen,hend⟩:=line_at (front++mapLine e.1) e.2 t
  rw [append_assoc front] at hsecond hlen hend
  have hkept : (if e.1≠0 ∨ e.2≠0 then acc++[(e.1,e.2)] else acc)=acc++keptPairs [e] := by
    rw [keptPairs]
    split_ifs with hzero
    · rw [filter_cons_of_pos (by simpa using hzero)]
      rfl
    · rw [filter_cons_of_neg (by simpa using hzero)]
      simp
  rw [sparse10Pairs]
  simp only [hfirst,hpos,hsecond,hoff,hlen,hend,mapNumber_text he.1,mapNumber_text he.2,hkept]
  simp

variable {map : List (ℕ × ℕ)}

/-- Over all lines the parser returns the pairs that it keeps, and the position behind the lines. -/
theorem sparse10Pairs_all (hmap : NumbersFit map) (front tail : Bytes) (acc : List (ℕ × ℕ)) :
    sparse10Pairs (front++(mapLines map++tail)) map.length front.length acc =
      (acc++keptPairs map,front.length+(mapLines map).length) := by
  induction map generalizing front acc with
  | nil => simp [sparse10Pairs,keptPairs]
  | cons e map ih =>
    have hbuf : front++(mapLines (e::map)++tail)=front++(mapLine e.1++(mapLine e.2++(mapLines map++tail))) := by
      simp
    have hkept : keptPairs (e::map)=keptPairs [e]++keptPairs map := by
      rw [keptPairs,keptPairs,keptPairs,←filter_append]
      rfl
    rw [hbuf,length_cons,sparse10Pairs_step (hmap e mem_cons_self),
      ih fun x hx => hmap x (mem_cons_of_mem _ hx),append_assoc,←hkept,mapLines_cons]
    simp only [length_append,Prod.mk.injEq,true_and]
    omega

/-- Where lines are missing, the parser returns fewer pairs than the map has. -/
theorem sparse10Pairs_short (hmap : NumbersFit map) {j : ℕ} (hj : j<(mapLines map).length) (front : Bytes)
    (count : ℕ) (acc : List (ℕ × ℕ)) :
    (sparse10Pairs (front++(mapLines map).take j) count front.length acc).1.length<acc.length+map.length := by
  induction map generalizing front acc count j with
  | nil => exact absurd hj (by simp)
  | cons e map ih =>
    have hpos : 0<(e::map).length := by simp
    cases count with
    | zero =>
      rw [sparse10Pairs]
      dsimp only
      omega
    | succ count =>
      rw [mapLines_cons] at hj ⊢
      by_cases hfirst : (mapLine e.1).length≤j
      · by_cases hsecond : (mapLine e.1).length+(mapLine e.2).length≤j
        · have htake : (mapLine e.1++(mapLine e.2++mapLines map)).take j=mapLine e.1++(mapLine e.2 ++
              (mapLines map).take (j-(mapLine e.1).length-(mapLine e.2).length)) := by
            rw [take_append,take_of_length_le hfirst,take_append,take_of_length_le (by omega)]
          rw [htake,sparse10Pairs_step (hmap e mem_cons_self)]
          have hrest:=@ih (fun x hx => hmap x (mem_cons_of_mem _ hx))
            (j-(mapLine e.1).length-(mapLine e.2).length)
            (by simp only [length_append] at hj; omega) (front++(mapLine e.1++mapLine e.2)) count
            (acc++keptPairs [e])
          have hone : (keptPairs [e]).length≤1:=length_filter_le _ _
          have hacc : (acc++keptPairs [e]).length=acc.length+(keptPairs [e]).length:=length_append
          rw [length_cons]
          omega
        · -- the line of the size is cut
          have hcut:=findIdx_line e.2 (j-(mapLine e.1).length) (mapLines map)
          rw [if_neg (by omega)] at hcut
          rw [take_append,take_of_length_le hfirst]
          generalize (mapLine e.2++mapLines map).take (j-(mapLine e.1).length)=rest at hcut
          obtain ⟨hfind,-,hend⟩:=line_at front e.1 rest
          have hdrop : (front++(mapLine e.1++rest)).drop (front++mapLine e.1).length=rest := by
            rw [←append_assoc,drop_left]
          rw [sparse10Pairs]
          simp only [hfind,hend,hdrop,hcut]
          omega
      · -- the line of the offset is cut
        rw [sparse10Pairs,drop_left,findIdx_line,if_neg hfirst]
        dsimp only
        omega

theorem length_le_mapLines (map : List (ℕ × ℕ)) : map.length≤(mapLines map).length := by
  induction map with
  | nil => exact Nat.zero_le _
  | cons e map ih =>
    have := length_mapLine e.1
    rw [mapLines_cons,length_cons]
    simp only [length_append]
    omega

theorem length_mapBlock (h : (mapText map).length<2^63) : (mapBlock map).length=pad512 (mapText map).length := by
  rw [mapBlock,length_append,length_padding,pad512,u64_eq (by omega)]

/-- A read that returns the whole map. -/
theorem parseSparse10Map_whole (hmap : NumbersFit map) {tail : Bytes}
    (hshort : (mapText map++tail).length≤512*64) (dataStart : ℕ) :
    parseSparse10Map (mapText map++tail) dataStart = .ok (keptPairs map,dataStart+(mapBlock map).length) := by
  have hcount:=length_le_mapLines map
  have hlength : (mapText map++tail).length=(mapText map).length+tail.length:=length_append
  have htext : (mapText map).length=(mapLine map.length).length+(mapLines map).length := by
    rw [mapText,length_append]
  have hbuf : mapText map++tail=mapLine map.length++(mapLines map++tail) := by rw [mapText,append_assoc]
  have hdigits : (mapText map++tail).take (Utf8.encode (Numeral.text 10 map.length)).length =
      Utf8.encode (Numeral.text 10 map.length) := by
    rw [hbuf,mapLine,append_assoc]
    exact take_left
  have hpairs:=sparse10Pairs_all hmap (mapLine map.length) tail []
  rw [←hbuf,length_mapLine] at hpairs
  have hfind : (mapText map++tail).findIdx? (·=10)=some (Utf8.encode (Numeral.text 10 map.length)).length := by
    rw [hbuf]
    exact findIdx_whole_line _ _
  rw [parseSparse10Map,hfind]
  simp only [hdigits,mapNumber_text (show map.length<2^64 by omega)]
  rw [if_neg (by omega),min_eq_left (by omega),hpairs,nil_append,length_mapBlock (by omega),htext,
    length_mapLine]

/-- A read that returns less never yields all pairs. -/
theorem parseSparse10Map_cut (hmap : NumbersFit map) {j dataStart : ℕ} (hj : j<(mapText map).length)
    {r : List (ℕ × ℕ) × ℕ} (hrun : parseSparse10Map ((mapText map).take j) dataStart = .ok r) : r.1.length < map.length := by
  have hfind:=findIdx_line map.length j (mapLines map)
  rw [parseSparse10Map,mapText,hfind] at hrun
  by_cases hline : (mapLine map.length).length≤j
  · rw [if_pos hline] at hrun
    dsimp only at hrun
    split_ifs at hrun
    have htake : (mapLine map.length++mapLines map).take j =
        mapLine map.length++(mapLines map).take (j-(mapLine map.length).length) := by
      rw [take_append,take_of_length_le hline]
    have hrest : j-(mapLine map.length).length<(mapLines map).length := by
      rw [mapText,length_append] at hj
      omega
    have hpairs:=sparse10Pairs_short hmap hrest (mapLine map.length)
    rw [←htake,length_mapLine] at hpairs
    rw [←Except.ok.inj hrun]
    have := hpairs (min (mapNumber (((mapLine map.length++mapLines map).take j).take
      (Utf8.encode (Numeral.text 10 map.length)).length)) (((mapLine map.length++mapLines map).take j).length+1)) []
    simpa using this
  · rw [if_neg hline] at hrun
    cases hrun

/-! ## A member on the tape -/

/-- A sparse 1.0 member as GNU tar writes it: an `x` record with the real size, the header, the map, and the stored
data. -/
structure Sparse10 (data pre : Bytes) (h : Helper) (header : Bytes) (map : List (ℕ × ℕ)) (stored rest : Bytes)
    (realSize : ℕ) : Prop where
  data_eq : data = pre ++ (h.bytes ++ (header ++ (mapBlock map ++ (stored ++ rest))))
  short : data.length < 2 ^ 63
  flag : typeflag h.header = 120
  cap : h.body.length ≤ maxHeaderPayloadBytes
  records : ∃ pax, parsePaxRecords h.body = .ok pax ∧ pax.map PaxKey.sparseMajor = some ['1'] ∧
    pax.map PaxKey.sparseRealsize = some (Numeral.text 10 realSize) ∧ pax.map PaxKey.sparseSize = none
  header_length : header.length = 512
  plain : typeflag header ≠ 83
  extents : Extents realSize 0 map
  stored_length : stored.length = storedSize map
  size_lt : realSize < 2 ^ 63

namespace Sparse10

variable {data pre : Bytes} {h : Helper} {header : Bytes} {map : List (ℕ × ℕ)} {stored rest : Bytes} {realSize : ℕ}

def dataStart (pre : Bytes) (h : Helper) : ℕ := pre.length + h.bytes.length + 512

theorem numbersFit_of_extents {size lastEnd : ℕ} {map : List (ℕ × ℕ)} (hm : Extents size lastEnd map)
    (hsize : size<2^64) : NumbersFit map := by
  induction map generalizing lastEnd with
  | nil => simp [NumbersFit]
  | cons e map ih =>
    have hend:=Extents.le hm.2
    intro x hx
    rcases mem_cons.mp hx with rfl | hx
    · omega
    · exact ih hm.2 x hx

theorem readExact_field {fields : List Bytes} (hdata : data=fields.flatten) (k : ℕ) {field : Bytes}
    (hfield : fields[k]?=some field) {pos len : ℕ} (hpos : pos=(fields.take k).flatten.length) (hlen : len=field.length) :
    readExact data pos len = .ok field := by
  rw [readExact,hdata,slice_flatten k hfield hpos hlen,if_neg (by omega)]

section Layout

variable (hs : Sparse10 data pre h header map stored rest realSize)
include hs

theorem numbersFit : NumbersFit map :=
  numbersFit_of_extents hs.extents (by have := hs.size_lt; omega)

theorem openHeader_eq : ∃pax,openHeader data pre.length = .ok (pax,pre.length+h.bytes.length,header) ∧
      pax.map PaxKey.sparseMajor=some ['1'] ∧
      pax.map PaxKey.sparseRealsize=some (Numeral.text 10 realSize) ∧ pax.map PaxKey.sparseSize=none := by
  obtain ⟨pax,hparsed,hmajor,hreal,hnone⟩:=hs.records
  have hcap:=hs.cap
  have hpad : pad512 h.body.length=h.body.length+h.pad.length := by
    rw [pad512,u64_eq (by rw [maxHeaderPayloadBytes] at hcap; omega),h.padded]
  have hbytes : h.bytes.length=512+(h.body.length+h.pad.length) := by
    rw [Rec.bytes,length_append,length_append,h.header_length]
  have hend : pre.length+blockSize+pad512 h.body.length=pre.length+h.bytes.length := by
    rw [hpad,hbytes,blockSize,add_assoc]
  have hfields : data=[pre,h.header,h.body,h.pad,header,mapBlock map++(stored++rest)].flatten := by
    simp [hs.data_eq,Rec.bytes]
  have hfirst : readExact data pre.length blockSize = .ok h.header :=
    readExact_field hfields 1 rfl (by simp) h.header_length.symm
  have hbody : readExact data (pre.length+blockSize) h.body.length = .ok h.body :=
    readExact_field hfields 2 rfl (by simp [h.header_length,blockSize]) rfl
  have hmain : readExact data (pre.length+h.bytes.length) blockSize = .ok header :=
    readExact_field hfields 4 rfl (by simp [Rec.bytes]) hs.header_length.symm
  refine ⟨pax,?_,hmajor,hreal,hnone⟩
  rw [openHeader,hfirst,ok_bind,if_pos hs.flag,h.size,if_neg (not_lt.mpr hcap),hend,hbody,hmain]
  simp only [ok_bind,hparsed]
  rfl

theorem openRealSize_eq {pax : PaxMap} (hreal : pax PaxKey.sparseRealsize=some (Numeral.text 10 realSize))
    (hnone : pax PaxKey.sparseSize=none) (logicalSize : ℕ) : openRealSize pax header logicalSize=realSize := by
  have hparse : parseU64 (Numeral.text 10 realSize)=some realSize :=
    parse_text (by decide) (by decide) 0 (by have := hs.size_lt; omega)
  rw [openRealSize,if_neg hs.plain,hreal,hnone,bind_some,hparse]
  rfl

/-- What opening the member comes to: the map of one read, and the view over it. -/
theorem openSparseMember_eq (inner : Chunking data.length) (dataOffset logicalSize : ℕ) :
    openSparseMember data inner pre.length dataOffset logicalSize=(do
      let r ← readSparse10Map data inner (dataStart pre h)
      if r.1=[] then return .stenciled [(max dataOffset r.2,realSize)]
      else
        let segments ← segmentsFromMap realSize r.1 r.2 0
        return .new segments) := by
  obtain ⟨pax,hopen,hmajor,hreal,hnone⟩:=hs.openHeader_eq
  rw [openSparseMember,hopen,ok_bind]
  simp only [hs.openRealSize_eq hreal hnone,openMap,if_neg hs.plain,if_pos hmajor]
  rfl

theorem slice_dataStart (n : ℕ) :
    data.slice (dataStart pre h) n=(mapText map++(padding (mapText map).length++(stored++rest))).take n := by
  have e : data=(pre++(h.bytes++header))++(mapText map++(padding (mapText map).length++(stored++rest))) := by
    simp [hs.data_eq,mapBlock]
  rw [e,slice,drop_left']
  rw [dataStart,length_append,length_append,hs.header_length,add_assoc]

/-- What one read returns of the map: all of it, or a part. -/
theorem readSparse10Map_cases (inner : Chunking data.length) :
    ((mapText map).length ≤ inner.chunk (dataStart pre h) (512*64) ∧ readSparse10Map data inner (dataStart pre h) =
        .ok (keptPairs map,dataStart pre h+(mapBlock map).length)) ∨
    (inner.chunk (dataStart pre h) (512*64)<(mapText map).length ∧
      ∀r,readSparse10Map data inner (dataStart pre h) = .ok r → r.1.length < map.length) := by
  have hasked:=inner.le_asked (dataStart pre h) (512*64)
  rw [readSparse10Map,hs.slice_dataStart]
  generalize inner.chunk (dataStart pre h) (512*64)=k at hasked
  by_cases hk : (mapText map).length≤k
  · left
    refine ⟨hk,?_⟩
    rw [take_append,take_of_length_le hk]
    apply parseSparse10Map_whole hs.numbersFit
    rw [length_append,length_take]
    omega
  · right
    refine ⟨by omega,fun r hr => ?_⟩
    rw [take_append_of_le_length (by omega)] at hr
    exact parseSparse10Map_cut hs.numbersFit (by omega) hr

end Layout

/-- A view that shows the sparse file, whatever is read from it. -/
def Shows (data : Bytes) (inner : Chunking data.length) (view : SegmentedFile) (content : Bytes) : Prop :=
  SegmentedFile.size view.segments = content.length ∧ SegmentedFile.content data view.segments = content ∧
    ∃ c : Chunking content.length, ∀ calls : List (Call × Unit), (∀ x ∈ calls, x.1.Fits) →
      RunObeys content c 0 (run (SegmentedFile.step data inner) SegmentedFile.pos view calls)

variable {inner : Chunking data.length}

theorem shows_of_content {segments : List FileSegment} {content : Bytes} (hshort : data.length<2^63)
    (hwithin : ∀s∈segments,0<s.len → s.Within data.length)
    (hcontent : SegmentedFile.content data segments=content) (hlen : content.length<2^63) :
    Shows data inner (.new segments) content := by
  have hwithin' : ∀s∈(SegmentedFile.new segments).segments,s.Within data.length := by
    intro s hs
    obtain ⟨hmem,hpos⟩:=mem_filter.mp hs
    exact hwithin s hmem (by simpa using hpos)
  have hcontent':=(SegmentedFile.content_new segments).trans hcontent
  have hsize:=SegmentedFile.length_content hwithin'
  rw [hcontent'] at hsize
  refine ⟨hsize.symm,hcontent',?_⟩
  subst hcontent'
  exact ⟨SegmentedFile.chunking inner hwithin' (by omega),
    fun calls hcalls => SegmentedFile.run_obeys_content inner hwithin' (by omega) (by omega) calls hcalls⟩

/-- The map is parsed in full, and the view shows the sparse file. -/
def ReadsBack (data : Bytes) (inner : Chunking data.length) (pre : Bytes) (h : Helper) (map : List (ℕ × ℕ))
    (stored : Bytes) (realSize dataOffset logicalSize : ℕ) : Prop :=
  readSparse10Map data inner (dataStart pre h) = .ok (map,dataStart pre h + (mapBlock map).length) ∧
    ∃ view, openSparseMember data inner pre.length dataOffset logicalSize = .ok view ∧
      Shows data inner view (sparseContent map stored realSize)

theorem mem_keptPairs_iff {map : List (ℕ × ℕ)} : keptPairs map=map ↔ (0,0)∉map := by
  rw [keptPairs,filter_eq_self]
  constructor
  · intro h hmem
    simpa using h _ hmem
  · rintro h ⟨off,num⟩ hmem
    by_contra hzero
    simp only [ne_eq,decide_not,Bool.decide_or,Bool.or_eq_true,Bool.not_eq_true',decide_eq_false_iff_not,not_or,
      Decidable.not_not] at hzero
    rw [hzero.1,hzero.2] at hmem
    exact h hmem

theorem sparseContent_nil (stored : Bytes) (size : ℕ) : sparseContent [] stored size=zeros size := by
  rw [sparseContent,map_sparseByte_nil,length_range]

theorem content_stenciled (off len : ℕ) :
    SegmentedFile.content data (SegmentedFile.stenciled [(off,len)]).segments=data.slice off len := by
  rw [SegmentedFile.stenciled,SegmentedFile.content_new]
  simp [FileSegment.bytes]

/-- The view over a map that was parsed in full. -/
theorem shows_segments (hs : Sparse10 data pre h header map stored rest realSize) (inner : Chunking data.length) :
    ∃segments,segmentsFromMap realSize map (dataStart pre h+(mapBlock map).length) 0 = .ok segments ∧
      Shows data inner (.new segments) (sparseContent map stored realSize) := by
  have hsize:=hs.size_lt
  have hshort:=hs.short
  have hdata : data=(pre++(h.bytes++(header++mapBlock map)))++(stored++rest) := by simp [hs.data_eq]
  have hcursor : (pre++(h.bytes++(header++mapBlock map))).length=dataStart pre h+(mapBlock map).length := by
    rw [length_append,length_append,length_append,hs.header_length,dataStart]
    omega
  obtain ⟨segments,hsegments,hwithin,hcontent⟩ :=
    segmentsFromMap_ok (by omega) (by omega) hs.extents hs.stored_length hdata
  rw [hcursor] at hsegments
  refine ⟨segments,hsegments,shows_of_content hs.short (fun s hmem _ => hwithin s hmem) ?_ ?_⟩
  · rw [hcontent,sparseContent,range_eq_range',Nat.sub_zero]
  · rw [sparseContent,length_map,length_range]
    omega

theorem shows_hole {off : ℕ} (hshort : data.length<2^63) (hsize : realSize<2^63)
    (hzeros : data.slice off realSize=zeros realSize) :
    Shows data inner (.stenciled [(off,realSize)]) (zeros realSize) := by
  apply shows_of_content hshort
  · intro s hmem hpos
    rw [map_singleton,mem_singleton] at hmem
    subst hmem
    have hlength:=congrArg List.length hzeros
    rw [length_slice,length_zeros] at hlength
    have hpos : 0 < realSize:=hpos
    show off+realSize≤data.length
    omega
  · rw [←hzeros,map_singleton,SegmentedFile.content_cons,SegmentedFile.content_nil,append_nil]
    rfl
  · rw [length_zeros]
    exact hsize

end Sparse10

/-- A sparse 1.0 member reads back exactly when the one read returns the whole map, no extent is the empty one at
offset 0, and, with no extents at all, the archive happens to hold zeros where the data would be. -/
theorem sparse10_readsBack_iff {data pre : Bytes} {h : Helper} {header : Bytes} {map : List (ℕ × ℕ)} {stored rest : Bytes}
    {realSize : ℕ} (hs : Sparse10 data pre h header map stored rest realSize) (inner : Chunking data.length)
    (dataOffset logicalSize : ℕ) :
    Sparse10.ReadsBack data inner pre h map stored realSize dataOffset logicalSize ↔
      (mapText map).length ≤ inner.chunk (Sparse10.dataStart pre h) (512 * 64) ∧ (0,0) ∉ map ∧
        (map = [] → data.slice (max dataOffset (Sparse10.dataStart pre h + (mapBlock map).length)) realSize =
          zeros realSize) := by
  rw [Sparse10.ReadsBack,hs.openSparseMember_eq]
  rcases hs.readSparse10Map_cases inner with ⟨hwhole,hread⟩ | ⟨hcut,hread⟩
  · rw [hread]
    constructor
    · rintro ⟨hparsed,view,hview,hshows⟩
      have hkept : keptPairs map = map := congrArg Prod.fst (Except.ok.inj hparsed)
      refine ⟨hwhole,Sparse10.mem_keptPairs_iff.mp hkept,?_⟩
      rintro rfl
      have hview := Except.ok.inj hview
      rw [← Sparse10.content_stenciled,hview,hshows.2.1,Sparse10.sparseContent_nil]
    · rintro ⟨-,hzero,hempty⟩
      rw [Sparse10.mem_keptPairs_iff.mpr hzero,ok_bind]
      refine ⟨rfl,?_⟩
      by_cases hnil : map = []
      · refine ⟨_,by rw [if_pos hnil]; rfl,?_⟩
        rw [hnil,Sparse10.sparseContent_nil]
        exact Sparse10.shows_hole hs.short hs.size_lt (hnil ▸ hempty hnil)
      · obtain ⟨segments,hsegments,hshows⟩ := hs.shows_segments inner
        refine ⟨_,?_,hshows⟩
        rw [if_neg hnil,hsegments]
        rfl
  · constructor
    · rintro ⟨hparsed,-⟩
      exact absurd (hread _ hparsed) (by simp)
    · rintro ⟨hwhole,-⟩
      omega

def sampleRecords : Bytes :=
  (encodePaxRecord PaxKey.sparseMajor [49]).toOption.getD [] ++
    (encodePaxRecord PaxKey.sparseRealsize [51]).toOption.getD []

def sampleRecord : Helper where
  header := sampleHeader 120 sampleRecords.length
  body := sampleRecords
  pad := padding sampleRecords.length
  header_length := by decide +kernel
  nonzero := by decide +kernel
  checksum := by decide +kernel
  padded := by decide +kernel
  flag := by decide +kernel
  size := by decide +kernel

def sampleSparse : Bytes := sampleRecord.bytes ++ (sampleHeader 48 514 ++ (mapBlock [(1,2)] ++ [5,6]))

/-- A reader that returns at most `most` bytes at once. -/
def readsUpTo (most size : ℕ) (h : 0 < most) : Chunking size where
  chunk pos n := min (min most n) (size - pos)
  le_asked pos n := by omega
  pos_of_lt pos n hn hpos := by omega
  le_size pos n := by omega

theorem sampleSparse_layout : Sparse10 sampleSparse [] sampleRecord (sampleHeader 48 514) [(1,2)] [5,6] [] 3 where
  data_eq := rfl
  short := by decide +kernel
  flag := by decide +kernel
  cap := by decide +kernel
  records := by
    have hok : (parsePaxRecords sampleRecord.body).isOk=true := by decide +kernel
    obtain ⟨pax,hpax⟩:=ok_of_isOk hok
    have hmap : ∀key value,((parsePaxRecords sampleRecord.body).toOption.bind fun p => p.map key)=value →
        pax.map key=value := by
      intro key value h
      rw [hpax] at h
      exact h
    exact ⟨pax,hpax,hmap _ _ (by decide +kernel),hmap _ _ (by decide +kernel),hmap _ _ (by decide +kernel)⟩
  header_length := by decide +kernel
  plain := by decide +kernel
  extents := by simp [Extents]
  stored_length := by decide
  size_lt := by decide

/-- With a reader that fills its buffer the file reads back. -/
theorem sparse10_readsBack_sample :
    Sparse10.ReadsBack sampleSparse (readsUpTo (512 * 64) _ (by decide)) [] sampleRecord [(1,2)] [5,6] 3 2048 3 := by
  refine (sparse10_readsBack_iff sampleSparse_layout (readsUpTo (512 * 64) _ (by decide)) 2048 3).mpr ⟨?_,?_,?_⟩
  · decide +kernel
  · decide
  · intro h
    cases h

/-- With a reader that returns two bytes at once the map comes out empty, and the file shows what stands behind the
count instead of its extent. -/
theorem sparse10_cut_short :
    readSparse10Map sampleSparse (readsUpTo 2 _ (by decide)) 1536 = .ok ([],2048) ∧
      ((openSparseMember sampleSparse (readsUpTo 2 _ (by decide)) 0 2048 3).toOption.map fun view =>
        SegmentedFile.content sampleSparse view.segments) = some [5,6] ∧
      sparseContent [(1,2)] [5,6] 3 = [0,5,6] ∧
      ¬ Sparse10.ReadsBack sampleSparse (readsUpTo 2 _ (by decide)) [] sampleRecord [(1,2)] [5,6] 3 2048 3 := by
  have hread : readSparse10Map sampleSparse (readsUpTo 2 _ (by decide)) 1536 = .ok ([],2048) := by decide +kernel
  refine ⟨hread,by decide +kernel,by decide +kernel,?_⟩
  rintro ⟨hparsed,-⟩
  have hstart : Sparse10.dataStart [] sampleRecord = 1536 := by decide +kernel
  rw [hstart,hread] at hparsed
  exact absurd (congrArg Prod.fst (Except.ok.inj hparsed)) (by decide)

end Ratarmount.Tar
