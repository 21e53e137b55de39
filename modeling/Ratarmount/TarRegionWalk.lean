import Ratarmount.TarIndexParents
import Ratarmount.TarWalkProgress
import Ratarmount.TarWrittenMember

/-!
# The walk over a nested archive

`walk_tar_region` over an archive inside a stream, against the walk over the
archive alone. Where the walk over the archive alone succeeds, the two keep in
step: the same members at header offsets moved by the start of the region. Only
the data offset of a sparse 1.0 member may differ, whose map the nested walk reads
from whatever follows the archive, and the mark for a further nested archive.
-/

namespace Ratarmount.Tar

open List Bytes Option Walk

/-- The walk at the same place of an archive that begins at `d`. -/
def Walk.shift (d : ℕ) (w : Walk) : Walk :=
  { w with pos := d + w.pos, paxHeaderStart := w.paxHeaderStart.map (d + ·) }

@[simp] theorem Walk.shift_pos (d : ℕ) (w : Walk) : (w.shift d).pos=d+w.pos := rfl

/-- An archive between other bytes of a stream whose offsets fit the reader. -/
structure Embedded (front archive back : Bytes) (start : ℕ) : Prop where
  short : (front ++ archive ++ back).length + blockSize < 2 ^ 63
  start_le : start ≤ front.length

def regionOf (front archive : Bytes) (start : ℕ) : WalkBounds :=
  { start, regionEnd := some (front.length + archive.length) }

section Bytes

variable {front archive back : Bytes} {start : ℕ}

theorem within_region (n : ℕ) : (regionOf front archive start).within (front.length+n)=decide (n≤archive.length) := by
  simp [regionOf,WalkBounds.within]

theorem slice_region {pos len : ℕ} (h : pos+len≤archive.length) :
    (front++archive++back).slice (front.length+pos) len=archive.slice pos len := by
  rw [slice,slice,append_assoc,←drop_drop,drop_left,drop_append_of_le_length (by omega)]
  apply take_append_of_le_length
  rw [length_drop]
  omega

theorem slice_behind (pos len : ℕ) :
    (front++archive++back).slice (front.length+pos) len=(archive++back).slice pos len := by
  rw [slice,slice,append_assoc,←drop_drop,drop_left]

theorem readExact_region {pos len : ℕ} {bytes : Bytes} (hpos : pos≤archive.length)
    (h : readExact archive pos len = .ok bytes) :
    pos+len≤archive.length ∧ readExact (front++archive++back) (front.length+pos) len = .ok bytes := by
  rw [readExact] at h
  split_ifs at h with hshort
  rw [length_slice] at hshort
  have hle : pos+len≤archive.length := by omega
  refine ⟨hle,?_⟩
  rw [readExact,slice_region hle,if_neg (by rw [length_slice]; omega)]
  exact h

theorem readTarHeader_region {pos : ℕ} (h : pos+blockSize≤archive.length) :
    readTarHeader (front++archive++back) (front.length+pos) = .ok (some (archive.slice pos blockSize)) := by
  rw [readTarHeader_whole (by rw [length_append,length_append]; omega),slice_region h]

/-- More fuel does not change where the extension blocks end. -/
theorem skipExtensions_region {more : Bool} {fuel fuel' off off' : ℕ} (hfuel : fuel≤fuel') (hoff : off≤archive.length)
    (h : skipExtensions archive wholeStream fuel more off = .ok off') :
    off'≤archive.length ∧ skipExtensions (front++archive++back) (regionOf front archive start) fuel' more
      (front.length+off) = .ok (front.length+off') := by
  induction fuel generalizing fuel' more off with
  | zero =>
    cases more with
    | false =>
      cases h
      exact ⟨hoff,by rw [skipExtensions]⟩
    | true => cases h
  | succ fuel ih =>
    cases more with
    | false =>
      rw [skipExtensions] at h
      cases h
      exact ⟨hoff,by rw [skipExtensions]⟩
    | true =>
      obtain ⟨k,rfl⟩:=Nat.exists_eq_add_of_le' (lt_of_lt_of_le (Nat.succ_pos fuel) hfuel)
      rw [skipExtensions,if_pos (within_wholeStream _)] at h
      obtain ⟨ext,hext,h⟩:=bind_ok h
      obtain ⟨hle,hext'⟩:=@readExact_region front archive back _ _ _ hoff hext
      obtain ⟨hend,hrest⟩:=ih (Nat.le_of_succ_le_succ hfuel) hle h
      refine ⟨hend,?_⟩
      rw [skipExtensions,if_pos (by rw [add_assoc,within_region]; simpa using hle),hext',ok_bind,add_assoc]
      exact hrest

end Bytes

/-! ## Extents -/

section Extent

variable {opts : IndexOptions} {front archive back : Bytes} {start : ℕ}

/-- Where the data of a member begin before a sparse 1.0 map is read. -/
def Walk.mapOff (opts : IndexOptions) (archive : Bytes) (w : Walk) : ℕ :=
  let header := archive.slice w.pos blockSize
  match oldGnuExtent archive wholeStream w.pos header (w.headerName opts header) with
  | .ok e => e.dataOff
  | .error _ => 0

/-- The content of a sparse 1.0 member begins at `dataOff` also where the map is read with `back` behind the archive. -/
def MapKept (opts : IndexOptions) (archive back : Bytes) (w : Walk) (dataOff : ℕ) : Prop :=
  w.pax PaxKey.sparseMajor = some ['1'] →
    (parseSparse10Map ((archive ++ back).slice (w.mapOff opts archive) (512 * 64)) (w.mapOff opts archive)).toOption.map
      (fun r => min r.2 archive.length) = some dataOff

variable {e : Extent}

theorem oldGnuExtent_region (hemb : Embedded front archive back start) {pos : ℕ} {header : Bytes} {name : Str}
    (hpos : pos+blockSize≤archive.length) (h : oldGnuExtent archive wholeStream pos header name = .ok e) :
    e.dataOff≤archive.length ∧
      oldGnuExtent (front++archive++back) (regionOf front archive start) (front.length+pos) header name =
        .ok { e with dataOff := front.length+e.dataOff } := by
  have hlen:=hemb.short
  rw [length_append,length_append] at hlen
  have hoff : u64 (pos+blockSize)=pos+blockSize:=Nat.mod_eq_of_lt (by omega)
  have hoff' : u64 (front.length+pos+blockSize)=front.length+(pos+blockSize) := by
    rw [add_assoc]
    exact Nat.mod_eq_of_lt (by omega)
  rw [oldGnuExtent] at h ⊢
  simp only [hoff,hoff'] at h ⊢
  by_cases hflag : typeflag header=83
  · rw [if_pos hflag] at h ⊢
    obtain ⟨off,hskip,h⟩:=bind_ok h
    have hfuel : archive.length / blockSize+1≤(front++archive++back).length / blockSize+1 := by
      rw [length_append,length_append]
      simp only [blockSize]
      omega
    obtain ⟨hle,hskip'⟩:=@skipExtensions_region front archive back start _ _ _ _ _ hfuel hpos hskip
    rw [hskip',ok_bind]
    rw [←Except.ok.inj h]
    exact ⟨hle,rfl⟩
  · rw [if_neg hflag] at h ⊢
    rw [←Except.ok.inj h]
    exact ⟨hpos,rfl⟩

/-- The first line of a map decides whether it can be read. -/
theorem parseSparse10Map_append {buf : Bytes} {dataStart : ℕ} {r : List (ℕ × ℕ) × ℕ}
    (h : parseSparse10Map buf dataStart = .ok r) (rest : Bytes) :
    buf≠[] ∧ ∃map pos,∀dataStart',parseSparse10Map (buf++rest) dataStart' = .ok (map,dataStart'+pad512 pos) := by
  rw [parseSparse10Map] at h
  cases hnl : buf.findIdx? (·=10) with
  | none =>
    rw [hnl] at h
    cases h
  | some nl =>
    rw [hnl] at h
    have hlt:=(List.findIdx?_eq_some_iff_getElem.mp hnl).1
    have hne : buf≠[] := by
      rintro rfl
      cases hlt
    have happend : (buf++rest).findIdx? (·=10)=some nl := by
      rw [findIdx?_append,hnl]
      rfl
    have hcount : ¬2^63 ≤ mapNumber (buf.take nl)*16 := by
      intro hpanic
      dsimp only at h
      rw [if_pos hpanic] at h
      cases h
    generalize hpairs : sparse10Pairs (buf++rest) (min (mapNumber (buf.take nl)) ((buf++rest).length+1)) (nl+1) [] =
      pairs
    refine ⟨hne,pairs.1,pairs.2,fun dataStart' => ?_⟩
    rw [parseSparse10Map,happend]
    dsimp only
    rw [take_append_of_le_length hlt.le,if_neg hcount,hpairs]

theorem paxSparseExtent_region {pax : PaxMap} {pairs : List (ℕ × ℕ)} {size : ℕ}
    {plain e : Extent} (hplain : plain.dataOff≤archive.length)
    (h : paxSparseExtent archive wholeStream pax pairs size plain = .ok e) :
    ∃off,paxSparseExtent (front++archive++back) (regionOf front archive start) pax pairs size
        { plain with dataOff := front.length+plain.dataOff } = .ok { e with dataOff := off } ∧
      (e.issparse=false → off=front.length+e.dataOff) ∧
      (off=front.length+e.dataOff ↔ (pax PaxKey.sparseMajor=some ['1'] →
          (parseSparse10Map ((archive++back).slice plain.dataOff (512*64)) plain.dataOff).toOption.map
            (fun r => min r.2 archive.length)=some e.dataOff)) := by
  rw [paxSparseExtent] at h ⊢
  by_cases hsparse : isPaxSparse pax pairs=true
  · rw [if_pos hsparse] at h ⊢
    by_cases hmajor : pax PaxKey.sparseMajor=some ['1']
    · rw [if_pos hmajor] at h
      obtain ⟨⟨map,contentOff⟩,hmap,h⟩:=bind_ok h
      -- the nested walk reads the same map with the bytes behind the archive in view
      have hslice : (archive++back).slice plain.dataOff (512*64) =
          archive.slice plain.dataOff (512*64) ++
            back.take (512*64-(archive.length-plain.dataOff)) := by
        rw [slice,slice,drop_append_of_le_length hplain,take_append,length_drop]
      obtain ⟨hne,map',pos,hmap'⟩:=parseSparse10Map_append hmap
        (back.take (512*64-(archive.length-plain.dataOff)))
      rw [←hslice] at hmap'
      have hlt : plain.dataOff<archive.length := by
        by_contra hge
        exact hne (by rw [slice,drop_of_length_le (by omega),take_nil])
      rw [←Except.ok.inj h]
      refine ⟨min (front.length+plain.dataOff+pad512 pos) (front.length+archive.length),?_,?_,?_⟩
      · rw [if_pos hmajor]
        simp only [regionOf]
        rw [if_pos (by omega),slice_behind,hmap',ok_bind]
        rfl
      · exact fun hfalse => by cases hfalse
      · rw [hmap']
        simp only [Except.toOption,map_some,Option.some.injEq,hmajor,forall_const]
        omega
    · rw [if_neg hmajor] at h ⊢
      rw [←Except.ok.inj h]
      exact ⟨_,rfl,fun _ => rfl,fun _ hm => absurd hm hmajor,fun _ => rfl⟩
  · have hmajor : pax PaxKey.sparseMajor≠some ['1'] := by
      intro hm
      exact hsparse (by simp [isPaxSparse,hm])
    rw [if_neg hsparse] at h ⊢
    rw [←Except.ok.inj h]
    exact ⟨_,rfl,fun _ => rfl,fun _ hm => absurd hm hmajor,fun _ => rfl⟩

theorem extent_region (hemb : Embedded front archive back start) {w : Walk} (hpos : w.pos+blockSize≤archive.length)
    (h : w.extent opts archive wholeStream (archive.slice w.pos blockSize) = .ok e) :
    ∃off,(w.shift front.length).extent opts (front++archive++back) (regionOf front archive start)
        (archive.slice w.pos blockSize) = .ok { e with dataOff := off } ∧
      (e.issparse=false → off=front.length+e.dataOff) ∧
      (off=front.length+e.dataOff ↔ MapKept opts archive back w e.dataOff) := by
  rw [Walk.extent] at h
  obtain ⟨plain,hplain,h⟩:=bind_ok h
  obtain ⟨sparse,hsparse,h⟩:=bind_ok h
  obtain ⟨hle,hplain'⟩:=oldGnuExtent_region hemb hpos hplain
  obtain ⟨off,hsparse',hoff,hiff⟩:=@paxSparseExtent_region front archive back start _ _ _ _ _ hle hsparse
  have hmapOff : w.mapOff opts archive=plain.dataOff := by
    rw [mapOff]
    simp only [hplain]
  have hrun : (w.shift front.length).extent opts (front++archive++back) (regionOf front archive start)
      (archive.slice w.pos blockSize) =
        .ok (plainSizeExtent w.pax (typeflag (archive.slice w.pos blockSize)) { sparse with dataOff := off }) := by
    rw [Walk.extent]
    change (oldGnuExtent (front++archive++back) (regionOf front archive start) (front.length+w.pos) _
      (w.headerName opts (archive.slice w.pos blockSize)) >>= _)=_
    rw [hplain',ok_bind]
    change (paxSparseExtent _ _ w.pax w.pending.sparsePairs _ _ >>= _)=_
    rw [hsparse',ok_bind]
    rfl
  have he:=(Except.ok.inj h).symm
  have hsame : plainSizeExtent w.pax (typeflag (archive.slice w.pos blockSize)) { sparse with dataOff:=off } =
      { e with dataOff := off } ∧ e.dataOff=sparse.dataOff ∧ e.issparse=sparse.issparse := by
    rw [he,plainSizeExtent,plainSizeExtent]
    dsimp only
    split_ifs
    · cases (w.pax PaxKey.size).bind parseU64 <;> exact ⟨rfl,rfl,rfl⟩
    · exact ⟨rfl,rfl,rfl⟩
  refine ⟨off,by rw [hrun,hsame.1],?_,?_⟩
  · rw [hsame.2.1,hsame.2.2]
    exact hoff
  · rw [hsame.2.1,MapKept,hmapOff]
    exact hiff

end Extent

/-! ## Turns -/

/-- A member of the archive as the nested walk finds it, with its data at `off`. -/
def Found.nested (front archive : Bytes) (off : ℕ) (f : Found) : Found :=
  { f with headerStart := front.length + f.headerStart, dataOff := off,
           istar := f.istar && f.dataOff + blockSize ≤ archive.length }

/-- What the nested walk makes of a turn of the walk over the archive alone. -/
inductive RegionTurn (opts : IndexOptions) (front archive back : Bytes) (w : Walk) : WalkTurn → WalkTurn → Prop
  | stop (w₁ : Walk) : RegionTurn opts front archive back w (.stop w₁) (.stop (w₁.shift front.length))
  | again {w₁ w₂ : Walk} (h : w₁.pos < 2 ^ 63 → w₂ = w₁.shift front.length) :
    RegionTurn opts front archive back w (.again w₁) (.again w₂)
  | found {f : Found} {off : ℕ} {w₁ w₂ : Walk} (h : w₁.pos < 2 ^ 63 → w₂ = w₁.shift front.length)
      (hoff : off = front.length + f.dataOff ↔ MapKept opts archive back w f.dataOff) :
    RegionTurn opts front archive back w (.found f w₁) (.found (f.nested front archive off) w₂)

section Turn

variable {opts : IndexOptions} {front archive back : Bytes} {start : ℕ} {w : Walk}

variable {e : Extent} {t : WalkTurn}

theorem looksNested_region (flag : UInt8) {off : ℕ} (hoff : e.issparse=false → off=front.length+e.dataOff) :
    looksNested (front++archive++back) (regionOf front archive start) flag { e with dataOff := off } =
      (looksNested archive wholeStream flag e && decide (e.dataOff+blockSize≤archive.length)) := by
  rw [looksNested,looksNested,within_wholeStream]
  cases hs : e.issparse with
  | true => rfl
  | false =>
    simp only [hoff hs]
    by_cases hsize : blockSize≤e.logicalSize
    · rw [min_eq_right hsize,add_assoc,within_region]
      by_cases hle : e.dataOff+blockSize≤archive.length
      · have hpeek : peekTarMagicAt (front++archive++back) (front.length+e.dataOff) =
            peekTarMagicAt archive e.dataOff := by
          rw [peekTarMagicAt,peekTarMagicAt,add_assoc,slice_region (by simp only [blockSize] at hle; omega)]
        rw [hpeek]
        simp [hle]
      · simp [hle]
    · simp [hsize]

theorem helperBody_region (hpos : w.pos+blockSize≤archive.length) {size : ℕ} {kind : String} {body : Option Bytes}
    (h : helperBody archive wholeStream w size kind = .ok body) : ∃bytes,body=some bytes ∧
      helperBody (front++archive++back) (regionOf front archive start) (w.shift front.length) size kind = .ok body := by
  rw [helperBody] at h
  by_cases hcap : maxHeaderPayloadBytes<size
  · rw [if_pos hcap] at h
    cases h
  rw [if_neg hcap,if_pos (within_wholeStream _)] at h
  obtain ⟨bytes,hread,h⟩:=bind_ok h
  obtain ⟨hle,hread'⟩:=@readExact_region front archive back _ _ _ hpos hread
  rw [←Except.ok.inj h]
  refine ⟨bytes,rfl,?_⟩
  have hwithin : (regionOf front archive start).within (front.length+(w.pos+blockSize+size))=true := by
    rw [within_region]
    simpa using hle
  rw [helperBody,if_neg hcap,shift_pos,add_assoc front.length,add_assoc front.length,if_pos hwithin,hread']
  rfl

variable (hemb : Embedded front archive back start)
include hemb

theorem next_region {header : Bytes} (off : ℕ) (h : (w.next header e).pos<2^63) :
    (w.shift front.length).next header { e with dataOff := off }=(w.next header e).shift front.length := by
  have hlen:=hemb.short
  rw [length_append,length_append] at hlen
  have hpos : u64 (front.length+w.pos+blockSize+pad512 e.onTape) =
      front.length+u64 (w.pos+blockSize+pad512 e.onTape) := by
    have h : u64 (w.pos+blockSize+pad512 e.onTape)<2^63:=h
    rw [add_assoc,add_assoc,←add_assoc w.pos]
    rw [u64] at h ⊢
    rw [Nat.add_mod,Nat.mod_eq_of_lt (show front.length<2^64 by omega),Nat.mod_eq_of_lt (by omega),u64]
  rw [Walk.next,Walk.next,shift,shift]
  dsimp only
  rw [hpos]
  rfl

theorem zeroTurn_region (hpos : w.pos+blockSize≤archive.length) (h : zeroTurn opts archive wholeStream w = .ok t) :
    ∃t',zeroTurn opts (front++archive++back) (regionOf front archive start) (w.shift front.length) = .ok t' ∧
      RegionTurn opts front archive back w t t' := by
  have hlen:=hemb.short
  rw [length_append,length_append] at hlen
  rw [zeroTurn] at h ⊢
  by_cases hign : opts.ignoreZeros=true
  · rw [if_pos hign] at h ⊢
    rw [←Except.ok.inj h]
    refine ⟨_,rfl,.again fun _ => ?_⟩
    have hnext : u64 (front.length+w.pos+blockSize)=front.length+u64 (w.pos+blockSize) := by
      rw [u64,u64,Nat.mod_eq_of_lt (by omega),Nat.mod_eq_of_lt (by omega),add_assoc]
    rw [shift,shift]
    dsimp only
    rw [hnext]
  · rw [if_neg hign] at h ⊢
    rw [if_pos (within_wholeStream _)] at h
    obtain ⟨next,-,h⟩:=bind_ok h
    rw [←Except.ok.inj h]
    refine ⟨_,?_,.stop w⟩
    rw [shift_pos,add_assoc,add_assoc,within_region]
    by_cases hle : w.pos+2*blockSize≤archive.length
    · rw [if_pos (by simpa using hle),readTarHeader_region (by omega),ok_bind]
      rfl
    · rw [if_neg (by simpa using hle)]

theorem memberTurn_region (hpos : w.pos+blockSize≤archive.length) (hdump : ∀f w₁,t = .found f w₁ → f.typeflag≠68)
    (h : memberTurn opts archive wholeStream w (archive.slice w.pos blockSize) = .ok t) :
    ∃t',memberTurn opts (front++archive++back) (regionOf front archive start) (w.shift front.length)
        (archive.slice w.pos blockSize) = .ok t' ∧ RegionTurn opts front archive back w t t' := by
  rw [memberTurn] at h
  obtain ⟨e,he,h⟩:=bind_ok h
  obtain ⟨off,he',hsparse,hoff⟩:=extent_region hemb hpos he
  rw [memberTurn,he',ok_bind]
  dsimp only
  by_cases hplace : isPlaceholder e.name=true
  · rw [if_pos hplace] at h ⊢
    rw [←Except.ok.inj h]
    exact ⟨_,rfl,.again fun hnext => next_region hemb off hnext⟩
  · rw [if_neg hplace] at h ⊢
    obtain ⟨dumpdir,hdumpdir,h⟩:=bind_ok h
    have hflag : typeflag (archive.slice w.pos blockSize)≠68:=hdump _ _ (Except.ok.inj h).symm
    rw [readDumpdir,if_neg (by simp [hflag])] at hdumpdir ⊢
    rw [←Except.ok.inj h,←Except.ok.inj hdumpdir]
    refine ⟨_,rfl,?_⟩
    have hmember : (w.shift front.length).member opts (front++archive++back) (regionOf front archive start)
        (archive.slice w.pos blockSize) { e with dataOff := off } [] =
          (w.member opts archive wholeStream (archive.slice w.pos blockSize) e []).nested front archive off := by
      rw [member,looksNested_region _ hsparse,member,Found.nested]
      have hstart : ((w.shift front.length).paxHeaderStart.getD (w.shift front.length).pos) =
          front.length+w.paxHeaderStart.getD w.pos := by
        rw [shift]
        cases w.paxHeaderStart <;> rfl
      rw [hstart]
      rfl
    rw [hmember]
    exact .found (fun hnext => next_region hemb off hnext) hoff

theorem headerTurn_region (hpos : w.pos+blockSize≤archive.length) (hdump : ∀f w₁,t = .found f w₁ → f.typeflag≠68)
    (h : headerTurn opts archive wholeStream w (archive.slice w.pos blockSize) = .ok t) :
    ∃t',headerTurn opts (front++archive++back) (regionOf front archive start) (w.shift front.length)
        (archive.slice w.pos blockSize) = .ok t' ∧ RegionTurn opts front archive back w t t' := by
  rw [headerTurn] at h ⊢
  split_ifs at h ⊢ with hz hx hl
  · exact zeroTurn_region hemb hpos h
  · rw [paxTurn] at h ⊢
    obtain ⟨body,hbody,h⟩:=bind_ok h
    obtain ⟨bytes,rfl,hbody'⟩:=@helperBody_region front archive back start w hpos _ _ _ hbody
    rw [hbody',ok_bind]
    obtain ⟨recs,hrecs,h⟩:=bind_ok h
    simp only [hrecs,ok_bind]
    split_ifs at h ⊢
    · rw [←Except.ok.inj h]
      refine ⟨_,rfl,.again fun _ => ?_⟩
      simp [shift,add_assoc]
    · rw [←Except.ok.inj h]
      refine ⟨_,rfl,.again fun _ => ?_⟩
      simp [shift,add_assoc]
  · rw [longTurn] at h ⊢
    obtain ⟨body,hbody,h⟩:=bind_ok h
    obtain ⟨bytes,rfl,hbody'⟩:=@helperBody_region front archive back start w hpos _ _ _ hbody
    rw [hbody',ok_bind]
    rw [←Except.ok.inj h]
    refine ⟨_,rfl,.again fun _ => ?_⟩
    simp [shift,add_assoc]
  · exact memberTurn_region hemb hpos hdump h

theorem turn_region (hdump : ∀f w₁,t = .found f w₁ → f.typeflag≠68) (h : w.turn opts archive wholeStream = .ok t) :
    ∃t',(w.shift front.length).turn opts (front++archive++back) (regionOf front archive start) = .ok t' ∧
      RegionTurn opts front archive back w t t' := by
  have hlen:=hemb.short
  have hblock : blockSize=512:=rfl
  have hnext : w.pos<2^63 → u64 ((w.shift front.length).pos+blockSize)=front.length+(w.pos+blockSize) := by
    intro hpos
    rw [length_append,length_append] at hlen
    rw [shift_pos,add_assoc]
    exact Nat.mod_eq_of_lt (by omega)
  rcases turn_cases h with ⟨rfl,⟨hend,hpos⟩ | hout⟩ | ⟨hpos,hle,h⟩
  · rw [Walk.turn,hnext hpos,within_region,if_neg (by simp; omega)]
    exact ⟨_,rfl,.stop w⟩
  · cases hout
  · have hwithin : (regionOf front archive start).within (u64 ((w.shift front.length).pos+blockSize))=true := by
      rw [hnext hpos,within_region]
      simpa using hle
    have hstart : start≤(w.shift front.length).pos:=Nat.le_add_right_of_le hemb.start_le
    rw [turn_whole hwithin hstart (by rw [length_append,length_append,shift_pos]; omega) (by omega),shift_pos,
      slice_region hle]
    exact headerTurn_region hemb hle hdump h

end Turn

/-! ## Whole walks -/

section Walks

variable (opts : IndexOptions) (archive : Bytes)

/-- The members of an archive, each with the walk at its header. -/
def memberWalks : ℕ → Walk → List (Walk × Found)
  | 0, _ => []
  | fuel + 1, w =>
    match w.turn opts archive wholeStream with
    | .ok (.again w') => memberWalks fuel w'
    | .ok (.found f w') => (w,f) :: memberWalks fuel w'
    | _ => []

theorem memberWalks_members (fuel : ℕ) (w : Walk) :
    (walkMembers opts archive wholeStream fuel w).1=(memberWalks opts archive fuel w).map Prod.snd := by
  induction fuel generalizing w with
  | zero => rfl
  | succ fuel ih =>
    rw [walkMembers,memberWalks]
    cases w.turn opts archive wholeStream with
    | error e => rfl
    | ok t =>
      cases t with
      | stop w' => rfl
      | again w' => exact ih w'
      | found f w' =>
        dsimp only
        rw [if_pos (within_wholeStream _),ih w']
        rfl

variable {opts archive} {front back : Bytes} {start : ℕ}

variable {fuel : ℕ} {w : Walk} {t : WalkTurn}

theorem pos_lt_of_walk (hok : (walkMembers opts archive wholeStream fuel w).2.error=none) : w.pos<2^63 := by
  cases fuel with
  | zero => cases hok
  | succ fuel =>
    rw [walkMembers,Walk.turn,if_pos (within_wholeStream _)] at hok
    by_contra hge
    rw [seekGuard,if_pos (by omega)] at hok
    cases hok

theorem memberWalks_beyond (h : archive.length≤w.pos) (fuel : ℕ) : memberWalks opts archive fuel w=[] := by
  cases fuel with
  | zero => rfl
  | succ fuel =>
    have hread : readTarHeader archive w.pos = .ok none := by
      rw [readTarHeader,slice,drop_of_length_le h,take_nil,if_pos rfl]
    rw [memberWalks,Walk.turn,if_pos (within_wholeStream _),hread]
    cases seekGuard wholeStream.start w.pos <;> rfl

/-- The records that are pending began inside the archive. -/
def Walk.StartsInside (archive : Bytes) (w : Walk) : Prop := ∀ n ∈ w.paxHeaderStart, n < archive.length

theorem turn_startsInside (hw : w.StartsInside archive) (h : w.turn opts archive wholeStream = .ok t) :
    (∃w',t = .stop w') ∨ (∃w',t = .again w' ∧ w'.StartsInside archive) ∨
      ∃f w',t = .found f w' ∧ f.headerStart<archive.length ∧ w'.StartsInside archive := by
  rcases turn_cases h with ⟨rfl,-⟩ | ⟨hpos,hle,h⟩
  · exact .inl ⟨_,rfl⟩
  have hlt : w.pos<archive.length := by
    have hblock : blockSize=512:=rfl
    omega
  have hnext : ∀header e,(w.next header e).StartsInside archive:=nofun
  rcases headerTurn_cases hpos h with ⟨-,⟨v,rfl⟩ | ⟨v,rfl,-⟩,hkeeps⟩ | ⟨-,e,-,rfl | ⟨dumpdir,rfl⟩⟩
  · exact .inl ⟨v,rfl⟩
  · refine .inr (.inl ⟨v,rfl,?_⟩)
    intro n hn
    rcases hkeeps v rfl with hsame | hhere
    · exact hw n (hsame ▸ hn)
    · rw [hhere] at hn
      cases hn
      exact hlt
  · exact .inr (.inl ⟨_,rfl,hnext _ e⟩)
  · refine .inr (.inr ⟨_,_,rfl,?_,hnext _ e⟩)
    change w.paxHeaderStart.getD w.pos<archive.length
    cases hstart : w.paxHeaderStart with
    | none => exact hlt
    | some n => exact hw n hstart

/-- Every member of an archive has its header inside it. -/
theorem headerStart_lt (hw : w.StartsInside archive) :
    ∀x∈memberWalks opts archive fuel w,x.2.headerStart<archive.length := by
  induction fuel generalizing w with
  | zero => simp [memberWalks]
  | succ fuel ih =>
    rw [memberWalks]
    cases ht : w.turn opts archive wholeStream with
    | error e => simp
    | ok t =>
      rcases turn_startsInside hw ht with ⟨w',rfl⟩ | ⟨w',rfl,hw'⟩ | ⟨f,w',rfl,hf,hw'⟩
      · simp
      · exact ih hw'
      · exact List.forall_mem_cons.mpr ⟨hf,ih hw'⟩

/-- The member that is found where the archive is nested, for one that is found in the archive alone. -/
def Moved (opts : IndexOptions) (front archive back : Bytes) (x : Walk × Found) (f' : Found) : Prop :=
  ∃ off, f' = x.2.nested front archive off ∧ (off = front.length + x.2.dataOff ↔ MapKept opts archive back x.1 x.2.dataOff)

/-- A walk that succeeds over the archive alone finds the same members where the archive is nested. -/
theorem walkMembers_region (hemb : Embedded front archive back start) {fuel' : ℕ} (hfuel : fuel≤fuel')
    (hok : (walkMembers opts archive wholeStream fuel w).2.error=none)
    (hdump : ∀f∈(walkMembers opts archive wholeStream fuel w).1,f.typeflag≠68) :
    (walkMembers opts (front++archive++back) (regionOf front archive start) fuel' (w.shift front.length)).2.error=none ∧
      List.Forall₂ (Moved opts front archive back) (memberWalks opts archive fuel w)
        (walkMembers opts (front++archive++back) (regionOf front archive start) fuel' (w.shift front.length)).1 := by
  induction fuel generalizing w fuel' with
  | zero => cases hok
  | succ fuel ih =>
    obtain ⟨k,rfl⟩:=Nat.exists_eq_add_of_le' (lt_of_lt_of_le (Nat.succ_pos fuel) hfuel)
    have hk : fuel≤k := by omega
    rw [walkMembers] at hok hdump
    rw [walkMembers,memberWalks]
    cases ht : w.turn opts archive wholeStream with
    | error e =>
      rw [ht] at hok
      cases hok
    | ok t =>
      rw [ht] at hok hdump
      have hflag : ∀f w₁,t = .found f w₁ → f.typeflag≠68 := by
        rintro f w₁ rfl
        exact hdump f (by simp [within_wholeStream])
      obtain ⟨t',ht',hturn⟩:=turn_region hemb hflag ht
      rw [ht']
      cases hturn with
      | stop => exact ⟨rfl,.nil⟩
      | again hnext =>
        rw [hnext (pos_lt_of_walk hok)]
        exact ih hk hok hdump
      | @found f off w₁ w₂ hnext hoff =>
        simp only [within_wholeStream,if_true] at hok hdump
        rw [forall_mem_cons] at hdump
        obtain ⟨hrest,hmembers⟩:=ih hk hok hdump.2
        have hw₂:=hnext (pos_lt_of_walk hok)
        rw [hw₂]
        dsimp only
        rw [shift_pos,within_region]
        by_cases hle : w₁.pos≤archive.length
        · rw [if_pos (by simpa using hle)]
          exact ⟨hrest,.cons ⟨off,rfl,hoff⟩ hmembers⟩
        · -- behind a member that reaches beyond the archive, the walk over the archive alone stops too
          rw [if_neg (by simpa using hle),memberWalks_beyond (by omega)]
          exact ⟨rfl,.cons ⟨off,rfl,hoff⟩ .nil⟩

end Walks

end Ratarmount.Tar
