import Ratarmount.TarTape

/-!
# The cursor on a well-formed tape

From a record boundary on, the cursor returns the members of the tape with their
spans and names, provided the walk succeeds and no member has extension blocks.
-/

namespace Ratarmount.Tar.Cursor

open List Bytes Item

variable {enc : Encoding} {data pre rest : Bytes} {c : Cursor}

variable {r : Rec} {h : Helper} {fuel k : ℕ} {ms : List TarRawMember}

theorem pad512_of_padded (h : r.body.length<2^63) : pad512 r.body.length=r.body.length+r.pad.length := by
  rw [pad512,u64_eq (by omega),r.padded]

/-- The cursor stands behind `pre`, no zero run was found, and offsets do not overflow. -/
structure At (c : Cursor) (data pre : Bytes) : Prop where
  pos : c.pos = pre.length
  eof : c.eofOff = none
  short : data.length < 2 ^ 63

/-- One turn at a record of the tape. -/
theorem turn_record (hdata : data=pre++(r.header++rest)) (hat : c.At data pre) :
    c.turn enc data =
      if typeflag r.header=103 then c.globalMember data (sizeField r.header)
      else if typeflag r.header=120 ∨ typeflag r.header=76 ∨ typeflag r.header=75 then do
        let c ← c.consumePendingHelper enc data (typeflag r.header) (sizeField r.header)
        return .again c
      else .ok (c.plainMember enc r.header) := by
  have hslice : data.slice c.pos blockSize=r.header := by
    rw [hdata]
    exact slice_append _ _ _ hat.pos r.header_length.symm
  have hle : c.pos+512≤data.length := by
    rw [hdata,length_append,length_append,r.header_length,hat.pos]
    omega
  have hstop : ¬(c.atStop data ∨ (data.slice c.pos blockSize).length<blockSize) := by
    have hlen:=hat.short
    have hu : u64 (c.pos+blockSize)=c.pos+512:=u64_eq (by rw [blockSize]; omega)
    rw [hslice,r.header_length,atStop,hat.eof,hu]
    simp [blockSize]
    omega
  rw [turn,if_neg hstop,hslice,if_neg (by simp [r.nonzero]),if_neg (by simp [r.checksum])]

theorem turn_helper (hdata : data=pre++(h.bytes++rest)) (hat : c.At data pre) :
    c.turn enc data=(do
      let c ← c.consumePendingHelper enc data (typeflag h.header) h.body.length
      return .again c) := by
  have hrec : data=pre++(h.header++((h.body++h.pad)++rest)) := by simp [hdata,Rec.bytes]
  have hg : typeflag h.header≠103 := by
    rcases h.flag with e | e | e <;> rw [e] <;> decide
  rw [turn_record hrec hat,if_neg hg,if_pos h.flag,h.size]

theorem slice_body (hdata : data=pre++(r.bytes++rest)) (hpos : c.pos=pre.length) :
    data.slice (c.pos+blockSize) r.body.length=r.body := by
  have e : data=(pre++r.header)++(r.body++(r.pad++rest)) := by simp [hdata,Rec.bytes]
  rw [e]
  exact slice_append _ _ _ (by simp [hpos,r.header_length,blockSize]) rfl

theorem end_record (h : r.body.length<2^63) : c.pos+blockSize+pad512 r.body.length=c.pos+r.bytes.length := by
  rw [pad512_of_padded h,Rec.bytes,length_append,length_append,r.header_length,blockSize]
  omega

def afterHelper (enc : Encoding) (c : Cursor) (h : Helper) : Cursor :=
  let pending := c.pending.getD { rawStart := c.pos, map := PaxMap.empty }
  { c with pending := some { pending with map := h.apply enc pending.map }, pos := c.pos + h.bytes.length }

theorem helperMap_ok {map map' : PaxMap} (hrun : helperMap enc (typeflag h.header) h.body map = .ok map') : map'=h.apply enc map := by
  rw [helperMap] at hrun
  rw [Helper.apply]
  split_ifs at hrun ⊢ with hx
  · obtain ⟨recs,hrecs,hrun⟩:=bind_ok hrun
    injection hrun with hrun
    rw [←hrun,paxOf,hrecs]
  all_goals
    injection hrun with hrun
    exact hrun.symm

theorem readHelperBody_ok {kind : String} {body : Bytes} (hdata : data=pre++(r.bytes++rest))
    (hpos : c.pos=pre.length) (hrun : c.readHelperBody data r.body.length kind = .ok body) :
    body=r.body ∧ r.body.length<2^63 := by
  rw [readHelperBody] at hrun
  split_ifs at hrun with hcap
  injection hrun with hrun
  rw [maxHeaderPayloadBytes] at hcap
  exact ⟨by rw [←hrun,slice_body hdata hpos],by omega⟩

theorem members_helper (hdata : data=pre++(h.bytes++rest)) (hat : c.At data pre) (hrun : members enc data (fuel+1) c = .ok ms) :
    members enc data fuel (c.afterHelper enc h) = .ok ms := by
  obtain ⟨t,hturn,hrun⟩:=bind_ok hrun
  rw [turn_helper hdata hat] at hturn
  obtain ⟨c',hc',hturn⟩:=bind_ok hturn
  injection hturn with hturn
  subst hturn
  obtain ⟨body,hbody,hrest⟩:=bind_ok hc'
  obtain ⟨rfl,hshort⟩:=readHelperBody_ok hdata hat.pos hbody
  obtain ⟨map,hmap,hresult⟩:=bind_ok hrest
  injection hresult with hresult
  have heq : c'=c.afterHelper enc h := by
    rw [←hresult,afterHelper,←helperMap_ok hmap,end_record hshort]
  rw [←heq]
  exact hrun

theorem afterHelpers_some (helpers : List Helper) {p : PendingHelper} (hp : c.pending=some p) :
    helpers.foldl (afterHelper enc) c =
      { c with pending := some { p with map := helpers.foldl (Helper.apply enc) p.map },
               pos := c.pos+(helperBytes helpers).length } := by
  induction helpers generalizing c p with
  | nil =>
    cases c
    cases hp
    rfl
  | cons h helpers ih =>
    have hstep : (c.afterHelper enc h).pending=some { p with map:=h.apply enc p.map } := by
      simp [afterHelper,hp]
    rw [foldl_cons,ih hstep]
    simp [afterHelper,helperBytes,add_assoc]

/-- The cursor at the header of a member, behind its helpers. -/
theorem afterHelpers_none (helpers : List Helper) (hp : c.pending=none) :
    (helpers.foldl (afterHelper enc) c).pos=c.pos+(helperBytes helpers).length ∧
    (helpers.foldl (afterHelper enc) c).eofOff=c.eofOff ∧ (helpers.foldl (afterHelper enc) c).paxGlobal=c.paxGlobal ∧
    (helpers.foldl (afterHelper enc) c).pax=memberPax enc c.paxGlobal helpers ∧
    ((helpers.foldl (afterHelper enc) c).pending.map PendingHelper.rawStart).getD
      (helpers.foldl (afterHelper enc) c).pos=c.pos := by
  cases helpers with
  | nil =>
    have hext : c.paxGlobal.extend PaxMap.empty=c.paxGlobal := by
      funext key
      simp [PaxMap.extend,PaxMap.empty]
    simp [helperBytes,pax,hp,memberPax,helpersMap,hext]
  | cons h helpers =>
    have hstep : (c.afterHelper enc h).pending =
        some { rawStart := c.pos, map := h.apply enc PaxMap.empty } := by simp [afterHelper,hp]
    rw [foldl_cons,afterHelpers_some helpers hstep]
    refine ⟨?_,rfl,rfl,rfl,rfl⟩
    simp [afterHelper,helperBytes,add_assoc]

theorem members_helpers {helpers : List Helper} (hdata : data=pre++(helperBytes helpers++rest)) (hat : c.At data pre)
    (hrun : members enc data (helpers.length+fuel) c = .ok ms) :
    members enc data fuel (helpers.foldl (afterHelper enc) c) = .ok ms := by
  induction helpers generalizing c pre with
  | nil => simpa using hrun
  | cons h helpers ih =>
    have hhead : data=pre++(h.bytes++(helperBytes helpers++rest)) := by
      simp [hdata,helperBytes]
    have hfuel : (h::helpers).length+fuel=helpers.length+fuel+1 := by
      rw [length_cons]
      omega
    rw [hfuel] at hrun
    refine @ih (pre++h.bytes) _ ?_ ⟨?_,hat.eof,hat.short⟩ (members_helper hhead hat hrun)
    · simp [hhead]
    · simp [afterHelper,hat.pos]

def skip (c : Cursor) (len : ℕ) : Cursor := { c with pending := none, pos := c.pos + len }

theorem members_main {r : MainRec} (hdata : data=pre++(r.bytes++rest)) (hat : c.At data pre) (hext : r.ext=[])
    (hsize : r.body.length=onTapeSize c.pax r.header) (hrun : members enc data (fuel+1) c = .ok ms) :
    ∃ms',ms={ rawStart := (c.pending.map PendingHelper.rawStart).getD c.pos,rawEnd := c.pos+r.bytes.length,
                  logicalPath := ArchivePath.normalizeArchiveRelPath (memberName enc c.pax r.header),
                  typeflag := typeflag r.header }::ms' ∧
      members enc data fuel (c.skip r.bytes.length) = .ok ms' := by
  have hrec : data=pre++(r.header++((r.body++r.pad)++rest)) := by simp [hdata,MainRec.bytes,hext]
  have hlength : r.bytes.length=512+(r.body.length+r.pad.length) := by
    rw [MainRec.bytes,hext,nil_append,length_append,length_append,r.header_length]
  have hle : pre.length+r.bytes.length≤data.length := by
    rw [hdata,length_append,length_append]
    omega
  have hend : satAdd (satAdd c.pos blockSize) (pad512 (onTapeSize c.pax r.header))=c.pos+r.bytes.length := by
    have hlen:=hat.short
    rw [←hsize,pad512_of_padded (by omega),satAdd,satAdd,hat.pos,blockSize]
    omega
  obtain ⟨h103,h120,h76,h75⟩:=r.flag
  obtain ⟨t,hturn,hrest⟩:=bind_ok hrun
  rw [turn_record hrec hat,if_neg h103,if_neg (by simp [h120,h76,h75])] at hturn
  injection hturn with hturn
  subst hturn
  rw [plainMember] at hrest
  simp only [hend] at hrest
  obtain ⟨ms',hms',hcons⟩:=bind_ok hrest
  injection hcons with hcons
  exact ⟨ms',hcons.symm,hms'⟩

theorem members_global {r : GlobalPax} (hdata : data=pre++(r.bytes++rest)) (hat : c.At data pre) (hrun : members enc data (fuel+1) c = .ok ms) :
    ∃ms',ms={ rawStart := c.pos, rawEnd := c.pos+r.bytes.length, logicalPath := [], typeflag := 103 }::ms' ∧
      members enc data fuel { c with paxGlobal := c.paxGlobal.extend (paxOf r.body),
                                     pos := c.pos+r.bytes.length } = .ok ms' := by
  have hrec : data=pre++(r.header++((r.body++r.pad)++rest)) := by simp [hdata,Rec.bytes]
  obtain ⟨t,hturn,hrest⟩:=bind_ok hrun
  rw [turn_record hrec hat,if_pos r.flag,r.size,globalMember] at hturn
  split_ifs at hturn
  obtain ⟨body,hbody,hparse⟩:=bind_ok hturn
  obtain ⟨rfl,hshort⟩:=readHelperBody_ok hdata hat.pos hbody
  obtain ⟨parsed,hparsed,hresult⟩:=bind_ok hparse
  injection hresult with hresult
  subst hresult
  simp only [end_record hshort] at hrest
  obtain ⟨ms',hms',hcons⟩:=bind_ok hrest
  injection hcons with hcons
  refine ⟨ms',hcons.symm,?_⟩
  rw [paxOf,hparsed]
  exact hms'

theorem isZero_slice_zeros {start len : ℕ} (h : pre.length ≤ start) : isZero ((pre++zeros k).slice start len)=true := by
  rw [slice_append_right pre _ (show start=pre.length+(start-pre.length) by omega),isZero,
    all_eq_true]
  intro b hb
  have hmem:=mem_of_mem_drop (mem_of_mem_take hb)
  simpa using eq_of_mem_replicate hmem

theorem zeroRunEnd_zeros {k fuel runEnd : ℕ} (hstart : pre.length ≤ runEnd) (hend : runEnd≤(pre++zeros k).length)
    (hfuel : (pre++zeros k).length ≤ runEnd+512*fuel) :
    zeroRunEnd (pre++zeros k) fuel runEnd=(pre++zeros k).length := by
  induction fuel generalizing runEnd with
  | zero =>
    rw [zeroRunEnd]
    omega
  | succ fuel ih =>
    rw [zeroRunEnd]
    simp only [isZero_slice_zeros hstart,blockSize,Bool.true_eq_false,or_false]
    split_ifs with h
    · omega
    · exact ih (by omega) (by omega) (by omega)

/-- A turn where only zeros follow, or too little for a header, ends the walk. -/
theorem turn_of_zeros (hzero : isZero (data.drop c.pos)=true) : ∃c',c.turn enc data = .ok (.stop c') := by
  by_cases hstop : c.atStop data=true ∨ (data.slice c.pos blockSize).length<blockSize
  · exact ⟨c,by rw [turn,if_pos hstop]⟩
  · have hle : c.pos+blockSize≤data.length := by
      have hlength:=length_slice data c.pos blockSize
      simp only [blockSize] at hstop hlength ⊢
      omega
    have hdata : data=data.take c.pos++zeros (data.length-c.pos) := by
      have hdrop : data.drop c.pos=zeros (data.length-c.pos) := by
        apply List.eq_replicate_iff.mpr
        refine ⟨length_drop,fun b hb => ?_⟩
        simpa using List.all_eq_true.mp hzero b hb
      rw [←hdrop,take_append_drop]
    have hheader : isZero (data.slice c.pos blockSize)=true := by
      rw [isZero,all_eq_true] at hzero ⊢
      exact fun b hb => hzero b (mem_of_mem_take hb)
    have hrunEnd : zeroRunEnd data (data.length / blockSize+1) (c.pos+blockSize)=data.length := by
      have hrun:=@zeroRunEnd_zeros (data.take c.pos) (data.length-c.pos) (data.length / blockSize+1)
        (c.pos+blockSize)
      rw [←hdata] at hrun
      apply hrun
      · rw [length_take]
        omega
      · exact hle
      · simp only [blockSize]
        omega
    rw [turn,if_neg hstop,hrunEnd,if_pos hheader,if_pos le_rfl]
    exact ⟨_,rfl⟩

theorem members_of_zeros (hzero : isZero (data.drop c.pos)=true) : members enc data (fuel+1) c = .ok [] := by
  obtain ⟨c',hturn⟩:=@turn_of_zeros enc data c hzero
  rw [members,hturn]
  rfl

theorem members_zeros (hdata : data=pre++zeros k) (hpos : c.pos=pre.length)
    (hrun : members enc data (fuel+1) c = .ok ms) : ms=[] := by
  have hzero : isZero (data.drop c.pos)=true := by
    rw [hdata,drop_left' hpos.symm,isZero,all_eq_true]
    intro b hb
    simpa using eq_of_mem_replicate hb
  rw [members_of_zeros hzero] at hrun
  exact (Except.ok.inj hrun).symm

/-- What the cursor returns for the items of a tape from `pos` on. -/
def rawItems (enc : Encoding) : PaxMap → ℕ → List Item → List TarRawMember
  | _, _, [] => []
  | g, pos, .globalPax r :: items =>
    { rawStart := pos, rawEnd := pos + r.bytes.length, logicalPath := [], typeflag := 103 } ::
      rawItems enc (g.extend (paxOf r.body)) (pos + r.bytes.length) items
  | g, pos, .member helpers main :: items =>
    { rawStart := pos, rawEnd := pos + (member helpers main).bytes.length,
      logicalPath := (member helpers main).name enc g, typeflag := typeflag main.header } ::
      rawItems enc g (pos + (member helpers main).bytes.length) items

/-- No extension blocks between a header and its data. -/
def Plain : Item → Prop
  | .globalPax _ => True
  | .member _ main => main.ext = []

/-- The walk over the items of a tape, by induction on the items. -/
theorem members_items {items : List Item} (hdata : data=pre++(render items++zeros k))
    (hat : c.At data pre) (hpend : c.pending=none)
    (hplain : ∀i∈items,Plain i) (hfits : Fits enc c.paxGlobal items) (hfuel : (items.map records).sum<fuel)
    (hrun : members enc data fuel c = .ok ms) : ms=rawItems enc c.paxGlobal c.pos items := by
  induction items generalizing c pre fuel ms with
  | nil =>
    obtain ⟨fuel,rfl⟩ : ∃n,fuel=n+1:=⟨fuel - 1,by omega⟩
    exact members_zeros (by simpa using hdata) hat.pos hrun
  | cons i items ih =>
    have htail:=fun i hi => hplain i (mem_cons_of_mem _ hi)
    cases i with
    | globalPax r =>
      obtain ⟨fuel,rfl⟩ : ∃n,fuel=n+1:=⟨fuel - 1,by omega⟩
      have hhead : data=pre++(r.bytes++(render items++zeros k)) := by
        simp [hdata,bytes]
      obtain ⟨ms',rfl,hms'⟩:=members_global hhead hat hrun
      have hih:=@ih (pre++r.bytes) { c with paxGlobal:=c.paxGlobal.extend (paxOf r.body),
                                                pos := c.pos+r.bytes.length } fuel ms'
        (by simp [hhead]) ⟨by simp [hat.pos],hat.eof,hat.short⟩ hpend htail hfits
        (by simp [records] at hfuel; omega) hms'
      rw [hih,rawItems]
    | member helpers main =>
      have hext:=hplain _ mem_cons_self
      obtain ⟨fuel,rfl⟩ : ∃n,fuel=helpers.length+(n+1) :=
        ⟨fuel-helpers.length-1,by simp [records] at hfuel; omega⟩
      have hhead : data=pre++(helperBytes helpers++(main.bytes++(render items++zeros k))) := by
        simp [hdata,bytes]
      have hmain : data=(pre++helperBytes helpers)++(main.bytes++(render items++zeros k)) := by
        simp [hhead]
      obtain ⟨hp,he,hg,hx,hs⟩:=@afterHelpers_none enc c helpers hpend
      have hrun:=members_helpers hhead hat hrun
      obtain ⟨ms',rfl,hms'⟩:=members_main hmain ⟨by simp [hp,hat.pos],he.trans hat.eof,hat.short⟩ hext
        (by rw [hx]; exact hfits.1) hrun
      have hnext : (helpers.foldl (afterHelper enc) c).pos+main.bytes.length =
          c.pos+(member helpers main).bytes.length := by simp [hp,bytes,add_assoc]
      have hih:=@ih (pre++helperBytes helpers++main.bytes)
        ((helpers.foldl (afterHelper enc) c).skip main.bytes.length) fuel ms' (by simp [hhead])
        ⟨by simp [skip,hp,hat.pos,add_assoc],he.trans hat.eof,hat.short⟩ rfl htail (by simpa [skip,hg] using hfits.2)
        (by simp [records] at hfuel; omega) hms'
      rw [hih,hs,hx]
      simp only [skip,hnext,hg]
      rfl

end Ratarmount.Tar.Cursor
