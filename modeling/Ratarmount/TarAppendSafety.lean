import Ratarmount.TarAppend
import Ratarmount.TarWrittenMember

/-!
# Appending behind the boundary

The members that `write_ustar_members` puts behind the boundary are walked with
the state in which the walk over the archive ended: helper records at the end of
the archive that no member follows still apply to the first of them.
-/

namespace Ratarmount.Tar

open List ArchivePath Cursor PaxMap UstarMember Item

/-- The name that a reader finds in what the writer wrote for the member. -/
def UstarMember.walkedName (enc : Encoding) (m : UstarMember) : Str :=
  if m.needPaxPath then m.relPath
  else
    let name := enc (cstr (fixedField 100 m.ustarName))
    if enc [] = [] then name else enc [] ++ '/' :: name

/-- A walker accepts the PAX record of the member. -/
def UstarMember.PaxWithinCap (m : UstarMember) : Prop :=
  ∀ body, m.needPax = true → m.paxBody = .ok body → body.length ≤ maxHeaderPayloadBytes

/-- The member is found again under its own path wherever a walk meets it with no records in force. -/
def UstarMember.Appendable (enc : Encoding) (m : UstarMember) : Prop :=
  m.PaxWithinCap ∧ normalizeArchiveRelPath (m.walkedName enc) = normalizeArchiveRelPath m.relPath

/-- Records that change neither the name nor the size of a member without records of its own. -/
def Harmless (pax : PaxMap) : Prop :=
  pax PaxKey.path = none ∧ pax PaxKey.sparseName = none ∧ (pax PaxKey.size).bind parseU64 = none

theorem PaxMap.extend_assoc (a b c : PaxMap) : a.extend (b.extend c)=(a.extend b).extend c := by
  funext key
  exact Option.or_assoc

variable {m : UstarMember} {helpers : List Helper} {main : MainRec} {enc : Encoding} {pax : PaxMap}

theorem paxWithinCap_of_no_pax (hneed : m.needPax=false) : m.PaxWithinCap := by
  intro body hyes
  rw [hneed] at hyes
  cases hyes

theorem parseName_written (hw : Written m helpers main) (hneed : m.needPaxPath=false) :
    parseName enc main.header=m.walkedName enc := by
  have hname : m.headerFields.name=m.ustarName:=if_neg (by simp [hneed])
  rw [parseName,walkedName,hw.header.front,hw.header.name,hname,hneed]
  rfl

theorem memberName_extend (hw : Written m helpers main) (hpax : Harmless pax) :
    memberName enc (pax.extend m.paxState.map) main.header=m.walkedName enc := by
  have hsparse : m.paxState.map PaxKey.sparseName=none :=
    paxState_other (by decide +kernel) (by decide +kernel)
  rw [memberName,PaxMap.extend,PaxMap.extend,paxState_path,hsparse,hpax.1,hpax.2.1]
  cases hneed : m.needPaxPath with
  | true => simp [walkedName,hneed]
  | false => exact parseName_written hw hneed

theorem onTapeSize_extend (hw : Written m helpers main) (hpax : Harmless pax) :
    onTapeSize (pax.extend m.paxState.map) main.header=m.bodySize := by
  have hparse : parseU64 (Numeral.text 10 m.bodySize)=some m.bodySize :=
    Numeral.parse_text (by decide) (by decide) 0 hw.size_lt
  rw [onTapeSize,PaxMap.extend,paxState_size,sizeField_written hw]
  cases m.needPaxSize with
  | true => simp [hparse]
  | false => simp [hpax.2.2]

namespace Cursor

variable {data pre rest : Bytes} {c : Cursor} {fuel : ℕ}

theorem members_helper_error {h : Helper} (hdata : data=pre++(h.bytes++rest)) (hat : c.At data pre) (hcap : maxHeaderPayloadBytes<h.body.length) :
    ∃e,members enc data (fuel+1) c = .error e := by
  rw [members,turn_helper hdata hat,consumePendingHelper,readHelperBody,if_pos hcap]
  exact ⟨_,rfl⟩

theorem members_pax_helper {h : Helper} {parsed : PaxParsed} (hdata : data=pre++(h.bytes++rest)) (hat : c.At data pre)
    (hcap : h.body.length ≤ maxHeaderPayloadBytes) (hflag : typeflag h.header=120)
    (hparsed : parsePaxRecords h.body = .ok parsed) :
    members enc data (fuel+1) c=members enc data fuel (c.afterHelper enc h) := by
  have hshort : h.body.length<2^63 := by
    rw [maxHeaderPayloadBytes] at hcap
    omega
  have hmap : ∀map,helperMap enc (typeflag h.header) h.body map = .ok (h.apply enc map) := by
    intro map
    rw [helperMap,Helper.apply,if_pos hflag,if_pos hflag,paxOf,hparsed]
    rfl
  have hturn : c.turn enc data = .ok (.again (c.afterHelper enc h)) := by
    rw [turn_helper hdata hat,consumePendingHelper,readHelperBody,if_neg (not_lt.mpr hcap),
      slice_body hdata hat.pos,if_neg (lt_irrefl _),ok_bind,end_record hshort]
    simp only [hmap]
    rfl
  rw [members,hturn]
  rfl

theorem members_header (hdata : data=pre++(main.header++rest)) (hat : c.At data pre) :
    ∃new : TarRawMember,
      new.logicalPath=normalizeArchiveRelPath (memberName enc c.pax main.header) ∧
      members enc data (fuel+1) c=(do
        let ms ← members enc data fuel (c.resume (memberEnd c.pos c.pax main.header))
        return new::ms) := by
  obtain ⟨h103,h120,h76,h75⟩:=main.flag
  let new : TarRawMember :=
    { rawStart := (c.pending.map PendingHelper.rawStart).getD c.pos,
      rawEnd := memberEnd c.pos c.pax main.header,
      logicalPath := normalizeArchiveRelPath (memberName enc c.pax main.header),
      typeflag := typeflag main.header }
  refine ⟨new,rfl,?_⟩
  rw [members,turn_record hdata hat,if_neg h103,if_neg (by simp [h120,h76,h75])]
  rfl

theorem pax_afterHelper {h : Helper} (hflag : typeflag h.header=120) :
    (c.afterHelper enc h).pax=c.pax.extend (paxOf h.body) := by
  rw [afterHelper,pax,pax]
  cases c.pending with
  | none =>
    have hempty : PaxMap.empty.extend (paxOf h.body)=paxOf h.body := by
      funext key
      exact Option.or_none
    simp [Helper.apply,if_pos hflag,hempty]
  | some p => simp only [Option.getD_some,Helper.apply,if_pos hflag,extend_assoc]

/-- The walk over what the writer wrote for one member, with the records that are in force. -/
theorem members_written (hw : Written m helpers main) (hcap : m.PaxWithinCap)
    (hdata : data=pre++((member helpers main).bytes++rest)) (hat : c.At data pre) :
    ∃new : TarRawMember,
      new.logicalPath =
        normalizeArchiveRelPath (memberName enc (c.pax.extend m.paxState.map) main.header) ∧
      members enc data (helpers.length+(fuel+1)) c=(do
        let ms ← members enc data fuel (c.resume
          (memberEnd (c.pos+(helperBytes helpers).length) (c.pax.extend m.paxState.map) main.header))
        return new::ms) := by
  have hmap : helpersMap enc helpers=m.paxState.map:=helpersMap_written hw
  have hmain : main.bytes++rest=main.header++((main.body++main.pad)++rest) := by
    simp [MainRec.bytes,hw.ext]
  rcases hw.pax with ⟨-,rfl⟩ | ⟨hneed,h,rfl,hflag,hbody⟩
  · rw [←hmap]
    rw [length_nil,zero_add]
    have hhead : data=pre++(main.header++((main.body++main.pad)++rest)) := by
      rw [hdata,bytes,helperBytes,flatMap_nil,nil_append,hmain]
    exact members_header hhead hat
  · have hparsed:=parsePaxRecords_paxBody hbody (hw.short h (by simp))
    have hpaxOf : paxOf h.body=m.paxState.map := by rw [paxOf,hparsed]
    have hhead : data=pre++(h.bytes++(main.bytes++rest)) := by
      simp [hdata,bytes,helperBytes]
    have hhelper : members enc data (fuel+1+1) c=members enc data (fuel+1) (c.afterHelper enc h) :=
      members_pax_helper hhead hat (hcap _ hneed hbody) hflag hparsed
    have hnext : data=(pre++h.bytes)++(main.header++((main.body++main.pad)++rest)) := by
      rw [hhead,hmain,append_assoc pre]
    obtain ⟨new,hnew,hrun⟩:=@members_header main enc data _ _ (c.afterHelper enc h) fuel hnext
      ⟨by simp [afterHelper,hat.pos],hat.eof,hat.short⟩
    rw [pax_afterHelper hflag,hpaxOf] at hnew hrun
    refine ⟨new,hnew,?_⟩
    rw [length_singleton,add_comm,hhelper,hrun]
    simp only [helperBytes,flatMap_cons,flatMap_nil,append_nil]
    rfl

theorem memberEnd_harmless (hw : Written m helpers main) (hpax : Harmless c.pax)
    (hdata : data=pre++((member helpers main).bytes++rest)) (hat : c.At data pre) :
    memberEnd (c.pos+(helperBytes helpers).length) (c.pax.extend m.paxState.map) main.header =
      c.pos+(member helpers main).bytes.length := by
  have hbytes : (member helpers main).bytes.length =
      (helperBytes helpers).length+(512+(main.body.length+main.pad.length)) := by
    rw [bytes,MainRec.bytes,hw.ext,nil_append,length_append,length_append,length_append,main.header_length]
  have hle : pre.length+(member helpers main).bytes.length≤data.length := by
    rw [hdata,length_append,length_append]
    omega
  have hpos:=hat.pos
  have hlen:=hat.short
  have hsize : main.body.length=m.bodySize := by rw [hw.body,hw.size]
  rw [memberEnd,onTapeSize_extend hw hpax,←hsize,pad512_of_padded (by omega),satAdd,satAdd,blockSize]
  omega

/-- A walk over written members either finds them all under the names that a reader finds, or stops at a PAX record
that is too long. -/
theorem members_writtenItems {M : List UstarMember} {items : List Item} {k : ℕ} (h : WrittenItems M items)
    (hdata : data=pre++(render items++Bytes.zeros k)) (hat : c.At data pre)
    (hglobal : c.paxGlobal=PaxMap.empty) (hpax : Harmless c.pax) (hfuel : (items.map records).sum<fuel) :
    ((∀m∈M,m.PaxWithinCap)→∃new,members enc data fuel c = .ok new ∧
      new.map TarRawMember.logicalPath=M.map (fun m => normalizeArchiveRelPath (m.walkedName enc))) ∧
    ((∃m∈M,¬m.PaxWithinCap)→∃e,members enc data fuel c = .error e) := by
  induction h generalizing c pre fuel with
  | nil =>
    obtain ⟨fuel,rfl⟩ : ∃n,fuel=n+1:=⟨fuel - 1,by omega⟩
    have hzero : isZero (data.drop c.pos)=true := by
      rw [hdata,drop_left' hat.pos.symm,isZero,all_eq_true]
      intro b hb
      simpa using eq_of_mem_replicate hb
    refine ⟨fun _ => ⟨[],members_of_zeros hzero,rfl⟩,?_⟩
    rintro ⟨m,hm,-⟩
    cases hm
  | @cons m i M items hhead _ ih =>
    obtain ⟨helpers,main,rfl,hw⟩:=hhead
    rw [map_cons,sum_cons,records] at hfuel
    obtain ⟨fuel,rfl⟩ : ∃n,fuel=helpers.length+(n+1):=⟨fuel - helpers.length - 1,by omega⟩
    have hitem : data=pre++((member helpers main).bytes++(render items++Bytes.zeros k)) := by
      rw [hdata,render_cons,append_assoc]
    by_cases hcap : m.PaxWithinCap
    · obtain ⟨new,hnew,hrun⟩:=@members_written m helpers main enc data pre _ c fuel hw hcap hitem hat
      rw [memberEnd_harmless hw hpax hitem hat] at hrun
      rw [memberName_extend hw hpax] at hnew
      have hnext : Harmless (c.resume (c.pos+(member helpers main).bytes.length)).pax := by
        rw [resume,hglobal]
        exact ⟨rfl,rfl,rfl⟩
      obtain ⟨hgood,hbad⟩:=@ih (pre++(member helpers main).bytes)
        (c.resume (c.pos+(member helpers main).bytes.length)) fuel (by rw [hitem,append_assoc])
        ⟨by rw [length_append,←hat.pos]; rfl,hat.eof,hat.short⟩ hglobal hnext (by omega)
      constructor
      · intro hcaps
        obtain ⟨ms,hms,hnames⟩:=hgood fun m' hm' => hcaps m' (mem_cons_of_mem _ hm')
        refine ⟨new::ms,by rw [hrun,hms]; rfl,?_⟩
        rw [map_cons,map_cons,hnew,hnames]
      · rintro ⟨m',hm',hnot⟩
        rcases mem_cons.mp hm' with rfl | hm'
        · exact absurd hcap hnot
        · obtain ⟨e,he⟩:=hbad ⟨m',hm',hnot⟩
          exact ⟨e,by rw [hrun,he]; rfl⟩
    · refine ⟨fun hcaps => absurd (hcaps m mem_cons_self) hcap,fun _ => ?_⟩
      rw [UstarMember.PaxWithinCap] at hcap
      push Not at hcap
      obtain ⟨body,hneed,hbody,hbig⟩:=hcap
      rcases hw.pax with ⟨hnot,-⟩ | ⟨-,h,rfl,-,hbody'⟩
      · rw [hneed] at hnot
        cases hnot
      · rw [hbody] at hbody'
        cases hbody'
        have hhead : data=pre++(h.bytes++(main.bytes++(render items++Bytes.zeros k))) := by
          simp [hitem,bytes,helperBytes]
        exact members_helper_error hhead hat hbig

end Cursor

/-- The records of helpers at the end of the archive that no member follows. -/
def trailingPax (enc : Encoding) (data : Bytes) (touched : List Str) : PaxMap :=
  match appendCursor enc data touched with
  | .ok (some c) => c.pax
  | _ => PaxMap.empty

def appended (data : Bytes) (off : ℕ) (bytes : Bytes) : Bytes := data.take off ++ (bytes ++ tarEof)

/-- The walk over the file behind the append finds `ms`, and then the members of `M` under their own paths. -/
def AppendsCleanly (enc : Encoding) (data : Bytes) (off : ℕ) (ms : List TarRawMember) (M : List UstarMember)
    (bytes : Bytes) : Prop :=
  ∃ new, Cursor.walk enc (appended data off bytes) = .ok (ms ++ new) ∧
    new.map TarRawMember.logicalPath = M.map (fun m => normalizeArchiveRelPath m.relPath)

/-- A walk of `data` that ends at the boundary `off` with the cursor `e` and the members `ms`. -/
structure Boundary (enc : Encoding) (data : Bytes) (touched : List Str) (off : ℕ) (e : Cursor)
    (ms : List TarRawMember) (n : ℕ) : Prop where
  reaches : Cursor.Reaches enc data touched off e { pos := 0 } ms n
  zeros : isZero (data.drop off) = true
  room : off + 1024 ≤ data.length
  trailing : trailingPax enc data touched = (e.rewind off).pax

section Boundary

variable {data : Bytes} {touched : List Str} {off : ℕ} {e : Cursor} {ms : List TarRawMember} {n : ℕ}

theorem exists_boundary (hlen : data.length<2^63) (hoff : tarAppendOffset enc data touched = .ok (some off)) :
    ∃e ms n,Boundary enc data touched off e ms n := by
  obtain ⟨cursor,hcursor,hoff⟩:=bind_ok hoff
  have hoff:=Except.ok.inj hoff
  obtain ⟨e,rfl,he⟩:=Option.bind_eq_some_iff.mp hoff
  obtain ⟨heof,hroom⟩:=Option.filter_eq_some_iff.mp he
  have hroom : off+1024≤data.length := by
    rw [decide_eq_true_eq] at hroom
    omega
  obtain ⟨hzeros,ms,n,hreach⟩:=appendScan_reaches hlen rfl hcursor heof hroom
  refine ⟨e,ms,n,hreach,hzeros,hroom,?_⟩
  rw [trailingPax,hcursor]
  rfl

namespace Boundary

variable (h : Boundary enc data touched off e ms n)
include h

theorem walk_eq {data' : Bytes} (hsame : Cursor.SameFront off data data') (hlen' : data'.length<2^63) :
    Cursor.walk enc data'=(do
      let rest ← Cursor.members enc data' (data'.length / blockSize+2-n) (e.rewind off)
      return ms++rest) := by
  have hturns : blockSize*n≤off := by simpa using h.reaches.turns
  have hle':=hsame.le'
  have hfuel : data'.length / blockSize+2=n+(data'.length / blockSize+2-n) := by
    simp only [blockSize] at hturns ⊢
    omega
  rw [Cursor.walk,hfuel,h.reaches.walks data' hsame hlen',Nat.add_sub_cancel_left]

/-- The archive itself has the members that the scan has seen. -/
theorem walk_archive (hlen : data.length<2^63) : Cursor.walk enc data = .ok ms := by
  have hsame : Cursor.SameFront off data data:=⟨by have:=h.room; omega,by have:=h.room; omega,fun _ _ _ => rfl⟩
  have hturns : blockSize*n≤off := by simpa using h.reaches.turns
  have hroom:=h.room
  obtain ⟨fuel,hfuel⟩ : ∃k,data.length / blockSize+2 - n=k+1 := by
    refine ⟨data.length / blockSize+1-n,?_⟩
    simp only [blockSize] at hturns ⊢
    omega
  have hzeros:=h.zeros
  rw [h.walk_eq hsame hlen,hfuel,members_of_zeros hzeros,ok_bind,append_nil]
  rfl

variable {M : List UstarMember} {bytes : Bytes}

theorem sameFront_appended : Cursor.SameFront off data (appended data off bytes) :=
  sameFront_take _ (by have := h.room; omega)

theorem length_appended : (appended data off bytes).length=off+bytes.length+1024 := by
  rw [appended,length_append,length_append,length_take_of_le (by have := h.room; omega),tarEof,
    Bytes.length_zeros,add_assoc]

/-- The append is clean when the walk from the boundary on finds the members of `M`. -/
theorem appendsCleanly_iff (hlen' : (appended data off bytes).length<2^63) : AppendsCleanly enc data off ms M bytes ↔
      ∃new,Cursor.members enc (appended data off bytes) ((appended data off bytes).length / blockSize+2-n)
          (e.rewind off) = .ok new ∧
        new.map TarRawMember.logicalPath=M.map (fun m => normalizeArchiveRelPath m.relPath) := by
  rw [AppendsCleanly,h.walk_eq h.sameFront_appended hlen']
  cases Cursor.members enc (appended data off bytes) ((appended data off bytes).length / blockSize+2-n)
      (e.rewind off) with
  | error err =>
    constructor <;> rintro ⟨new,hnew,-⟩ <;> cases hnew
  | ok rest =>
    constructor
    · rintro ⟨new,hnew,hnames⟩
      refine ⟨new,?_,hnames⟩
      rw [append_cancel_left (Except.ok.inj hnew)]
    · rintro ⟨new,hnew,hnames⟩
      refine ⟨new,?_,hnames⟩
      rw [Except.ok.inj hnew]
      rfl

omit h in
theorem exists_items (hw : writeUstarMembers M = .ok bytes) (hlen : bytes.length<2^63) :
    ∃items,render items=bytes ∧ WrittenItems M items := by
  obtain ⟨written,hwritten,hbytes⟩:=bind_ok hw
  have hbytes:=Except.ok.inj hbytes
  obtain ⟨items,hitems,hws⟩:=mapM_write_items hwritten (by rw [hbytes]; exact hlen)
  refine ⟨items,?_,hws⟩
  rw [←hbytes,←hitems,render,flatMap_def]

theorem rewind_facts : (e.rewind off).pos=(data.take off).length ∧ (e.rewind off).eofOff=none ∧
      (e.rewind off).paxGlobal=PaxMap.empty := by
  refine ⟨?_,rfl,h.reaches.global⟩
  rw [length_take_of_le (by have := h.room; omega)]
  rfl

theorem records_lt {items : List Item} (hitems : render items=bytes) :
    (items.map records).sum<(appended data off bytes).length / blockSize+2-n := by
  have hturns : blockSize*n≤off := by simpa using h.reaches.turns
  have hrecords:=sum_records_le items
  rw [hitems] at hrecords
  rw [h.length_appended]
  simp only [blockSize] at hturns ⊢
  omega

/-- With harmless records at the end of the archive, the append is clean for the members that read back. -/
theorem appendsCleanly_of_harmless (hharmless : Harmless (trailingPax enc data touched))
    (hw : writeUstarMembers M = .ok bytes) (hlen' : (appended data off bytes).length<2^63) :
    AppendsCleanly enc data off ms M bytes ↔ ∀m∈M,m.Appendable enc := by
  have hlength:=@length_appended enc data touched off e ms n h bytes
  obtain ⟨items,hitems,hws⟩:=exists_items hw (by omega)
  obtain ⟨hpos,heof,hglobal⟩:=h.rewind_facts
  rw [h.trailing] at hharmless
  have hdata : appended data off bytes=data.take off++(render items++Bytes.zeros 1024) := by
    rw [appended,hitems,tarEof]
  obtain ⟨hgood,hbad⟩:=@members_writtenItems enc (appended data off bytes) (data.take off) (e.rewind off)
    ((appended data off bytes).length / blockSize+2-n) M items 1024 hws hdata ⟨hpos,heof,hlen'⟩ hglobal hharmless
    (h.records_lt hitems)
  rw [h.appendsCleanly_iff hlen']
  constructor
  · rintro ⟨new,hnew,hnames⟩
    have hcaps : ∀m∈M,m.PaxWithinCap := by
      by_contra hnot
      push Not at hnot
      obtain ⟨err,herr⟩:=hbad hnot
      rw [herr] at hnew
      cases hnew
    obtain ⟨new',hnew',hnames'⟩:=hgood hcaps
    rw [hnew'] at hnew
    cases hnew
    rw [hnames'] at hnames
    exact fun m hm => ⟨hcaps m hm,map_inj_left.mp hnames m hm⟩
  · intro happendable
    obtain ⟨new,hnew,hnames⟩:=hgood fun m hm => (happendable m hm).1
    refine ⟨new,hnew,hnames.trans ?_⟩
    exact map_inj_left.mpr fun m hm => (happendable m hm).2

/-- The walk behind the boundary over a first member without a PAX record: the trailing records apply to it. -/
theorem members_head (hneed : m.needPax=false) (hw : writeUstarMembers (m::M) = .ok bytes)
    (hlen' : (appended data off bytes).length<2^63) :
    ∃main new fuel,Written m [] main ∧
      TarRawMember.logicalPath new =
        normalizeArchiveRelPath (memberName enc (trailingPax enc data touched) main.header) ∧
      Cursor.members enc (appended data off bytes) ((appended data off bytes).length / blockSize+2-n)
          (e.rewind off)=(do
        let rest ← Cursor.members enc (appended data off bytes) (fuel+1) ((e.rewind off).resume
          (memberEnd off (trailingPax enc data touched) main.header))
        return new::rest) := by
  have hlength:=@length_appended enc data touched off e ms n h bytes
  have hturns : blockSize*n≤off := by simpa using h.reaches.turns
  obtain ⟨items,hitems,hws⟩:=exists_items hw (by omega)
  obtain ⟨hpos,heof,-⟩:=h.rewind_facts
  cases hws with
  | @cons _ i _ items hhead _ =>
    obtain ⟨helpers,main,rfl,hwritten⟩:=hhead
    have hhelpers : helpers=[] := by
      rcases hwritten.pax with ⟨-,hnil⟩ | ⟨hyes,-⟩
      · exact hnil
      · rw [hneed] at hyes
        cases hyes
    subst hhelpers
    have hmap : m.paxState.map=PaxMap.empty:=(@helpersMap_written m [] main enc hwritten).symm
    have hdata : appended data off bytes =
        data.take off++((member [] main).bytes++(render items++Bytes.zeros 1024)) := by
      rw [appended,←hitems,tarEof,render_cons,append_assoc]
    obtain ⟨fuel,hfuel⟩ : ∃k,(appended data off bytes).length / blockSize+2 - n=0+(k+1+1) := by
      refine ⟨(appended data off bytes).length / blockSize-n,?_⟩
      rw [hlength]
      simp only [blockSize] at hturns ⊢
      omega
    obtain ⟨new,hnew,hrun⟩:=@members_written m [] main enc (appended data off bytes) (data.take off)
      (render items++Bytes.zeros 1024) (e.rewind off) (fuel+1) hwritten
      (paxWithinCap_of_no_pax hneed) hdata ⟨hpos,heof,hlen'⟩
    rw [hmap,←h.trailing] at hnew hrun
    refine ⟨main,new,fuel,hwritten,hnew,?_⟩
    rw [hfuel]
    exact hrun

end Boundary

end Boundary

/-- The encoding reads ASCII as itself. -/
def ReadsAscii (enc : Encoding) : Prop := ∀ s : Str, (∀ c ∈ s, c.toNat < 128) → enc (Utf8.encode s) = s

theorem walkedName_ascii {s : Str} (henc : ReadsAscii enc) (hneed : m.needPaxPath=false)
    (hname : cstr (fixedField 100 m.ustarName)=Utf8.encode s) (hs : ∀c∈s,c.toNat<128) : m.walkedName enc=s := by
  have hnil : enc []=[]:=henc [] (by simp)
  rw [walkedName,hneed,hname,henc s hs,hnil]
  rfl

/-- Small members that read back in every such encoding. -/
theorem appendable_samples (henc : ReadsAscii enc) :
    (sampleDir ['a']).Appendable enc ∧ (sampleDir ['b']).Appendable enc ∧ (sampleFile ['a'] [7]).Appendable enc := by
  have happendable : ∀(m : UstarMember) (s : Str),m.needPax=false → m.needPaxPath=false →
      cstr (fixedField 100 m.ustarName)=Utf8.encode s → s.all (·.toNat<128) →
      normalizeArchiveRelPath s=normalizeArchiveRelPath m.relPath → m.Appendable enc := by
    intro m s hneed hpath hname hs hnorm
    refine ⟨paxWithinCap_of_no_pax hneed,?_⟩
    rw [walkedName_ascii henc hpath hname (by simpa using hs),hnorm]
  refine ⟨?_,?_,?_⟩
  · apply happendable _ ['a','/'] <;> decide +kernel
  · apply happendable _ ['b','/'] <;> decide +kernel
  · apply happendable _ ['a'] <;> decide +kernel

section Converse

variable {data : Bytes} {touched : List Str} {off : ℕ} {e : Cursor} {ms : List TarRawMember} {n : ℕ}

/-- Every append of members that read back is clean. -/
def AppendsAll (enc : Encoding) (data : Bytes) (off : ℕ) (ms : List TarRawMember) : Prop :=
  ∀ M bytes, writeUstarMembers M = .ok bytes → (appended data off bytes).length < 2 ^ 63 →
    (AppendsCleanly enc data off ms M bytes ↔ ∀ m ∈ M, m.Appendable enc)

/-- The walk finds the appended members: the first one with the trailing records, the others from where these make it end. -/
theorem appended_run (h : Boundary enc data touched off e ms n) (hlen : data.length+1024<2^63)
    (hall : AppendsAll enc data off ms) {m : UstarMember} {M : List UstarMember} (hM : ∀m'∈m::M,m'.Appendable enc)
    (hneed : m.needPax=false) (hok : (writeUstarMembers (m::M)).isOk=true) {bytes : Bytes}
    (hbytes : (writeUstarMembers (m::M)).toOption.getD []=bytes) (hlength : bytes.length≤1024) : ∃header rest fuel,
      normalizeArchiveRelPath (memberName enc (trailingPax enc data touched) header) =
        normalizeArchiveRelPath m.relPath ∧
      rest.map TarRawMember.logicalPath=M.map (fun m => normalizeArchiveRelPath m.relPath) ∧
      Cursor.members enc (appended data off bytes) (fuel+1) ((e.rewind off).resume
        (memberEnd off (trailingPax enc data touched) header)) = .ok rest := by
  have hroom:=h.room
  obtain ⟨bytes',hw⟩:=ok_of_isOk hok
  obtain rfl : bytes'=bytes := by
    rw [←hbytes,hw]
    rfl
  have hlen' : (appended data off bytes').length<2^63 := by
    rw [h.length_appended]
    omega
  obtain ⟨new,hnew,hnames⟩:=(h.appendsCleanly_iff hlen').mp ((hall _ bytes' hw hlen').mpr hM)
  obtain ⟨main,first,fuel,-,hfirst,hrun⟩:=h.members_head hneed hw hlen'
  rw [hrun] at hnew
  obtain ⟨rest,hrest,hnew⟩:=bind_ok hnew
  cases hnew
  rw [map_cons,map_cons,List.cons.injEq] at hnames
  exact ⟨main.header,rest,fuel,by rw [←hfirst,hnames.1],hnames.2,hrest⟩

/-- A name among the trailing records would be the name of every first member. -/
theorem no_trailing_name (henc : ReadsAscii enc) (h : Boundary enc data touched off e ms n)
    (hlen : data.length+1024<2^63) (hall : AppendsAll enc data off ms) :
    trailingPax enc data touched PaxKey.path=none ∧ trailingPax enc data touched PaxKey.sparseName=none := by
  obtain ⟨ha,hb,-⟩:=appendable_samples henc
  obtain ⟨header₁,-,-,h₁,-⟩:=appended_run h hlen hall (forall_mem_singleton.mpr ha) (by decide +kernel)
    (by decide +kernel) rfl (by decide +kernel)
  obtain ⟨header₂,-,-,h₂,-⟩:=appended_run h hlen hall (forall_mem_singleton.mpr hb) (by decide +kernel)
    (by decide +kernel) rfl (by decide +kernel)
  have hdiff : normalizeArchiveRelPath (sampleDir ['a']).relPath ≠
      normalizeArchiveRelPath (sampleDir ['b']).relPath := by decide +kernel
  rw [memberName] at h₁ h₂
  cases hpath : trailingPax enc data touched PaxKey.path with
  | some p =>
    rw [hpath] at h₁ h₂
    exact absurd (h₁.symm.trans h₂) hdiff
  | none =>
    cases hsparse : trailingPax enc data touched PaxKey.sparseName with
    | some p =>
      rw [hsparse] at h₁ h₂
      exact absurd (h₁.symm.trans h₂) hdiff
    | none => exact ⟨rfl,rfl⟩

theorem members_invalid {c : Cursor} {header : Bytes} {fuel : ℕ} (hh : Cursor.Heads data c header)
    (hz : isZero header=false) (hsum : checksumOk header=false) :
    ∃err,Cursor.members enc data (fuel+1) c = .error err := by
  rw [Cursor.members,Cursor.turn,hh.slice,if_neg (by simp [hh.goes,hh.length]),if_neg (by simp [hz]),
    if_pos (by simp [hsum])]
  exact ⟨_,rfl⟩

/-- A size of 0 among the trailing records lets the walk read the payload of a first member as a header. -/
theorem trailing_size_zero (henc : ReadsAscii enc) (h : Boundary enc data touched off e ms n)
    (hlen : data.length+1024<2^63) (hall : AppendsAll enc data off ms) {k : ℕ}
    (hsize : (trailingPax enc data touched PaxKey.size).bind parseU64=some k) : pad512 k≠0 := by
  intro hpad
  have hroom:=h.room
  obtain ⟨bytes,hbytes⟩ : ∃bytes,(writeUstarMembers [sampleFile ['a'] [7]]).toOption.getD []=bytes := ⟨_,rfl⟩
  have hlength : bytes.length=1024 := by
    rw [←hbytes]
    decide +kernel
  have hpayload : bytes.slice 512 512=7::Bytes.zeros 511 := by
    rw [←hbytes]
    decide +kernel
  have hlength' : (appended data off bytes).length=off+2048 := by rw [h.length_appended,hlength]
  obtain ⟨header,rest,fuel,-,-,hrun⟩:=appended_run h hlen hall
    (forall_mem_singleton.mpr (appendable_samples henc).2.2) (by decide +kernel) (by decide +kernel) hbytes (by omega)
  have hend : memberEnd off (trailingPax enc data touched) header=off+512 := by
    rw [memberEnd,onTapeSize,hsize,Option.getD_some,satAdd,satAdd,blockSize]
    omega
  have hheads : Cursor.Heads (appended data off bytes) ((e.rewind off).resume (off+512)) (7::Bytes.zeros 511) := by
    refine ⟨?_,?_,by rw [length_cons,Bytes.length_zeros,blockSize]⟩
    · have hu : u64 (off+512+512)=off+512+512:=u64_eq (by omega)
      change (false || decide ((appended data off bytes).length<u64 (off+512+512)))=false
      rw [hu,hlength']
      simp
    · change (appended data off bytes).slice (off+512) 512=_
      have htake : (data.take off).length=off:=length_take_of_le (by omega)
      rw [appended,Bytes.slice_append_right (data.take off) _ (by rw [htake]),Bytes.slice_append_left _ _ (by omega)]
      exact hpayload
  obtain ⟨err,herr⟩:=@members_invalid enc _ _ _ fuel hheads (by decide +kernel) (by decide +kernel)
  rw [hend,herr] at hrun
  cases hrun

/-- Any other size lets the walk step over the second member. -/
theorem trailing_size_pos (henc : ReadsAscii enc) (h : Boundary enc data touched off e ms n)
    (hlen : data.length+1024<2^63) (hall : AppendsAll enc data off ms) {k : ℕ}
    (hsize : (trailingPax enc data touched PaxKey.size).bind parseU64=some k) : pad512 k=0 := by
  by_contra hpad
  have hroom:=h.room
  obtain ⟨bytes,hbytes⟩ : ∃bytes,(writeUstarMembers [sampleDir ['a'],sampleDir ['b']]).toOption.getD []=bytes :=
    ⟨_,rfl⟩
  have hlength : bytes.length=1024 := by
    rw [←hbytes]
    decide +kernel
  obtain ⟨ha,hb,-⟩:=appendable_samples henc
  obtain ⟨header,rest,fuel,-,hnames,hrun⟩:=appended_run h hlen hall (by simpa using ⟨ha,hb⟩) (by decide +kernel)
    (by decide +kernel) hbytes (by omega)
  have hend : off+1024 ≤ memberEnd off (trailingPax enc data touched) header := by
    have hblock : 512≤pad512 k := by
      rw [pad512,u64] at hpad ⊢
      omega
    rw [memberEnd,onTapeSize,hsize,Option.getD_some,satAdd,satAdd,blockSize]
    omega
  have hzero : isZero ((appended data off bytes).drop
      (memberEnd off (trailingPax enc data touched) header))=true := by
    have hfront : (data.take off++bytes).length ≤ memberEnd off (trailingPax enc data touched) header := by
      rw [length_append,length_take_of_le (by omega),hlength]
      exact hend
    rw [appended,←append_assoc,drop_append,drop_eq_nil_of_le hfront,nil_append,isZero,all_eq_true]
    intro b hb
    simpa using eq_of_mem_replicate (mem_of_mem_drop hb)
  rw [members_of_zeros hzero] at hrun
  cases hrun
  cases hnames

end Converse

/-- An in-place append at the boundary is safe: only zeros stand there, no member of the archive is touched, and the
appended members that read back are found behind the members of the archive, provided that the helper records at the
end of the archive that no member follows give neither a name nor a size. -/
theorem append_offset_safe_iff {data : Bytes} {touched : List Str} {off : ℕ} (hlen : data.length + 1024 < 2 ^ 63)
    (hoff : tarAppendOffset enc data touched = .ok (some off)) :
    isZero (data.drop off) = true ∧ 1024 ≤ (data.drop off).length ∧
    ∃ ms, Cursor.walk enc data = .ok ms ∧ (∀ m ∈ ms, isTouched touched m.logicalPath = false) ∧
      (Harmless (trailingPax enc data touched) → AppendsAll enc data off ms) ∧
      (ReadsAscii enc → (AppendsAll enc data off ms ↔ Harmless (trailingPax enc data touched))) := by
  obtain ⟨e,ms,n,h⟩ := exists_boundary (by omega) hoff
  have hclean : Harmless (trailingPax enc data touched) → AppendsAll enc data off ms := by
    intro hharmless M bytes hw hlen'
    exact h.appendsCleanly_of_harmless hharmless hw hlen'
  refine ⟨h.zeros,?_,ms,h.walk_archive (by omega),h.reaches.untouched,hclean,fun henc => ⟨?_,hclean⟩⟩
  · have hroom := h.room
    rw [length_drop]
    omega
  · intro hall
    obtain ⟨hpath,hsparse⟩ := no_trailing_name henc h hlen hall
    refine ⟨hpath,hsparse,?_⟩
    cases hsize : (trailingPax enc data touched PaxKey.size).bind parseU64 with
    | none => rfl
    | some k => exact absurd (trailing_size_pos henc h hlen hall hsize) (trailing_size_zero henc h hlen hall hsize)

theorem readsAscii_utf8 : ReadsAscii Utf8.decodeLossy := fun s _ => Utf8.decodeLossy_encode s

/-- An archive that ends in a member: every append is clean. -/
theorem append_offset_safe_file :
    tarAppendOffset Utf8.decodeLossy (sampleTar [sampleFile ['a'] [7]]) [] = .ok (some 1024) ∧
      ∃ ms, Cursor.walk Utf8.decodeLossy (sampleTar [sampleFile ['a'] [7]]) = .ok ms ∧
        AppendsAll Utf8.decodeLossy (sampleTar [sampleFile ['a'] [7]]) 1024 ms := by
  have hoff : tarAppendOffset Utf8.decodeLossy (sampleTar [sampleFile ['a'] [7]]) [] = .ok (some 1024) := by
    decide +kernel
  have hlen : (sampleTar [sampleFile ['a'] [7]]).length + 1024 < 2 ^ 63 := by decide +kernel
  obtain ⟨-,-,ms,hwalk,-,-,hiff⟩ := append_offset_safe_iff hlen hoff
  refine ⟨hoff,ms,hwalk,(hiff readsAscii_utf8).mpr ⟨?_,?_,?_⟩⟩ <;> decide +kernel

/-- An archive whose last record is the long name `x`, with no member behind it. -/
def danglingName : Bytes :=
  (writeRawUstarHeader { name := [97], mode := 0, uid := 0, gid := 0, size := 1, mtime := 0, typeflag := 76,
                         linkname := [] }).toOption.getD [] ++ (120 :: Bytes.zeros 511 ++ tarEof)

/-- A directory `a` appended behind it is walked as `x`. -/
theorem dangling_name_renames :
    tarAppendOffset Utf8.decodeLossy danglingName [] = .ok (some 1024) ∧
      Cursor.walk Utf8.decodeLossy danglingName = .ok [] ∧
      ∃ bytes, writeUstarMembers [sampleDir ['a']] = .ok bytes ∧
        (Cursor.walk Utf8.decodeLossy (appended danglingName 1024 bytes)).toOption.map
            (fun ms => ms.map TarRawMember.logicalPath) = some [['x']] ∧
        ¬ AppendsCleanly Utf8.decodeLossy danglingName 1024 [] [sampleDir ['a']] bytes := by
  obtain ⟨bytes,hw⟩ : ∃ bytes, writeUstarMembers [sampleDir ['a']] = .ok bytes := ok_of_isOk (by decide +kernel)
  have hbytes : bytes = (writeUstarMembers [sampleDir ['a']]).toOption.getD [] := by rw [hw]; rfl
  have hwalk : (Cursor.walk Utf8.decodeLossy (appended danglingName 1024 bytes)).toOption.map
      (fun ms => ms.map TarRawMember.logicalPath) = some [['x']] := by
    rw [hbytes]
    decide +kernel
  refine ⟨by decide +kernel,by decide +kernel,bytes,hw,hwalk,?_⟩
  rintro ⟨new,hnew,hnames⟩
  rw [hnew] at hwalk
  have hx : new.map TarRawMember.logicalPath = [['x']] := Option.some.inj hwalk
  rw [hx] at hnames
  exact absurd hnames (by decide +kernel)

end Ratarmount.Tar
