import Mathlib.Data.List.Chain
import Ratarmount.ZstdSplice

/-!
# What a splice leaves

The new stream is the old one up to the frame, one frame with the transformed
content, and a table that loads to the frames of the new stream; the sizes in the
table run to the next data frame, over skippable frames between them.
-/

namespace Ratarmount.Zstd

open Bytes List

variable {lib : ZstdLib}

/-! ## The frame that a splice starts at -/

theorem stream_append (fs gs : List Frame) : stream (fs++gs)=stream fs++stream gs := flatMap_append

theorem content_append (fs gs : List Frame) : content (fs++gs)=content fs++content gs := flatMap_append

theorem framesAt_append (fs gs : List Frame) (pos uncomp : ℕ) : framesAt pos uncomp (fs++gs) =
      framesAt pos uncomp fs++framesAt (pos+(stream fs).length) (uncomp+(content fs).length) gs := by
  induction fs generalizing pos uncomp with
  | nil => simp [framesAt,stream,content]
  | cons f fs ih =>
    cases f with
    | data bytes plain => simp [framesAt,ih,stream,content,Frame.bytes,Frame.plain,add_assoc]
    | skippable kind payload => simp [framesAt,ih,stream,content,Frame.plain,add_assoc]

variable {fs pre : List Frame} {pos uncomp i : ℕ} {x f y : ZstdFrameInfo} {frames kept : List ZstdFrameInfo}
  {entries : List (ℕ × ℕ)} {file bytes plain : Bytes}

/-- The data frame with the number `i`, and what precedes it. -/
theorem exists_split (h : i<(framesAt pos uncomp fs).length) :
    ∃pre bytes plain post,fs=pre ++ .data bytes plain::post ∧ (framesAt pos uncomp pre).length=i := by
  induction fs generalizing pos uncomp i with
  | nil => simp [framesAt] at h
  | cons f fs ih =>
    cases f with
    | data bytes plain =>
      cases i with
      | zero => exact ⟨[],bytes,plain,fs,rfl,rfl⟩
      | succ i =>
        obtain ⟨pre,bytes',plain',post,rfl,hlen⟩:=ih (Nat.lt_of_succ_lt_succ h)
        exact ⟨.data bytes plain::pre,bytes',plain',post,rfl,by rw [framesAt,length_cons,hlen]⟩
    | skippable kind payload =>
      obtain ⟨pre,bytes',plain',post,rfl,hlen⟩:=ih h
      exact ⟨.skippable kind payload::pre,bytes',plain',post,rfl,by rw [framesAt,hlen]⟩

theorem decodeFrames_framesAt (hwf : ∀f∈fs,f.WellFormed lib) (before after : Bytes) (uncomp : ℕ) :
    decodeFrames lib (before++(stream fs++after)) (framesAt before.length uncomp fs) = .ok (content fs) := by
  induction fs generalizing before uncomp with
  | nil => rfl
  | cons f fs ih =>
    have hfs : ∀g∈fs,g.WellFormed lib:=fun g hg => hwf g (mem_cons_of_mem f hg)
    have hrest:=ih hfs (before++f.bytes) (uncomp+f.plain.length)
    have hfile : (before++f.bytes)++(stream fs++after)=before++(stream (f::fs)++after) := by
      simp [stream]
    rw [hfile,length_append] at hrest
    cases f with
    | data bytes plain =>
      have hslice : slice (before++(stream (.data bytes plain::fs)++after)) before.length bytes.length=bytes := by
        have heq : stream (.data bytes plain::fs)++after=bytes++(stream fs++after) := by simp [stream,Frame.bytes]
        rw [heq]
        exact slice_append _ _ _ rfl rfl
      have hdec:=hwf _ mem_cons_self
      rw [framesAt,decodeFrames]
      rw [hslice,hdec]
      dsimp only [Frame.bytes,Frame.plain] at hrest ⊢
      rw [hrest]
      rfl
    | skippable kind payload => exact hrest

/-! ## The entries of the new table -/

def spanEntries : List ZstdFrameInfo → List (ℕ × ℕ)
  | [] => []
  | [f] => [(f.compressedSize,f.uncompressedSize)]
  | f :: g :: frames => (g.compressedOffset - f.compressedOffset,f.uncompressedSize) :: spanEntries (g :: frames)

theorem length_spanEntries (frames : List ZstdFrameInfo) : (spanEntries frames).length=frames.length := by
  induction frames using spanEntries.induct with
  | case1 => rfl
  | case2 f => rfl
  | case3 f g frames ih =>
    rw [spanEntries,length_cons,ih]
    rfl

/-- The frames, each with what follows up to the next one. -/
def spans : List ZstdFrameInfo → List FrameInfo
  | [] => []
  | [f] => [f.toFrameInfo]
  | f :: g :: frames =>
    { f.toFrameInfo with compressedSize := some (g.compressedOffset - f.compressedOffset) } :: spans (g :: frames)

def Follows (f g : ZstdFrameInfo) : Prop :=
  f.compressedOffset ≤ g.compressedOffset ∧ g.uncompressedOffset = f.uncompressedOffset + f.uncompressedSize

theorem head_framesAt (h : x∈(framesAt pos uncomp fs).head?) :
    pos≤x.compressedOffset ∧ x.uncompressedOffset=uncomp := by
  induction fs generalizing pos uncomp with
  | nil => simp [framesAt] at h
  | cons f fs ih =>
    cases f with
    | data bytes plain =>
      obtain rfl : _=x := by simpa [framesAt] using h
      exact ⟨le_rfl,rfl⟩
    | skippable kind payload =>
      have hx:=ih (by simpa [framesAt] using h)
      exact ⟨(Nat.le_add_right _ _).trans hx.1,hx.2⟩

theorem framesAt_chain (fs : List Frame) (pos uncomp : ℕ) : (framesAt pos uncomp fs).IsChain Follows := by
  induction fs generalizing pos uncomp with
  | nil => exact isChain_nil
  | cons f fs ih =>
    cases f with
    | data bytes plain =>
      rw [framesAt,isChain_cons]
      refine ⟨fun y hy => ?_,ih _ _⟩
      have hh:=head_framesAt hy
      exact ⟨(Nat.le_add_right _ _).trans hh.1,hh.2⟩
    | skippable kind payload => exact ih _ _

/-- Laid out one after the other, the spans start where the frames do. -/
theorem framesFrom_spanEntries (h : (f::frames).IsChain Follows) :
    framesFrom f.compressedOffset f.uncompressedOffset (spanEntries (f::frames))=spans (f::frames) := by
  induction frames generalizing f with
  | nil => rfl
  | cons g frames ih =>
    obtain ⟨⟨hle,hu⟩,hchain⟩:=isChain_cons_cons.mp h
    rw [spanEntries,framesFrom,Nat.add_sub_cancel' hle,←hu,ih hchain]
    rfl

theorem tryU32_eq {n : ℕ} (h : n<2^32) : tryU32 n=some n := if_pos h

theorem rebuildEntries_length {n : ℕ} {es : List (ℕ × ℕ)} (h : rebuildEntries n frames=some es) : es.length≤n := by
  induction n generalizing frames es with
  | zero =>
    rw [rebuildEntries] at h
    · cases h
      rfl
    · simp
  | succ n ih =>
    match frames with
    | [] =>
      cases h
      exact Nat.zero_le _
    | [f] =>
      cases h
      exact Nat.zero_le _
    | f::g::frames =>
      rw [rebuildEntries] at h
      cases he : rebuildEntry f g with
      | none => simp [he] at h
      | some e =>
        cases hes : rebuildEntries n (g::frames) with
        | none => simp [he,hes] at h
        | some es' =>
          simp only [he,hes,Option.some.injEq] at h
          subst h
          exact Nat.succ_le_succ (ih hes)

/-- The entries before a frame that a splice replaces by `y` are the spans up to it. -/
theorem rebuildEntries_eq {rest : List ZstdFrameInfo} (hchain : (kept++[y]).IsChain Follows)
    (hy : y.compressedOffset=x.compressedOffset) (hfit : ∀e∈spanEntries (kept++[y]), e.1<2^32 ∧ e.2<2^32) :
    ∃es,rebuildEntries kept.length (kept++x::rest)=some es ∧
      spanEntries (kept++[y])=es++[(y.compressedSize,y.uncompressedSize)] := by
  induction kept with
  | nil => exact ⟨[],by simp [rebuildEntries],rfl⟩
  | cons f kept ih =>
    -- the frame after `f`, in the old stream and in the new one
    obtain ⟨g,g',tail,tail',hold,hnew,hoff⟩ : ∃g g' tail tail',kept++x::rest=g::tail ∧
        kept++[y]=g'::tail' ∧ g'.compressedOffset=g.compressedOffset := by
      cases kept with
      | nil => exact ⟨x,y,rest,[],rfl,rfl,hy⟩
      | cons g kept => exact ⟨g,g,kept++x::rest,kept++[y],rfl,rfl,rfl⟩
    rw [cons_append,hnew] at hchain hfit
    obtain ⟨⟨hle,-⟩,hchain'⟩:=isChain_cons_cons.mp hchain
    obtain ⟨hc,hd⟩:=hfit _ mem_cons_self
    obtain ⟨es,hes,hspan⟩:=ih (hnew ▸ hchain') (fun e he => hfit e (mem_cons_of_mem _ (hnew ▸ he)))
    refine ⟨(g'.compressedOffset-f.compressedOffset,f.uncompressedSize)::es,?_,?_⟩
    · have hentry : rebuildEntry f g=some (g'.compressedOffset-f.compressedOffset,f.uncompressedSize) := by
        rw [rebuildEntry,←hoff,if_neg (by omega),tryU32_eq hc,tryU32_eq hd]
      rw [cons_append,hold,length_cons,rebuildEntries,hentry,←hold,hes]
    · rw [cons_append,hnew,spanEntries,←hnew,hspan,cons_append]

/-! ## Loading a built table -/

def encoded (entries : List (ℕ × ℕ)) : Bytes := entries.flatMap (fun f => le 4 f.1 ++ le 4 f.2)

theorem encoded_cons (e : ℕ × ℕ) (entries : List (ℕ × ℕ)) :
    encoded (e::entries)=[le 4 e.1,le 4 e.2,encoded entries].flatten := by
  simp [encoded]

theorem tableEntries_encoded (hfit : ∀e∈entries,e.1<2^32 ∧ e.2<2^32) :
    tableEntries entries.length 8 (encoded entries)=entries := by
  induction entries with
  | nil => rfl
  | cons e entries ih =>
    obtain ⟨hc,hd⟩:=hfit e mem_cons_self
    have hrest:=ih (fun e' he' => hfit e' (mem_cons_of_mem e he'))
    rw [tableEntries,length_cons,range_succ_eq_map,map_cons,map_map]
    refine congrArg₂ List.cons ?_ ?_
    · rw [encoded_cons,slice_flatten 0 (by rfl) (by rfl) (by rfl),slice_flatten 1 (by rfl) (by rfl) (by rfl),
        ofLe_le_of_lt (by omega),ofLe_le_of_lt (by omega)]
    · rw [tableEntries] at hrest
      refine (map_congr_left fun k _ => ?_).trans hrest
      have hcons : encoded (e::entries)=(le 4 e.1++le 4 e.2)++encoded entries:=rfl
      have h1:=@slice_append_right (le 4 e.1++le 4 e.2) (encoded entries) ((k+1)*8) 4 (k*8) (by simp; omega)
      have h2:=@slice_append_right (le 4 e.1++le 4 e.2) (encoded entries) ((k+1)*8+4) 4 (k*8+4)
        (by simp; omega)
      simp only [Function.comp_apply,hcons,h1,h2]

theorem length_encoded (entries : List (ℕ × ℕ)) : (encoded entries).length=8*entries.length := by
  induction entries with
  | nil => rfl
  | cons e entries ih =>
    simp [encoded_cons]
    omega

theorem length_tablePayload (entries : List (ℕ × ℕ)) : (tablePayload entries).length=8*entries.length+9 := by
  rw [tablePayload,←encoded,length_append,length_encoded]
  simp

theorem length_build (entries : List (ℕ × ℕ)) : (buildSeekTableSkippable entries).length=8*entries.length+17 := by
  rw [buildSeekTableSkippable_eq,Frame.bytes]
  simp only [length_append,length_le,length_tablePayload]
  omega

theorem readSeekTable_build (hmagic : ∃rest,file=zstdMagic++rest)
    (hfit : ∀e∈entries,e.1<2^32 ∧ e.2<2^32) (hlen : 8*entries.length+9<2^32) :
    readSeekTable (file++buildSeekTableSkippable entries) = .ok (entries,8*entries.length+17) := by
  have hbuild:=length_build entries
  have htake : (file++buildSeekTableSkippable entries).take 4=zstdMagic := by
    obtain ⟨rest,rfl⟩:=hmagic
    simp [zstdMagic]
  have hframe : (file++buildSeekTableSkippable entries).drop
      ((file++buildSeekTableSkippable entries).length-(8*entries.length+17))=buildSeekTableSkippable entries := by
    apply drop_left'
    rw [length_append]
    omega
  -- the fields of the frame's header and of the footer
  have hfields : buildSeekTableSkippable entries=[le 4 seekTableSkippableMagic,le 4 (tablePayload entries).length,
      encoded entries,le 4 entries.length,[0],le 4 seekableMagic].flatten := by
    simp [buildSeekTableSkippable,tablePayload,encoded]
  have hfooter : (file++buildSeekTableSkippable entries).drop
      ((file++buildSeekTableSkippable entries).length-seekTableFooterSize) =
        [le 4 entries.length,[0],le 4 seekableMagic].flatten := by
    have hsplit : file++buildSeekTableSkippable entries =
        (file++[le 4 seekTableSkippableMagic,le 4 (tablePayload entries).length,encoded entries].flatten) ++
          [le 4 entries.length,[0],le 4 seekableMagic].flatten := by
      simp [hfields]
    rw [hsplit]
    apply drop_left'
    simp [seekTableFooterSize]
    omega
  have hskip : slice (buildSeekTableSkippable entries) 0 4=le 4 seekTableSkippableMagic := by
    rw [hfields]
    exact slice_flatten 0 rfl rfl rfl
  have hsize : slice (buildSeekTableSkippable entries) 4 4=le 4 (tablePayload entries).length := by
    rw [hfields]
    exact slice_flatten 1 rfl rfl rfl
  have hbody : slice (buildSeekTableSkippable entries) skippableHeaderSize (8*entries.length)=encoded entries := by
    rw [hfields]
    exact slice_flatten 2 rfl rfl (length_encoded entries).symm
  have hnum : slice [le 4 entries.length,[0],le 4 seekableMagic].flatten 0 4=le 4 entries.length :=
    slice_flatten 0 rfl rfl rfl
  have hdesc : slice [le 4 entries.length,[0],le 4 seekableMagic].flatten 4 1=[0]:=slice_flatten 1 rfl rfl rfl
  have hmag : slice [le 4 entries.length,[0],le 4 seekableMagic].flatten 5 4=le 4 seekableMagic :=
    slice_flatten 2 rfl rfl rfl
  have hcount : ofLe (le 4 entries.length)=entries.length:=ofLe_le_of_lt (by omega)
  have hplen : ofLe (le 4 (tablePayload entries).length)=8*entries.length+9 := by
    rw [length_tablePayload]
    exact ofLe_le_of_lt (by omega)
  have hsm : ofLe (le 4 seekableMagic)=seekableMagic:=ofLe_le_of_lt (by rw [seekableMagic]; omega)
  have hstm : ofLe (le 4 seekTableSkippableMagic)=seekTableSkippableMagic :=
    ofLe_le_of_lt (by rw [seekTableSkippableMagic]; omega)
  have hzero : ofLe ([0] : Bytes)=0:=rfl
  have hstride : (if (0 : ℕ) / 128 % 2=1 then 12 else 8)=8:=rfl
  have htotal : 8*entries.length+seekTableFooterSize+skippableHeaderSize=8*entries.length+17:=rfl
  rw [readSeekTable,htake,hfooter]
  simp only [hnum,hdesc,hmag,hzero,hcount,hsm,hstride,htotal,hframe,hskip,hsize,hbody,hplen,hstm,
    tableEntries_encoded hfit]
  rw [length_append,hbuild,if_neg (by omega),if_neg (by simp),
    if_neg (by rw [seekTableFooterSize,skippableHeaderSize]; omega),if_neg (by simp),if_neg (by simp),
    if_neg (by omega),if_neg (by simp),if_neg (by rw [skippableHeaderSize]; omega)]

theorem acceptedEntries_build (hmagic : ∃rest,file=zstdMagic++rest)
    (hfit : ∀e∈entries,e.1<2^32 ∧ e.2<2^32) (hlen : 8*entries.length+9<2^32) (hne : entries≠[])
    (hsum : (entries.map Prod.fst).sum≤file.length) :
    acceptedEntries (file++buildSeekTableSkippable entries) = .ok entries := by
  rw [acceptedEntries,readSeekTable_build hmagic hfit hlen]
  dsimp only
  rw [length_append,length_build,if_neg (by omega),if_neg hne]

/-! ## The new stream -/

/-- The spans add up to what lies between the first frame's start and the last one's end. -/
theorem sum_spanEntries (h : (f::frames).IsChain Follows) (hlast : f::frames=kept++[y]) :
    ((spanEntries (f::frames)).map Prod.fst).sum+f.compressedOffset=y.compressedOffset+y.compressedSize ∧
      ((spanEntries (f::frames)).map Prod.snd).sum+f.uncompressedOffset =
        y.uncompressedOffset+y.uncompressedSize := by
  induction frames generalizing f kept with
  | nil =>
    obtain rfl : f=y := by
      cases kept with
      | nil => simpa using hlast
      | cons g kept => simp at hlast
    simp only [spanEntries,map_cons,map_nil,sum_cons,sum_nil]
    omega
  | cons g frames ih =>
    obtain ⟨⟨hle,hu⟩,hchain⟩:=isChain_cons_cons.mp h
    obtain ⟨k,kept,rfl⟩ : ∃k kept',kept=k::kept' := by
      cases kept with
      | nil => simp at hlast
      | cons k kept => exact ⟨k,kept,rfl⟩
    obtain ⟨h1,h2⟩:=ih hchain (List.cons.inj hlast).2
    simp only [spanEntries,map_cons,sum_cons] at h1 h2 ⊢
    omega

theorem spans_of_data (h : ∀f∈fs,∃bytes plain,f = .data bytes plain) (pos uncomp : ℕ) :
    spans (framesAt pos uncomp fs)=(framesAt pos uncomp fs).map ZstdFrameInfo.toFrameInfo := by
  induction fs generalizing pos uncomp with
  | nil => rfl
  | cons f fs ih =>
    obtain ⟨bytes,plain,rfl⟩:=h f mem_cons_self
    have hrest:=ih (fun g hg => h g (mem_cons_of_mem _ hg)) (pos+bytes.length) (uncomp+plain.length)
    cases fs with
    | nil => rfl
    | cons g fs =>
      obtain ⟨bytes',plain',rfl⟩:=h g (mem_cons_of_mem _ mem_cons_self)
      rw [framesAt] at hrest ⊢
      rw [framesAt,spans,hrest,Nat.add_sub_cancel_left]
      rfl

theorem data_of_skippablesLast {post : List Frame} (h : SkippablesLast (pre ++ .data bytes plain::post)) : ∀f∈pre,∃bytes plain,f = .data bytes plain := by
  induction pre with
  | nil => simp
  | cons f pre ih =>
    cases f with
    | data bytes' plain' =>
      intro g hg
      rcases mem_cons.mp hg with rfl | hg
      · exact ⟨bytes',plain',rfl⟩
      · exact ih h g hg
    | skippable kind payload =>
      have hnil : dataSizes (pre ++ .data bytes plain::post)=[]:=h
      rw [←framesAt_eq_nil_iff 0 0,framesAt_append] at hnil
      simp [framesAt] at hnil

theorem maybeRebuildSeekTable_length {map : ZstdFrameMap} {c d : ℕ} {t : Bytes}
    (h : maybeRebuildSeekTable map i c d=some t) :
    ∃entries,t=buildSeekTableSkippable entries ∧ entries.length ≤ i+1 := by
  rw [maybeRebuildSeekTable] at h
  split_ifs at h
  split at h
  · rename_i entries c' d' hes _ _
    cases h
    exact ⟨_,rfl,by simpa using rebuildEntries_length hes⟩
  · cases h

/-- A stream whose first data frame is at its start starts with the magic of data frames. -/
theorem magic_of_head (hwf : ∀f∈pre,f.WellFormed lib) (hb : lib.decode bytes=some plain)
    (h0 : ∀x∈(framesAt 0 0 (pre++[.data bytes plain])).head?, x.compressedOffset=0) :
    ∃rest,stream pre++bytes=zstdMagic++rest := by
  cases pre with
  | nil => exact lib.magic bytes plain hb
  | cons f pre =>
    cases f with
    | data bytes' plain' =>
      obtain ⟨rest,hrest⟩:=lib.magic bytes' plain' (hwf _ mem_cons_self)
      refine ⟨rest++(stream pre++bytes),?_⟩
      have hstream : stream (.data bytes' plain'::pre)=bytes'++stream pre:=rfl
      rw [hstream,hrest]
      simp
    | skippable kind payload =>
      have hne : framesAt 0 0 (.skippable kind payload::pre++[.data bytes plain])≠[] := by
        rw [framesAt_append]
        simp [framesAt]
      obtain ⟨x,l,hl⟩:=exists_cons_of_ne_nil hne
      have hx : x∈(framesAt 0 0 (.skippable kind payload::pre++[.data bytes plain])).head? := by rw [hl]; rfl
      have hzero:=h0 x hx
      rw [cons_append,framesAt] at hx
      have hle:=(head_framesAt hx).1
      simp [Frame.bytes] at hle
      omega

/-- What a splice at `frame`, the frame `i`, leaves: `before` and `suffix` decoded from the old stream, `new` in place
of `suffix`. -/
structure Spliced (lib : ZstdLib) (fs : List Frame) (map : ZstdFrameMap) (i : ℕ) (frame : ZstdFrameInfo) (out : Bytes)
    (stats : SpliceStats) (before suffix new : Bytes) (outMap : ZstdFrameMap) : Prop where
  kept : frame.compressedOffset ≤ out.length ∧ out.take frame.compressedOffset = (stream fs).take frame.compressedOffset
  before_eq : decodeFrames lib (stream fs) (map.frames.take i) = .ok before
  suffix_eq : decodeZstdFramesTo lib (stream fs) map i = .ok suffix
  walk : scanZstdFramesWalk lib out = .ok outMap
  decoded : decodeZstdFramesTo lib out outMap 0 = .ok (before ++ new)
  table : map.seekTable ≠ none → (∀ x ∈ map.frames.head?, x.compressedOffset = 0) →
    (∀ e ∈ spanEntries outMap.frames, e.1 < 2 ^ 32 ∧ e.2 < 2 ^ 32) →
      stats.wroteSeekTable = true ∧ buildSeekTableSkippable (spanEntries outMap.frames) <:+ out ∧
        tryLoadSeekTableFromReader out = .ok (spans outMap.frames,(before ++ new).length) ∧
          (SkippablesLast fs → spans outMap.frames = outMap.frames.map ZstdFrameInfo.toFrameInfo)

/-- The rebuilt table, if there is one, as the rest of a stream. -/
theorem exists_table_frames (lib : ZstdLib) (map : ZstdFrameMap) (hcount : map.seekTable≠none → 8*(i+1)+9<2^32) (c d : ℕ) :
    ∃tail : List Frame,(∀f∈tail,f.WellFormed lib) ∧ stream tail=(maybeRebuildSeekTable map i c d).getD [] ∧
      (∀pos uncomp,framesAt pos uncomp tail=[]) ∧ content tail=[] := by
  cases h : maybeRebuildSeekTable map i c d with
  | none => exact ⟨[],by simp,rfl,fun _ _ => rfl,rfl⟩
  | some t =>
    have hcount:=hcount (fun hnone => by rw [maybeRebuildSeekTable,if_pos hnone] at h; cases h)
    obtain ⟨entries,rfl,hlen⟩:=maybeRebuildSeekTable_length h
    refine ⟨[.skippable 0xE (tablePayload entries)],?_,?_,fun _ _ => rfl,rfl⟩
    · intro f hf
      rw [mem_singleton.mp hf,Frame.WellFormed,length_tablePayload]
      omega
    · rw [buildSeekTableSkippable_eq,Option.getD_some,stream,flatMap_singleton]

section Splice

variable {pre post : List Frame} {bytes plain : Bytes} {map : ZstdFrameMap} {i : ℕ} {seekTable : Option (ℕ × ℕ)}

def newFrames (lib : ZstdLib) (pre : List Frame) (new : Bytes) : List ZstdFrameInfo :=
  framesAt 0 0 (pre ++ [.data (lib.encode new) new])

theorem newFrames_eq (lib : ZstdLib) (pre : List Frame) (new : Bytes) : newFrames lib pre new =
      framesAt 0 0 pre++[⟨(stream pre).length,(content pre).length,(lib.encode new).length,new.length⟩] := by
  rw [newFrames,framesAt_append]
  simp [framesAt]

theorem rebuilt_table (hi : (framesAt 0 0 pre).length=i)
    (hmap : map={ frames := framesAt 0 0 (pre ++ .data bytes plain::post), seekTable }) (ht : seekTable≠none)
    (new : Bytes) (hfit : ∀e∈spanEntries (newFrames lib pre new),e.1<2^32 ∧ e.2<2^32) :
    maybeRebuildSeekTable map i (lib.encode new).length new.length =
      some (buildSeekTableSkippable (spanEntries (newFrames lib pre new))) := by
  have hchain : (newFrames lib pre new).IsChain Follows:=framesAt_chain _ _ _
  have hframes : map.frames=framesAt 0 0 pre++⟨(stream pre).length,(content pre).length,bytes.length,plain.length⟩ ::
      framesAt ((stream pre).length+bytes.length) ((content pre).length+plain.length) post := by
    rw [hmap,framesAt_append]
    simp [framesAt]
  rw [newFrames_eq] at hchain hfit ⊢
  obtain ⟨es,hes,hspan⟩:=rebuildEntries_eq
    (x := ⟨(stream pre).length,(content pre).length,bytes.length,plain.length⟩) hchain rfl hfit
  rw [hspan] at hfit ⊢
  obtain ⟨hc,hd⟩:=hfit _ (mem_append_right _ mem_cons_self)
  have hseek : map.seekTable≠none := by rw [hmap]; exact ht
  rw [maybeRebuildSeekTable,if_neg hseek,hframes,←hi,hes,tryU32_eq hc,tryU32_eq hd]

theorem load_rebuilt_table (hwf : ∀f∈pre,f.WellFormed lib) (hi : (framesAt 0 0 pre).length=i)
    (hcount : 8*(i+1)+9<2^32) (new : Bytes) (h0 : ∀x∈(newFrames lib pre new).head?,x.compressedOffset=0)
    (hfit : ∀e∈spanEntries (newFrames lib pre new),e.1<2^32 ∧ e.2<2^32) :
    tryLoadSeekTableFromReader ((stream pre++lib.encode new)++buildSeekTableSkippable (spanEntries (newFrames lib pre new))) =
      .ok (spans (newFrames lib pre new),(content pre++new).length) := by
  have hchain : (newFrames lib pre new).IsChain Follows:=framesAt_chain _ _ _
  have hmagic:=magic_of_head hwf (lib.decode_encode new) h0
  obtain ⟨f,frames,hcons⟩ : ∃f frames,newFrames lib pre new=f::frames :=
    exists_cons_of_ne_nil (by rw [newFrames_eq]; simp)
  have hlast:=newFrames_eq lib pre new
  have hfu : f.uncompressedOffset=0 := by
    have hmem : f∈(framesAt 0 0 (pre++[.data (lib.encode new) new])).head? := by
      rw [←newFrames,hcons]
      rfl
    exact (head_framesAt hmem).2
  have hlen : (spanEntries (newFrames lib pre new)).length=i+1 := by
    rw [length_spanEntries,newFrames_eq,length_append,hi]
    rfl
  rw [hcons] at hchain hlast hlen hfit h0 ⊢
  have hfc:=h0 f rfl
  obtain ⟨hsum,hsum'⟩:=sum_spanEntries hchain hlast
  have haccept:=acceptedEntries_build hmagic hfit (by omega) (by intro h; rw [h] at hlen; simp at hlen)
    (by rw [length_append]; dsimp only at hsum; omega)
  rw [tryLoadSeekTableFromReader,haccept,Except.map]
  have hframes:=framesFrom_spanEntries hchain
  rw [hfc,hfu] at hframes
  rw [hframes]
  rw [length_append,←hsum',hfu,add_zero]

theorem spliced_stream (hwf : ∀f∈pre ++ .data bytes plain::post,f.WellFormed lib)
    (hi : (framesAt 0 0 pre).length=i) (hcount : map.seekTable≠none → 8*(i+1)+9<2^32)
    (hmap : map={ frames := framesAt 0 0 (pre ++ .data bytes plain::post), seekTable }) {frame : ZstdFrameInfo}
    (hframe : frame=⟨(stream pre).length,(content pre).length,bytes.length,plain.length⟩) (new : Bytes) :
    ∃outMap,Spliced lib (pre ++ .data bytes plain::post) map i frame
      (stream pre++(lib.encode new++(maybeRebuildSeekTable map i (lib.encode new).length new.length).getD []))
      { prefixCompressedBytes := frame.compressedOffset, newFrameCompressedSize := (lib.encode new).length,
        newFrameUncompressedSize := new.length,
        wroteSeekTable := (maybeRebuildSeekTable map i (lib.encode new).length new.length).isSome }
      (content pre) (content (.data bytes plain::post)) new outMap := by
  have hwfpre : ∀f∈pre,f.WellFormed lib:=fun f hf => hwf f (mem_append_left _ hf)
  have hwfpost : ∀f ∈ .data bytes plain::post,f.WellFormed lib:=fun f hf => hwf f (mem_append_right _ hf)
  have hframes : map.frames=framesAt 0 0 pre ++
      framesAt (stream pre).length (content pre).length (.data bytes plain::post) := by
    rw [hmap,framesAt_append,zero_add,zero_add]
  obtain ⟨tail,hwftail,htail,htframes,htcontent⟩:=exists_table_frames lib map hcount (lib.encode new).length new.length
  -- the new stream
  have hwfnew : ∀f∈pre ++ .data (lib.encode new) new::tail,f.WellFormed lib := by
    intro f hf
    rcases mem_append.mp hf with hf | hf
    · exact hwfpre f hf
    · rcases mem_cons.mp hf with rfl | hf
      · exact lib.decode_encode new
      · exact hwftail f hf
  have hout : stream pre++(lib.encode new++(maybeRebuildSeekTable map i (lib.encode new).length new.length).getD []) =
      stream (pre ++ .data (lib.encode new) new::tail) := by
    rw [stream_append,←htail]
    rfl
  have hnew : framesAt 0 0 (pre ++ .data (lib.encode new) new::tail)=newFrames lib pre new := by
    rw [newFrames_eq,framesAt_append]
    simp [framesAt,htframes]
  have hcontent : content (pre ++ .data (lib.encode new) new::tail)=content pre++new := by
    rw [content_append]
    simp only [content,flatMap_cons,Frame.plain] at htcontent ⊢
    rw [htcontent,append_nil]
  refine ⟨{ frames := newFrames lib pre new, seekTable := lastTable 0 (pre ++ .data (lib.encode new) new::tail) none },
    ?_,?_,?_,?_,?_,fun ht h0 hfit => ?_⟩
  · rw [hframe]
    rw [stream_append,take_left,take_left,length_append]
    exact ⟨Nat.le_add_right _ _,rfl⟩
  · rw [hframes,←hi,take_left,stream_append]
    exact decodeFrames_framesAt hwfpre [] _ 0
  · have hlt : ¬map.frames.length < i := by
      rw [hframes,length_append]
      omega
    have hdec:=decodeFrames_framesAt hwfpost (stream pre) [] (content pre).length
    rw [append_nil] at hdec
    rw [decodeZstdFramesTo,if_neg hlt,hframes,←hi,drop_left,stream_append,hdec]
  · rw [hout,scanZstdFramesWalk_stream hwfnew,hnew,if_neg (by rw [newFrames_eq]; simp)]
  · have hdec:=decodeFrames_framesAt hwfnew [] [] 0
    rw [append_nil,nil_append,length_nil,hnew,hcontent] at hdec
    rw [decodeZstdFramesTo,if_neg (Nat.not_lt_zero _),drop_zero,hout,hdec]
  · have htable:=rebuilt_table hi hmap (by rw [hmap] at ht; exact ht) new hfit
    have h0' : ∀x∈(newFrames lib pre new).head?,x.compressedOffset=0 := by
      rw [hframes] at h0
      rw [newFrames_eq]
      cases hpre : framesAt 0 0 pre with
      | nil =>
        rw [hpre] at h0
        intro x hx
        obtain rfl : _=x := by simpa using hx
        exact h0 ⟨(stream pre).length,(content pre).length,bytes.length,plain.length⟩ rfl
      | cons y frames =>
        rw [hpre] at h0
        exact h0
    rw [htable,←append_assoc]
    refine ⟨rfl,suffix_append _ _,load_rebuilt_table hwfpre hi (hcount ht) new h0' hfit,fun hlast => ?_⟩
    apply spans_of_data
    intro f hf
    rcases mem_append.mp hf with hf | hf
    · exact data_of_skippablesLast hlast f hf
    · exact ⟨_,_,mem_singleton.mp hf⟩

end Splice

/-- A splice keeps what precedes the frame, decodes to what preceded it and the transformed rest, and its table loads
to the frames of the new stream. -/
theorem splice_correct (lib : ZstdLib) (fs : List Frame) (hwf : ∀ f ∈ fs, f.WellFormed lib) (map : ZstdFrameMap)
    (hmap : scanZstdFramesWalk lib (stream fs) = .ok map) (i : ℕ)
    (hcount : map.seekTable ≠ none → 8 * (i + 1) + 9 < 2 ^ 32) (frame : ZstdFrameInfo)
    (hframe : map.frames[i]? = some frame) (transform : Bytes → ℕ → Except String Bytes)
    (out : Bytes) (stats : SpliceStats) (h : spliceZstdLastFrames lib (stream fs) map i transform = .ok (out,stats)) :
    ∃ before suffix new outMap, transform suffix frame.uncompressedOffset = .ok new ∧
      Spliced lib fs map i frame out stats before suffix new outMap := by
  rw [scanZstdFramesWalk_stream hwf] at hmap
  split_ifs at hmap
  have hmap' := (Except.ok.inj hmap).symm
  have hlt : i < (framesAt 0 0 fs).length := by
    have := (List.getElem?_eq_some_iff.mp hframe).1
    rwa [hmap'] at this
  obtain ⟨pre,bytes,plain,post,rfl,hi⟩ := exists_split hlt
  have hfr : frame = ⟨(stream pre).length,(content pre).length,bytes.length,plain.length⟩ := by
    rw [hmap',framesAt_append,getElem?_append_right hi.le,hi] at hframe
    simpa [framesAt] using hframe.symm
  have hsuffix : decodeZstdFramesTo lib (stream (pre ++ .data bytes plain :: post)) map i =
      .ok (content (.data bytes plain :: post)) := by
    obtain ⟨outMap,hspliced⟩ := spliced_stream hwf hi hcount hmap' hfr []
    exact hspliced.suffix_eq
  rw [spliceZstdLastFrames,hframe] at h
  dsimp only at h
  have hle : ¬(stream (pre ++ .data bytes plain :: post)).length < frame.compressedOffset := by
    rw [hfr,stream_append,length_append]
    exact not_lt.mpr (Nat.le_add_right _ _)
  rw [if_neg hle,writeZstdSpliceSuffix,hframe] at h
  rw [hsuffix] at h
  dsimp only at h
  cases hnew : transform (content (.data bytes plain :: post)) frame.uncompressedOffset with
  | error e => simp [hnew,Except.map] at h
  | ok new =>
    obtain ⟨outMap,hspliced⟩ := spliced_stream hwf hi hcount hmap' hfr new
    refine ⟨content pre,content (.data bytes plain :: post),new,outMap,hnew,?_⟩
    have htake : (stream (pre ++ .data bytes plain :: post)).take frame.compressedOffset = stream pre := by
      rw [hfr,stream_append,take_left]
    rw [hnew] at h
    rw [htake] at h
    cases h
    exact hspliced

def spelled (plain : Bytes) : Frame := .data (spellingLib.encode plain) plain

/-- Two data frames with `gap` between them, and a table. -/
def twoFrames (gap : List Frame) : List Frame :=
  spelled [7] :: gap ++ [spelled [8],.skippable ⟨0xE,by decide⟩ (tablePayload [(7,1),(7,1)])]

theorem wellFormed_twoFrames {gap : List Frame} (hgap : ∀f∈gap,f.WellFormed spellingLib) :
    ∀f∈twoFrames gap,f.WellFormed spellingLib := by
  intro f hf
  simp only [twoFrames,cons_append,mem_cons,mem_append,not_mem_nil,or_false] at hf
  rcases hf with rfl | hf | rfl | rfl
  · exact spellingLib.decode_encode [7]
  · exact hgap f hf
  · exact spellingLib.decode_encode [8]
  · simp [Frame.WellFormed,tablePayload]

theorem splice_correct_two_frames :
    ∃ before suffix new outMap, (Except.ok [9,9] : Except String Bytes) = .ok new ∧
      Spliced spellingLib (twoFrames []) ⟨[⟨0,0,7,1⟩,⟨7,1,7,1⟩],some (14,47)⟩ 1 ⟨7,1,7,1⟩
        (stream [spelled [7],spelled [9,9],.skippable 0xE (tablePayload [(7,1),(9,2)])]) ⟨7,9,2,true⟩
        before suffix new outMap :=
  splice_correct spellingLib (twoFrames []) (wellFormed_twoFrames (by simp))
    ⟨[⟨0,0,7,1⟩,⟨7,1,7,1⟩],some (14,47)⟩ (by decide +kernel) 1 (fun _ => by decide) ⟨7,1,7,1⟩ rfl (fun _ _ => .ok [9,9])
    _ _ (by decide +kernel)

/-- A skippable frame between two data frames: the rebuilt table counts it to the first one, the walk does not. -/
theorem spliced_table_counts_gap :
    (∀ f ∈ twoFrames [.skippable 3 [0]], f.WellFormed spellingLib) ∧
      ∃ map out stats outMap frames total, scanZstdFramesWalk spellingLib (stream (twoFrames [.skippable 3 [0]])) = .ok map ∧
        map.seekTable ≠ none ∧
        spliceZstdLastFrames spellingLib (stream (twoFrames [.skippable 3 [0]])) map 1 (fun s _ => .ok s) = .ok (out,stats) ∧
        scanZstdFramesWalk spellingLib out = .ok outMap ∧ tryLoadSeekTableFromReader out = .ok (frames,total) ∧
        frames ≠ outMap.frames.map ZstdFrameInfo.toFrameInfo := by
  refine ⟨wellFormed_twoFrames (by simp [Frame.WellFormed]),⟨[⟨0,0,7,1⟩,⟨16,1,7,1⟩],some (23,56)⟩,
    stream [spelled [7],.skippable 3 [0],spelled [8],.skippable 0xE (tablePayload [(16,1),(7,1)])],⟨16,7,1,true⟩,
    ⟨[⟨0,0,7,1⟩,⟨16,1,7,1⟩],some (23,56)⟩,[⟨0,0,some 16,some 1⟩,⟨16,1,some 7,some 1⟩],2,?_,?_,?_,?_,?_,?_⟩
  all_goals decide +kernel

end Ratarmount.Zstd
