import Mathlib.Data.List.TakeWhile
import Ratarmount.ZstdFrameReader
import Ratarmount.ZstdSeekTable

/-!
# The seekable zstd reader as a byte array

Whatever the background decodes do, the frame at hand is a decoded frame of the
map or nothing, so that a read delivers the bytes of the decoded content if the map
tells where they are. The map that a walk over the file gives does.
-/

namespace Ratarmount.Zstd

open Seekable List Option
open SeekableZstd (Accurate)

variable {z : SeekableZstd}

variable {i p : ℕ} {r : Reader}

/-! ## The frame map -/

theorem take_length_mono {j : ℕ} (h : i≤j) :
    ((z.frames.take i).map z.decoded).flatten.length≤((z.frames.take j).map z.decoded).flatten.length := by
  obtain ⟨t,ht⟩:=(take_prefix_take_left h).map _
  rw [←ht,flatten_append,length_append]
  omega

theorem getElem?_takeWhile_length {α : Type} {q : α → Bool} {l : List α} {x : α}
    (h : l[(l.takeWhile q).length]?=some x) : q x=false := by
  induction l with
  | nil => simp at h
  | cons y l ih =>
    by_cases hy : q y=true
    · rw [takeWhile_cons_of_pos hy] at h
      exact ih h
    · rw [takeWhile_cons_of_neg hy,length_nil,getElem?_cons_zero,Option.some.injEq] at h
      rw [←h]
      simpa using hy

section Map

variable [Accurate z]

theorem startOf_eq (h : i<z.frames.length) : startOf z i=((z.frames.take i).map z.decoded).flatten.length := by
  rw [startOf,getElem?_eq_getElem h,map_some,getD_some,Accurate.offsets i h]

theorem take_succ_length (h : i<z.frames.length) :
    ((z.frames.take (i+1)).map z.decoded).flatten.length=startOf z i+(decodedAt z i).length := by
  rw [startOf_eq h,←take_append_getElem h,map_append]
  simp [decodedAt,getElem?_eq_getElem h]

theorem frameSize_eq (h : i<z.frames.length) : z.frameSize i=(decodedAt z i).length := by
  have hnext : ((z.frames[i+1]?).map FrameInfo.uncompressedOffset).getD z.size =
      ((z.frames.take (i+1)).map z.decoded).flatten.length := by
    rcases Nat.lt_or_ge (i+1) z.frames.length with hlt | hge
    · rw [getElem?_eq_getElem hlt,map_some,getD_some,Accurate.offsets (i+1) hlt]
    · rw [getElem?_eq_none hge,map_none,getD_none,Accurate.size_eq (z:=z),take_of_length_le hge]
  have hstart : ((z.frames[i]?).map FrameInfo.uncompressedOffset).getD 0=startOf z i:=rfl
  rw [SeekableZstd.frameSize,hnext,take_succ_length h]
  omega

def Covers (z : SeekableZstd) (i p : ℕ) : Prop :=
  i < z.frames.length ∧ startOf z i ≤ p ∧ p < startOf z i + (decodedAt z i).length

theorem covers_unique {j : ℕ} (hi : Covers z i p) (hj : Covers z j p) : i=j := by
  have hle {i j : ℕ} (hi : Covers z i p) (hj : Covers z j p) : ¬i<j := by
    intro hlt
    have hmono : ((z.frames.take (i+1)).map z.decoded).flatten.length≤_:=take_length_mono hlt
    rw [take_succ_length hi.1,←startOf_eq hj.1] at hmono
    have h1:=hi.2.2
    have h2:=hj.2.1
    omega
  have h1:=hle hi hj
  have h2:=hle hj hi
  omega

theorem frameAt_covers (hp : p<z.size) : Covers z (frameAt z p) p := by
  have hne : 0<z.frames.length := by
    by_contra h
    have hnil : z.frames=[]:=eq_nil_of_length_eq_zero (by omega)
    rw [Accurate.size_eq (z:=z),hnil] at hp
    simp at hp
  generalize hk : (z.frames.takeWhile (fun f => f.uncompressedOffset≤p)).length=k
  have hle:=hk ▸ (takeWhile_sublist _).length_le
  have hpos : 0<k := by
    by_contra h0
    have hz : k=0 := by omega
    have hfirst : z.frames[(z.frames.takeWhile (fun f => f.uncompressedOffset≤p)).length]?=some z.frames[0] := by
      rw [hk,hz,getElem?_eq_getElem hne]
    have hno:=getElem?_takeWhile_length hfirst
    have hoff:=Accurate.offsets 0 hne
    simp at hno hoff
    omega
  have hat : frameAt z p=k-1 := by rw [frameAt,hk]
  have hlt : k-1<z.frames.length := by omega
  have hstart : startOf z (k-1)≤p := by
    have hmem : z.frames[k-1]∈z.frames.takeWhile (fun f => f.uncompressedOffset≤p) := by
      have hpre := takeWhile_prefix (l := z.frames) (fun f => f.uncompressedOffset≤p)
      rw [←hpre.getElem (by omega)]
      exact getElem_mem _
    have hq:=mem_takeWhile_imp hmem
    rw [startOf,getElem?_eq_getElem hlt]
    simpa using hq
  rw [hat]
  refine ⟨hlt,hstart,?_⟩
  rw [←take_succ_length hlt,Nat.sub_add_cancel hpos]
  rcases Nat.lt_or_ge k z.frames.length with hkl | hkl
  · have hnext : z.frames[(z.frames.takeWhile (fun f => f.uncompressedOffset≤p)).length]?=some z.frames[k] := by
      rw [hk,getElem?_eq_getElem hkl]
    have hno:=getElem?_takeWhile_length hnext
    rw [←Accurate.offsets k hkl]
    simpa using hno
  · rwa [take_of_length_le hkl,←Accurate.size_eq (z:=z)]

/-- What the content has where a frame lies is the frame. -/
theorem take_drop_content {k : ℕ} (h : Covers z i p) (hk : p+k ≤ startOf z i+(decodedAt z i).length) :
    (z.content.drop p).take k=((decodedAt z i).drop (p-startOf z i)).take k := by
  obtain ⟨hi,hs,-⟩:=h
  have hsplit : z.content=((z.frames.take i).map z.decoded).flatten ++
      (decodedAt z i++((z.frames.drop (i+1)).map z.decoded).flatten) := by
    have hfr : z.frames=z.frames.take i++(z.frames[i]::z.frames.drop (i+1)) := by
      rw [←drop_eq_getElem_cons hi,take_append_drop]
    have hd : decodedAt z i=z.decoded z.frames[i] := by
      rw [decodedAt,getElem?_eq_getElem hi,map_some,getD_some]
    rw [SeekableZstd.content,hd]
    nth_rewrite 1 [hfr]
    rw [map_append,map_cons,flatten_append,flatten_cons]
  have hp : p=((z.frames.take i).map z.decoded).flatten.length+(p-startOf z i) := by
    rw [←startOf_eq hi]
    omega
  rw [hsplit,hp,drop_append,←startOf_eq hi,drop_eq_nil_of_le (by rw [←startOf_eq hi]; omega),
    nil_append,Nat.add_sub_cancel_left,drop_append_of_le_length (by omega),
    take_append_of_le_length (by rw [length_drop]; omega)]

end Map

/-! ## The frame at hand -/

structure Inv (z : SeekableZstd) (r : Reader) : Prop where
  frame : ∀ i, r.frameIdx = some i → i < z.frames.length ∧ r.frameStart = startOf z i
  spool : ∀ i d, r.frameIdx = some i → r.frameSpool = some d → d = decodedAt z i
  memory : ∀ i, r.frameIdx = some i → r.frameSpool = none → r.frameData = [] ∨ r.frameData = decodedAt z i
  unspooled : z.budgetEnabled = false → r.frameSpool = none

/-- The reader holds the frame that covers `p`. -/
structure Ready (z : SeekableZstd) (r : Reader) (i p : ℕ) : Prop where
  idx : r.frameIdx = some i
  start : r.frameStart = startOf z i
  covers : Covers z i p
  bytes : r.frameSpool.getD r.frameData = decodedAt z i

theorem prefetchLoop_eq (granted : ℕ → Bool) (budget n next : ℕ) (r : Reader) :
    ∃pending,prefetchLoop z granted budget n next r={ r with pending } := by
  induction n generalizing next r with
  | zero => exact ⟨r.pending,rfl⟩
  | succ n ih =>
    rw [prefetchLoop]
    split_ifs
    · exact ⟨r.pending,rfl⟩
    · exact ⟨r.pending,rfl⟩
    · exact ⟨r.pending,rfl⟩
    · exact ih (next+1) { r with pending := r.pending++[next] }

theorem prefetch_eq (cancelled : Bool) (granted : ℕ → Bool) (r : Reader) :
    ∃pending progress,prefetch z cancelled granted r={ r with pending, progress } := by
  rw [prefetch]
  split_ifs
  · exact ⟨[],0,rfl⟩
  · exact ⟨r.pending,r.progress,rfl⟩
  · split
    · exact ⟨r.pending,r.progress,rfl⟩
    · obtain ⟨pending,h⟩:=prefetchLoop_eq granted (min z.options.readaheadBytes (64*1024*1024)) z.frames.length
        ((r.pending.getLast?.map (·+1)).getD (_+1)) r
      exact ⟨pending,r.progress,h⟩

/-- Neither a prefetch nor a cancellation touches the frame at hand. -/
theorem Inv.of_pending (h : Inv z r) (pending : List ℕ) (progress : ℕ) : Inv z { r with pending, progress } :=
  ⟨h.frame,h.spool,h.memory,h.unspooled⟩

theorem decodeFrame_eq_some {decoded data : List UInt8} {expected : ℕ} {ioOk : Bool}
    (h : decodeFrame decoded expected ioOk=some data) : data=decoded := by
  rw [decodeFrame] at h
  split_ifs at h with h1 h2
  cases h
  rw [take_of_length_le (by omega)]

theorem Inv.dropFrame (h : Inv z r) : Inv z (r.dropFrame z.budgetEnabled) := by
  refine ⟨h.frame,fun i d hi hd => ?_,fun _ _ _ => .inl rfl,fun hb => ?_⟩
  · dsimp only [Reader.dropFrame] at hd
    split_ifs at hd
    exact h.spool i d hi hd
  · simp [Reader.dropFrame,h.unspooled hb]

theorem takePending_eq (s : Schedule) (best : ℕ) (r : Reader) :
    ∃pending,(takePending z s best r).2={ r with pending } ∧
      ∀d,(takePending z s best r).1=some d → d=decodedAt z best := by
  rw [takePending]
  split_ifs
  · refine ⟨r.pending.tail,rfl,fun d hd => ?_⟩
    cases hj : s.job with
    | sent ioOk =>
      simp only [hj] at hd
      exact decodeFrame_eq_some hd
    | disconnected => simp [hj] at hd
  · exact ⟨r.pending,rfl,by simp⟩

/-- A prefetch leaves a frame at hand that was just put there. -/
theorem ready_prefetch {r : Reader} {i p : ℕ} (hi : r.frameIdx=some i) (hstart : r.frameStart=startOf z i)
    (hcov : Covers z i p) (hbytes : r.frameSpool.getD r.frameData=decodedAt z i)
    (hspool : z.budgetEnabled=false → r.frameSpool=none) (cancelled : Bool) (granted : ℕ → Bool) :
    Inv z (prefetch z cancelled granted r) ∧ (prefetch z cancelled granted r).pos=r.pos ∧
      Ready z (prefetch z cancelled granted r) i p := by
  obtain ⟨pending,progress,heq⟩:=prefetch_eq (z:=z) cancelled granted r
  rw [heq]
  have hinv : Inv z r := by
    refine ⟨fun j hj => ?_,fun j d hj hd => ?_,fun j hj hd => ?_,hspool⟩
    all_goals
      rw [hi,Option.some.injEq] at hj
      subst hj
    · exact ⟨hcov.1,hstart⟩
    · simpa [hd] using hbytes
    · exact .inr (by simpa [hd] using hbytes)
  exact ⟨hinv.of_pending pending progress,rfl,hi,hstart,hcov,hbytes⟩

variable [Accurate z]

theorem ready_of_cached (h : Inv z r) (hc : cached z r p=true) : ∃i,Ready z r i p := by
  simp only [cached,Bool.and_eq_true,decide_eq_true_eq] at hc
  obtain ⟨⟨hidx,hle⟩,hlt⟩:=hc
  obtain ⟨i,hi⟩:=isSome_iff_exists.mp hidx
  obtain ⟨hlen,hstart⟩:=h.frame i hi
  refine ⟨i,hi,hstart,?_,?_⟩
  · refine ⟨hlen,hstart ▸ hle,?_⟩
    rw [←hstart]
    cases hs : r.frameSpool with
    | some d => simpa [hs,hi,frameSize_eq hlen] using hlt
    | none =>
      simp only [hs,isSome_none,Bool.false_eq_true,if_false] at hlt
      rcases h.memory i hi hs with hd | hd
      · rw [hd,length_nil] at hlt
        omega
      · rwa [hd] at hlt
  · cases hs : r.frameSpool with
    | some d => exact h.spool i d hi hs
    | none =>
      rcases h.memory i hi hs with hd | hd
      · simp only [hs,hd,isSome_none,Bool.false_eq_true,if_false,length_nil] at hlt
        omega
      · exact hd

theorem fetchFrame_spec (h : Inv z r) (s : Schedule) (hcov : Covers z i p) :
    Inv z (fetchFrame z s r i).1 ∧ (fetchFrame z s r i).1.pos=r.pos ∧
      ((fetchFrame z s r i).2=true → Ready z (fetchFrame z s r i).1 i p) := by
  obtain ⟨pending,hr,hd⟩:=takePending_eq (z:=z) s i r
  have hdrop : Inv z ((takePending z s i r).2.dropFrame z.budgetEnabled) := by
    rw [hr]
    exact (h.of_pending pending r.progress).dropFrame
  have hpos : ((takePending z s i r).2.dropFrame z.budgetEnabled).pos=r.pos := by
    rw [hr]
    rfl
  have hnone : ((takePending z s i r).2.dropFrame z.budgetEnabled).frameSpool=none := by
    cases hb : z.budgetEnabled with
    | true => rfl
    | false => exact hb ▸ hdrop.unspooled hb
  rw [fetchFrame]
  generalize (takePending z s i r).2.dropFrame z.budgetEnabled=r₁ at hdrop hpos hnone
  by_cases hmem : (z.budgetEnabled && (takePending z s i r).1.isNone && !s.frameMemory)=true
  · rw [if_pos hmem]
    by_cases hio : (!s.decodeIo || ((decodedAt z i).take (z.frameSize i+1)).length≠z.frameSize i)=true
    · rw [if_pos hio]
      exact ⟨hdrop,hpos,fun hcon => by cases hcon⟩
    · rw [if_neg hio]
      have hbytes : (decodedAt z i).take (z.frameSize i+1)=decodedAt z i := by
        rw [frameSize_eq hcov.1,take_of_length_le (Nat.le_succ _)]
      have hon : z.budgetEnabled=true := by simp_all
      have hready:=@ready_prefetch z { r₁ with frameSpool:=some ((decodedAt z i).take (z.frameSize i+1)),
                                                 frameIdx := some i, frameStart := startOf z i } i p rfl rfl hcov
        hbytes (by simp [hon]) (s.cancelled 1) (s.granted 1)
      exact ⟨hready.1,hready.2.1.trans hpos,fun _ => hready.2.2⟩
  · rw [if_neg hmem]
    cases hdata : (takePending z s i r).1.or (decodeFrame (decodedAt z i) (z.frameSize i) s.decodeIo) with
    | none => exact ⟨hdrop,hpos,fun hcon => by cases hcon⟩
    | some data =>
      have hbytes : data=decodedAt z i := by
        rcases or_eq_some_iff.mp hdata with hpre | ⟨-,hsync⟩
        · exact hd data hpre
        · exact decodeFrame_eq_some hsync
      have hready:=@ready_prefetch z { r₁ with frameData:=data, frameIdx:=some i, frameStart := startOf z i } i p
        rfl rfl hcov (by simp [hnone,hbytes]) (fun _ => hnone) (s.cancelled 1) (s.granted 1)
      exact ⟨hready.1,hready.2.1.trans hpos,fun _ => hready.2.2⟩

theorem ensureFrame_spec (h : Inv z r) (s : Schedule) (hp : p<z.size) :
    Inv z (ensureFrame z s r p).1 ∧ (ensureFrame z s r p).1.pos=r.pos ∧
      ((ensureFrame z s r p).2=true→∃i,Ready z (ensureFrame z s r p).1 i p) := by
  have hc : Inv z (if s.cancelled 0 then r.cancel else r) ∧ (if s.cancelled 0 then r.cancel else r).pos=r.pos := by
    split_ifs
    · exact ⟨h.of_pending [] 0,rfl⟩
    · exact ⟨h,rfl⟩
  rw [ensureFrame]
  generalize (if s.cancelled 0 then r.cancel else r)=r₀ at hc
  rw [if_neg (not_le.mpr hp)]
  split_ifs with hcached
  · exact ⟨hc.1,hc.2,fun _ => ready_of_cached hc.1 hcached⟩
  · obtain ⟨hinv,hpos,hready⟩:=fetchFrame_spec hc.1 s (frameAt_covers hp)
    exact ⟨hinv,hpos.trans hc.2,fun hok => ⟨_,hready hok⟩⟩

/-! ## Calls -/

/-- A read ends with the frame that it starts in. -/
def chunking (z : SeekableZstd) [Accurate z] : Chunking z.content.length where
  chunk pos n :=
    if pos < z.size then min (startOf z (frameAt z pos) + (decodedAt z (frameAt z pos)).length - pos) n else 0
  le_asked pos n := by
    split_ifs <;> omega
  pos_of_lt pos n hn hpos := by
    have hsize : pos < z.size := by rwa [Accurate.size_eq (z := z)]
    have hcov := (frameAt_covers hsize).2.2
    rw [if_pos hsize]
    omega
  le_size pos n := by
    have hsize : z.content.length = z.size := Accurate.size_eq.symm
    split_ifs with hpos
    · have hcov := (frameAt_covers hpos).1
      have hend := take_length_mono (z := z) (Nat.succ_le_of_lt hcov)
      rw [take_succ_length hcov,take_length,← Accurate.size_eq (z := z)] at hend
      omega
    · omega

theorem chunk_eq (hcov : Covers z i p) (hp : p<z.size) (n : ℕ) :
    (chunking z).chunk p n=min (startOf z i+(decodedAt z i).length-p) n := by
  have hi:=covers_unique (frameAt_covers hp) hcov
  simp only [chunking,if_pos hp,hi]

theorem read_obeys {r : Reader} (h : Inv z r) (s : Schedule) (n : ℕ) : Inv z (read z s r n).1 ∧
      Obeys z.content (chunking z) r.pos (.read n) (read z s r n).2 (read z s r n).1.pos := by
  rw [read]
  by_cases hend : n=0 ∨ z.size ≤ r.pos
  · rw [if_pos hend]
    have hzero : (chunking z).chunk r.pos n=0 := by
      simp only [chunking]
      split_ifs <;> omega
    exact ⟨h,by rw [hzero,take_zero],rfl⟩
  · rw [if_neg hend]
    have hp : r.pos<z.size := by omega
    obtain ⟨hinv,hpos,hready⟩:=ensureFrame_spec h s hp
    rcases hens : ensureFrame z s r r.pos with ⟨r',ok⟩
    rw [hens] at hinv hpos hready
    cases ok with
    | false => exact ⟨hinv,hpos⟩
    | true =>
      obtain ⟨i,hi,hstart,hcov,hbytes⟩:=hready rfl
      dsimp only at hinv hpos hi hstart hbytes ⊢
      have hk : min ((r'.frameIdx.map z.frameSize).getD 0-(r'.pos-r'.frameStart)) n =
          (chunking z).chunk r.pos n := by
        have hle:=hcov.2.1
        rw [chunk_eq hcov hp,hi,map_some,getD_some,frameSize_eq hcov.1]
        congr 1
        omega
      have hout : ((r'.frameSpool.getD r'.frameData).drop (r'.pos-r'.frameStart)).take ((chunking z).chunk r.pos n) =
          (z.content.drop r.pos).take ((chunking z).chunk r.pos n) := by
        rw [hbytes,hpos,hstart,take_drop_content hcov]
        have hle:=hcov.2.2
        rw [chunk_eq hcov hp]
        omega
      have hlen : ((z.content.drop r.pos).take ((chunking z).chunk r.pos n)).length=(chunking z).chunk r.pos n := by
        have hle:=(chunking z).le_size r.pos n
        rw [length_take,length_drop]
        omega
      rw [hk]
      obtain ⟨pending,progress,heq⟩:=prefetch_eq (z:=z) (s.cancelled 2) (s.granted 2)
        { r' with pos := r'.pos+(chunking z).chunk r.pos n, progress := r'.progress+(chunking z).chunk r.pos n }
      have hnext : Inv z { r' with pos:=r'.pos+(chunking z).chunk r.pos n, pending, progress } :=
        ⟨hinv.frame,hinv.spool,hinv.memory,hinv.unspooled⟩
      cases hspool : r'.frameSpool with
      | none =>
        rw [hspool,getD_none] at hout
        simp only [hspool] at heq hnext
        simp only [heq,hout]
        exact ⟨hnext,rfl,by rw [hlen,hpos]⟩
      | some spool =>
        rw [hspool,getD_some] at hout
        simp only [hspool] at heq hnext
        split_ifs
        · exact ⟨hinv,hpos⟩
        · simp only [heq,hout]
          exact ⟨hnext,rfl,by rw [hlen,hpos]⟩

theorem seek_obeys (h : Inv z r) (dest : SeekFrom) : Inv z (seek z r dest).1 ∧
      Obeys z.content (chunking z) r.pos (.seek dest) (seek z r dest).2 (seek z r dest).1.pos := by
  rw [seek]
  have hsize : z.size=z.content.length:=Accurate.size_eq
  cases ht : dest.target z.size r.pos with
  | none => exact ⟨h,rfl⟩
  | some new =>
    refine ⟨?_,by rwa [←hsize],rfl⟩
    dsimp only
    split_ifs
    · exact ⟨h.frame,h.spool,h.memory,h.unspooled⟩
    · exact ⟨h.frame,h.spool,h.memory,h.unspooled⟩

theorem run_obeys_accurate (z : SeekableZstd) [Accurate z] (calls : List (Call × Schedule)) :
    RunObeys z.content (chunking z) 0 (run (step z) Reader.pos openReader calls) := by
  have hopen : Inv z openReader:=⟨by simp [openReader],by simp [openReader],by simp [openReader],fun _ => rfl⟩
  have hstep (r : Reader) (call : Call) (s : Schedule) (h : Inv z r) : Inv z (step z r call s).1 ∧
      Obeys z.content (chunking z) r.pos call (step z r call s).2 (step z r call s).1.pos := by
    cases call with
    | seek dest => exact seek_obeys h dest
    | read n => exact read_obeys h s n
  exact @run_obeys _ _ (step z) Reader.pos _ _ _ (fun _ => True) (fun r call s _ => hstep r call s) calls
    (fun _ _ => trivial) _ hopen

/-! ## The map of a walk -/

/-- The body over a file with the map that a walk over it has given. -/
def SeekableZstd.ofWalk (lib : ZstdLib) (file : Bytes) (map : ZstdFrameMap) (options : ZstdReadOptions)
    (budgetEnabled : Bool) : SeekableZstd where
  frames := map.frames.map ZstdFrameInfo.toFrameInfo
  decoded f := (lib.decode (file.slice f.compressedOffset (f.compressedSize.getD 0))).getD []
  size := (map.frames.map ZstdFrameInfo.uncompressedSize).sum
  options := options
  budgetEnabled := budgetEnabled

/-- What the decoder yields at the frames of a stream is their content, from frame to frame. -/
theorem decoded_framesAt {lib : ZstdLib} {fs : List Frame} (hwf : ∀f∈fs,f.WellFormed lib) {file : Bytes} (pre : Bytes) (uncomp : ℕ)
    (hfile : file=pre++stream fs) {decoded : ZstdFrameInfo → Bytes}
    (hdecoded : ∀f,decoded f=(lib.decode (file.slice f.compressedOffset f.compressedSize)).getD []) :
    ((framesAt pre.length uncomp fs).map decoded).flatten=content fs ∧
      ((framesAt pre.length uncomp fs).map ZstdFrameInfo.uncompressedSize).sum=(content fs).length ∧
      ∀i (h : i<(framesAt pre.length uncomp fs).length),(framesAt pre.length uncomp fs)[i].uncompressedOffset =
        uncomp+(((framesAt pre.length uncomp fs).take i).map decoded).flatten.length := by
  induction fs generalizing pre uncomp with
  | nil => exact ⟨rfl,rfl,fun i h => absurd h (Nat.not_lt_zero i)⟩
  | cons f fs ih =>
    have hrest:=ih (fun f hf => hwf f (mem_cons_of_mem _ hf)) (pre++f.bytes)
    rw [length_append] at hrest
    have hfile' : file=pre++(f.bytes++stream fs):=hfile
    cases f with
    | data bytes plain =>
      obtain ⟨hcontent,hsum,hoffsets⟩:=hrest (uncomp+plain.length) (by rw [hfile',append_assoc])
      have hplain : lib.decode bytes=some plain:=hwf _ mem_cons_self
      have hhead : decoded ⟨pre.length,uncomp,bytes.length,plain.length⟩=plain := by
        rw [hdecoded,hfile']
        dsimp only
        rw [Frame.bytes,Bytes.slice_append pre bytes (stream fs) rfl rfl,hplain]
        rfl
      rw [framesAt]
      refine ⟨?_,?_,?_⟩
      · rw [map_cons,flatten_cons,hhead]
        exact congrArg (plain++·) hcontent
      · rw [map_cons,sum_cons]
        exact (congrArg (plain.length+·) hsum).trans (length_append).symm
      · intro i h
        cases i with
        | zero => rfl
        | succ i =>
          rw [getElem_cons_succ,take_succ_cons,map_cons,flatten_cons,length_append,hhead]
          exact (hoffsets i (Nat.lt_of_succ_lt_succ h)).trans (add_assoc _ _ _)
    | skippable kind payload => exact hrest uncomp (by rw [hfile',append_assoc])

theorem accurate_ofWalk {lib : ZstdLib} {fs : List Frame} (hwf : ∀f∈fs,f.WellFormed lib) {map : ZstdFrameMap}
    (hwalk : scanZstdFramesWalk lib (stream fs) = .ok map) (options : ZstdReadOptions) (budgetEnabled : Bool) :
    Accurate (.ofWalk lib (stream fs) map options budgetEnabled) ∧
      (SeekableZstd.ofWalk lib (stream fs) map options budgetEnabled).content=content fs := by
  have hmap : map.frames=framesAt 0 0 fs := by
    rw [scanZstdFramesWalk_stream hwf] at hwalk
    split_ifs at hwalk
    rw [←Except.ok.inj hwalk]
  obtain ⟨hcontent,hsum,hoffsets⟩:=decoded_framesAt hwf [] 0 rfl (fun _ => rfl)
  rw [length_nil,←hmap] at hcontent hsum hoffsets
  refine ⟨⟨fun i h => ?_,?_⟩,?_⟩
  · have hi : i < map.frames.length := by simpa [SeekableZstd.ofWalk] using h
    simp only [SeekableZstd.ofWalk,getElem_map,←map_take,List.map_map]
    exact (hoffsets i hi).trans (zero_add _)
  · simp only [SeekableZstd.ofWalk,List.map_map]
    exact hsum.trans (congrArg List.length hcontent).symm
  · simp only [SeekableZstd.content,SeekableZstd.ofWalk,List.map_map]
    exact hcontent

def pairOfFrames : List Frame := [.data (spellingLib.encode [7]) [7],.skippable ⟨0,by decide⟩ [1],.data (spellingLib.encode [8,9]) [8,9]]

def walkedTwo : SeekableZstd :=
  .ofWalk spellingLib (stream pairOfFrames) ⟨framesAt 0 0 pairOfFrames,none⟩ ⟨4,1024⟩ true

/-- A map that says one byte for a frame of two. -/
def lyingMap : SeekableZstd where
  frames := [⟨0,0,none,some 1⟩,⟨10,1,none,some 1⟩]
  decoded f := if f.compressedOffset = 0 then [7,8] else [9]
  size := 2
  options := ⟨1,0⟩
  budgetEnabled := false

def undisturbed : Schedule := ⟨fun _ => false,fun _ _ => true,.disconnected,true,true,true⟩

end Ratarmount.Zstd
