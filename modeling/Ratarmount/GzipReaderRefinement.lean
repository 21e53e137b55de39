import Mathlib.Data.List.TakeWhile
import Mathlib.Tactic.FinCases
import Ratarmount.GzipIndexSound
import Ratarmount.GzipWindows
import Ratarmount.StatePrograms

/-!
# The gzip reader refines its content

The buffer and the cached windows are pieces of the content, and the inflate state is
a place in the stream wherever the flags allow its use. Every call keeps this, so
every read delivers the content at its position.
-/

namespace Ratarmount.Gzip

open Streaming Seekable Programs List DecodedWindowCache

variable {S : Type} {d : Decoder S} {file : Bytes} {io : Backend file} {members : List Member}

/-- What a call within a member writes stands in the content at the place of the call. -/
theorem window_of_written {before : List Member} {m : Member} {after : List Member} {t k : ℕ}
    (ht : (content before).length≤t) (hle : t≤(content before).length+m.out.length) :
    Window (content (before++m::after)) t (m.out.slice (t-(content before).length) k) := by
  rw [Window,content_append,content_cons,drop_append,drop_eq_nil_of_le ht,nil_append,
    drop_append_of_le_length (by omega)]
  exact ( take_prefix _ _).trans (prefix_append _ _)

/-- Where there is content left, the decoder delivers some of it. -/
theorem inflateMore_spec (hd : Steady d) (hwhole : ∀m∈members,io.WholeAt m.next) {turns room t : ℕ}
    {r : SeekableGzipReader S} (hspot : Spot d file members r.compressedAt t r.state)
    (ht : t<(content members).length) (hroom : 0 < room) (hturns : file.length-r.compressedAt+1≤turns) :
    ∃out h c s,inflateMore d io turns room r = .ok out { r with handle := h, compressedAt := c, state := s } ∧
      out≠[] ∧ out.length ≤ room ∧ Window (content members) t out ∧ Spot d file members c (t+out.length) s := by
  induction turns generalizing r with
  | zero => omega
  | succ turns ih =>
    obtain ⟨before,m,after,rfl,htrailer,hlayout,hin⟩:=hspot
    obtain ⟨k,h',hread,-,hk⟩:=readAt_spec io r.compressedAt inputChunk r.handle (by decide)
    obtain ⟨res,hcall,hfits,hin',hwritten,hlast,hmoves⟩:=hin.call hd hk hroom
    have hle:=hin.le
    have hlt : r.compressedAt<file.length := by
      rw [Member.next] at htrailer
      omega
    rw [inflateMore,if_neg (by omega)]
    simp only [run_get_bind,hread,hcall]
    by_cases hw : res.written=[]
    · rw [hw] at hin'
      rw [if_neg (not_not_intro hw)]
      by_cases hend : res.ended=true
      · -- the end of the member: the header of the next one is parsed
        obtain ⟨hcEnd,htEnd⟩:=hlast hend
        rw [hw] at htEnd
        have hnext : r.compressedAt+res.consumed+8=m.next := by rw [hcEnd,Member.next]
        rw [if_pos hend,hnext]
        cases hlayout with
        | last _ =>
          simp [content] at ht htEnd
          omega
        | @member _ m' after hheader hdec htrailer' hrest =>
          have hstart:=le_of_headerAt hheader
          have hm : m∈before++m::m'::after := by simp
          obtain ⟨h'',hparse⟩:=parse_of_headerAt (hwhole m hm) hheader h'
          simp only [hparse]
          refine @ih { r with handle := h'', compressedAt := m'.start, state := d.init } ?_ (by dsimp only; omega)
          refine ⟨before++[m],m',after,by simp,htrailer',hrest,?_⟩
          rw [length_content_concat,←htEnd]
          exact inside_start hdec t
      · have hmoves:=hmoves (by simpa using hend)
        rw [hw,length_nil] at hmoves
        rw [if_neg hend,if_neg fun hstuck => slice_ne_nil hk hlt hstuck.1]
        exact @ih { r with handle := h', compressedAt := r.compressedAt+res.consumed, state := res.state }
          ⟨before,m,after,rfl,htrailer,hlayout,hin'⟩ (by dsimp only; omega)
    · rw [if_pos hw]
      refine ⟨res.written,h',_,_,rfl,hw,hfits,?_,⟨before,m,after,rfl,htrailer,hlayout,hin'⟩⟩
      rw [hwritten]
      exact window_of_written hin.base_le hle.2

structure Good (d : Decoder S) (file : Bytes) (members : List Member) (r : SeekableGzipReader S) : Prop where
  cache : CacheGood (content members) r.windowCache
  window : Window (content members) r.bufStart r.buf
  live : r.inflateValid = true → r.eof = false → Spot d file members r.compressedAt r.nextOut r.state

structure Decoding (d : Decoder S) (file : Bytes) (members : List Member) (pos : ℕ) (r : SeekableGzipReader S) :
    Prop where
  good : Good d file members r
  valid : r.inflateValid = true
  goesOn : r.eof = false
  pos_eq : r.pos = pos

variable {α : Type} {limit pos : ℕ} {r : SeekableGzipReader S} {index : GzipSeekIndex S}

/-- A sound index has a checkpoint at or before every offset of the content. -/
theorem bestCheckpoint_spec (hindex : index.Sound d file members) {target : ℕ}
    (htarget : target<(content members).length) :
    ∃cp,bestCheckpoint index.checkpoints target=some cp ∧ cp.uncompressedOffset≤target ∧
      Spot d file members cp.compressedOffset cp.uncompressedOffset cp.restore := by
  have hne : content members≠[]:=ne_nil_of_length_pos (by omega)
  obtain ⟨p,hp,hzero⟩:=hindex.first hne
  have hordered:=hindex.ordered
  have hplaced:=hindex.placed hne
  obtain ⟨first,rest,hcps⟩:=exists_cons_of_ne_nil (ne_nil_of_mem hp)
  have hfirst : first.uncompressedOffset≤target := by
    rw [hcps] at hp hordered
    rcases List.mem_cons.mp hp with rfl | hp
    · omega
    · have := (List.pairwise_cons.mp hordered).1 p hp
      omega
  obtain ⟨leading,hleading⟩ : ∃leading,leading=index.checkpoints.takeWhile fun cp => cp.uncompressedOffset≤target :=
    ⟨_,rfl⟩
  have hall : ∀cp∈leading,cp.uncompressedOffset≤target := by
    intro cp hcp
    rw [hleading] at hcp
    simpa using mem_takeWhile_imp hcp
  have hpos : 0<leading.length := by
    rw [hleading,hcps,takeWhile_cons_of_pos (by simpa using hfirst)]
    exact Nat.succ_pos _
  have hlt : leading.length-1<leading.length := by omega
  have hmem:=getElem_mem hlt
  obtain ⟨tail,htail⟩ := takeWhile_prefix (l := index.checkpoints) fun cp => decide (cp.uncompressedOffset≤target)
  rw [←hleading] at htail
  refine ⟨leading[leading.length-1],?_,?_,?_⟩
  · rw [bestCheckpoint,←hleading]
    conv_lhs => rw [←htail]
    rw [getElem?_append_left hlt,getElem?_eq_getElem hlt]
  · exact hall _ hmem
  · exact hplaced _ (htail ▸ mem_append_left _ hmem)

structure Covers (d : Decoder S) (file : Bytes) (members : List Member) (pos : ℕ) (r : SeekableGzipReader S) : Prop where
  good : Good d file members r
  pos_eq : r.pos = pos
  from_le : r.bufStart ≤ pos
  lt_end : pos < r.bufEnd

theorem copyOut_spec {pos n : ℕ} {r : SeekableGzipReader S} (hr : Covers d file members pos r) :
    ∃out,copyOut n r = .ok out { r with pos := pos+out.length } ∧ Window (content members) pos out ∧
      out.length≤n ∧ (0<n → out≠[]) := by
  obtain ⟨hgood,rfl,hfrom,hto⟩:=hr
  have hlength : r.pos-r.bufStart < r.buf.length := by
    rw [SeekableGzipReader.bufEnd] at hto
    omega
  refine ⟨r.buf.slice (r.pos-r.bufStart) n,?_,?_,?_,?_⟩
  · rw [copyOut,run_get_bind,if_neg (by omega)]
    rfl
  · have hwindow:=(hgood.window.drop (le_of_lt hlength)).take n
    rwa [Nat.add_sub_cancel' hfrom] at hwindow
  · rw [Bytes.length_slice]
    omega
  · exact fun hn => slice_ne_nil hn hlength

section Calls

variable (hd : Steady d) (hwhole : ∀ m ∈ members, io.WholeAt m.next)
include hd hwhole

/-- The loop of `discard_until` lands on the target. -/
theorem discardLoop_spec {limit target turns pos : ℕ} (htarget : target<(content members).length) (hlimit : file.length+1≤limit) {r : SeekableGzipReader S}
    (hr : Decoding d file members pos r) (hle : r.nextOut≤target) (hturns : target-r.nextOut+1≤turns) :
    ∃r',discardLoop d io limit target turns r = .ok false r' ∧ Decoding d file members pos r' ∧ r'.nextOut=target := by
  induction turns generalizing r with
  | zero => omega
  | succ turns ih =>
    rw [discardLoop]
    simp only [run_get_bind]
    by_cases hlt : r.nextOut<target
    · rw [if_pos ⟨hlt,hr.goesOn⟩]
      have hchunk : outputChunk=262144:=rfl
      have hspot:=hr.good.live hr.valid hr.goesOn
      obtain ⟨out,h',c,s,hmore,hne,hlen,hwindow,hspot'⟩:=@inflateMore_spec _ d file io members hd hwhole limit
        (min (target-r.nextOut) outputChunk) _ r hspot (by omega) (by omega) (by omega)
      have hkeep : (if r.nextOut+out.length > target then target-r.nextOut else out.length)=out.length :=
        if_neg (by omega)
      have hpos:=length_pos_of_ne_nil hne
      rw [run_bind hmore,if_neg hne]
      simp only [hkeep]
      rw [if_pos hpos,if_neg (lt_irrefl _)]
      refine ih ⟨⟨?_,hr.good.window,fun _ _ => hspot'⟩,hr.valid,hr.goesOn,hr.pos_eq⟩ ?_ ?_
      · exact insert_good hr.good.cache (hwindow.take _)
      · dsimp only
        omega
      · dsimp only
        omega
    · refine ⟨r,?_,hr,by omega⟩
      rw [if_neg fun h => hlt h.1]
      rfl

theorem prefetch_spec (htarget : pos<(content members).length) (hlimit : file.length+1≤limit)
    (hr : Decoding d file members pos r) (hnext : r.nextOut=pos) :
    ∃r',prefetch d io limit pos r = .ok () r' ∧ Covers d file members pos r' := by
  have hspot:=hr.good.live hr.valid hr.goesOn
  rw [hnext] at hspot
  obtain ⟨out,h',c,s,hmore,hne,hlen,hwindow,hspot'⟩:=@inflateMore_spec _ d file io members hd hwhole limit
    (64*1024) pos { r with buf := [], bufStart := pos } hspot htarget (by omega) (by dsimp only; omega)
  rw [prefetch,run_modify_bind,run_get_bind,if_pos ⟨hr.goesOn,hnext⟩,run_bind hmore,if_neg hne]
  refine ⟨_,rfl,⟨?_,hwindow,fun _ _ => ?_⟩,hr.pos_eq,le_refl _,?_⟩
  · exact insert_good hr.good.cache hwindow
  · dsimp only
    rw [hnext]
    exact hspot'
  · exact Nat.lt_add_of_pos_right (length_pos_of_ne_nil hne)

variable (hlimit : file.length + (content members).length + 1 ≤ limit)
include hlimit

theorem discardUntil_spec (htarget : pos<(content members).length) (hr : Decoding d file members pos r) (hle : r.nextOut≤pos) :
    ∃r',discardUntil d io limit pos r = .ok () r' ∧ Covers d file members pos r' := by
  obtain ⟨r₁,hloop,hr₁,hnext⟩:=@discardLoop_spec _ d file io members hd hwhole limit pos limit pos htarget (by omega) r
    hr hle (by omega)
  rw [discardUntil,run_bind hloop]
  exact prefetch_spec hd hwhole htarget (by omega) hr₁ hnext

variable (hindex : index.Sound d file members)
include hindex

theorem restoreAt_spec (htarget : pos<(content members).length) (hr : Good d file members r) (hpos : r.pos=pos) :
    ∃r',restoreAt d io index limit pos r = .ok () r' ∧ Covers d file members pos r' := by
  obtain ⟨cp,hbest,hle,hspot⟩:=bestCheckpoint_spec hindex htarget
  rw [restoreAt]
  simp only [hbest]
  refine discardUntil_spec hd hwhole hlimit htarget ⟨⟨?_,window_nil _,fun _ _ => hspot⟩,rfl,rfl,hpos⟩ hle
  exact insertChunks_good hr.cache hr.window

/-- Priming at a position within the content makes the buffer cover it. -/
theorem primeAt_spec (htarget : pos<(content members).length) (hr : Good d file members r) (hpos : r.pos=pos) :
    ∃r',primeAtInner d io index limit pos false r = .ok () r' ∧ Covers d file members pos r' := by
  rw [primeAtInner,run_get_bind,if_neg (by rw [hindex.size]; omega),if_neg (by simp)]
  by_cases hcovers : r.primed=true ∧ r.bufStart≤pos ∧ pos < r.bufEnd
  · rw [if_pos hcovers]
    exact ⟨r,rfl,hr,hpos,hcovers.2.1,hcovers.2.2⟩
  · rw [if_neg hcovers]
    split_ifs with hforward
    · obtain ⟨-,hvalid,hle,heof,-⟩:=hforward
      exact discardUntil_spec hd hwhole hlimit htarget ⟨hr,hvalid,heof,hpos⟩ hle
    · cases hlookup : r.windowCache.lookup pos with
      | none => exact restoreAt_spec hd hwhole hlimit hindex htarget hr hpos
      | some w =>
        obtain ⟨hwindow,hfrom,hto⟩:=lookup_some hr.cache hlookup
        refine ⟨_,rfl,⟨?_,hwindow,?_⟩,hpos,hfrom,hto⟩
        · exact insertChunks_good hr.cache hr.window
        · intro hvalid
          cases hvalid

/-- A read returns, and delivers the content at the position. -/
theorem readCall_spec (hr : Good d file members r) (n : ℕ) :
    ∃out r',read d io index limit n r = .ok out r' ∧ Good d file members r' ∧
      Answers (content members) r.pos (.read n) (.bytes out) r'.pos := by
  rw [read,run_get_bind]
  split_ifs with hnone
  · refine ⟨[],r,rfl,hr, nil_prefix,Nat.zero_le _,?_,rfl⟩
    rw [hindex.size] at hnone
    omega
  · obtain ⟨hn,hlt⟩:=not_or.mp hnone
    rw [hindex.size] at hlt
    obtain ⟨r₁,hprime,hcovers⟩:=primeAt_spec hd hwhole hlimit hindex (by omega) hr rfl
    obtain ⟨out,hcopy,hwindow,hle,hne⟩:=@copyOut_spec _ d file members r.pos n r₁ hcovers
    have hin : ¬(r₁.pos < r₁.bufStart ∨ r₁.pos ≥ r₁.bufEnd) := by
      have h1:=hcovers.pos_eq
      have h2:=hcovers.from_le
      have h3:=hcovers.lt_end
      omega
    refine ⟨out,{ r₁ with pos := r.pos+out.length },?_,?_,hwindow,hle,fun hn _ => hne hn,rfl⟩
    · rw [run_bind hprime,run_get_bind,if_neg hin]
      exact hcopy
    · exact ⟨hcovers.good.cache,hcovers.good.window,hcovers.good.live⟩

structure Settled (d : Decoder S) (file : Bytes) (members : List Member) (r : SeekableGzipReader S) : Prop where
  good : Good d file members r
  pos_lt : r.pos < 2 ^ 63

/-- Every call is answered from the content, and leaves the reader settled. -/
theorem serve_spec (hsize : (content members).length<2^63) (hr : Settled d file members r) {call : Call}
    (hfits : call.Fits) : Settled d file members (serve d io index limit r call).1 ∧
      Answers (content members) r.pos call (serve d io index limit r call).2 (serve d io index limit r call).1.pos := by
  cases call with
  | seek dest =>
    by_cases hneg : seekTarget index.uncompressedSize r.pos dest<0
    · have hseek : seek index dest r = .error .seekBeforeStart r := by
        rw [seek,run_get_bind,if_pos hneg]
        rfl
      rw [serve,hseek]
      exact ⟨hr,rfl⟩
    · have hseek : seek index dest r = .ok (seekTarget index.uncompressedSize r.pos dest).toNat
          { r with pos := (seekTarget index.uncompressedSize r.pos dest).toNat } := by
        rw [seek,run_get_bind,if_neg hneg]
        rfl
      obtain ⟨htarget,hlt⟩:=seekTarget_spec (hindex.size ▸ hsize) hr.pos_lt hfits (Int.not_lt.mp hneg)
      rw [serve,hseek]
      exact ⟨⟨⟨hr.good.cache,hr.good.window,hr.good.live⟩,hlt⟩,hindex.size ▸ htarget,rfl⟩
  | read n =>
    obtain ⟨out,r',hread,hgood,hanswers⟩:=readCall_spec hd hwhole hlimit hindex hr.good n
    rw [serve,hread]
    refine ⟨⟨hgood,?_⟩,hanswers⟩
    obtain ⟨hpiece,-,-,hpos⟩:=hanswers
    have hle:=hpiece.length_le
    have hlt:=hr.pos_lt
    rw [length_drop] at hle
    dsimp only
    omega

end Calls

theorem settled_fresh (handle : Handle) : Settled d file members (SeekableGzipReader.fresh d handle) :=
  ⟨⟨cacheGood_empty,window_nil 0,nofun⟩,Nat.pow_pos Nat.two_pos⟩

def DecodedWindowCache.Limited (cache : DecodedWindowCache) : Prop :=
  cache.entries.length ≤ g3SeekCacheChunks ∧ (cache.entries.map fun e => e.data.length).sum ≤ g3SeekCacheBytes

theorem Settled.limited (h : Settled d file members r) : r.windowCache.Limited := by
  have hcache:=h.good.cache
  refine ⟨hcache.chunks,?_⟩
  rw [←hcache.counted]
  exact hcache.bytes

/-- Every call of the run is answered from `data`, with the cache within its limits after it. -/
def Serves (d : Decoder S) (io : Backend file) (index : GzipSeekIndex S) (limit : ℕ) (data : Bytes) :
    SeekableGzipReader S → List Call → Prop :=
  RunsWell (serve d io index limit) SeekableGzipReader.pos data fun r => r.windowCache.Limited

/-- An index that was built, or imported by its uncompressed offsets only, over any stream of the file's bytes. -/
def Produced (d : Decoder S) (file : Bytes) (index : GzipSeekIndex S) : Prop :=
  (∃ (io : Backend file) (spacing turns : ℕ) (h : Handle), buildIndex d io spacing turns h = .ok index) ∨
    ∃ (io : Backend file) (points : List (ℕ × ℕ)) (spacing expected turns : ℕ) (h : Handle),
      importSeekPointsWithMode d io points spacing expected false turns h = .ok index

theorem sound_of_produced (hd : Steady d) (hlayout : Layout d file 0 members) (h : Produced d file index) : index.Sound d file members := by
  rcases h with ⟨io,spacing,turns,h,hok⟩ | ⟨io,points,spacing,expected,turns,h,hok⟩
  · exact buildIndex_sound hd hlayout hok
  · exact importSeekPoints_sound hd hlayout hok

/-- Over a stream that never cuts the fixed part of a header short, the reader refines the content: for every run of
calls, whatever the other readers of the stream do and however it cuts the other reads. -/
theorem reader_refines_members (hd : Steady d) (hlayout : Layout d file 0 members) {index : GzipSeekIndex S}
    (hindex : Produced d file index) (hsize : (content members).length < 2 ^ 63)
    (hwhole : ∀ m ∈ members, io.WholeAt m.next) {limit : ℕ}
    (hlimit : file.length + (content members).length + 1 ≤ limit) (handle : Handle) (calls : List Call)
    (hcalls : ∀ call ∈ calls, call.Fits) :
    Serves d io index limit (content members) (SeekableGzipReader.fresh d handle) calls :=
  runsWell_of (fun _ _ hfits hr => serve_spec hd hwhole hlimit (sound_of_produced hd hlayout hindex) hsize hr hfits)
    (fun _ hr => hr.limited) hcalls (settled_fresh handle)

theorem reader_refines_twoMembers :
    Serves literal (Backend.whole twoMembers) twoIndex 43 [65,66] (SeekableGzipReader.fresh literal (.shared 0 0))
      [.read 1,.read 7,.seek (.start 0),.read 7] :=
  reader_refines_members steady_literal layout_twoMembers (.inl ⟨_,_,_,_,build_twoMembers⟩) (by decide)
    (fun m _ _ => le_refl _) (by decide) (.shared 0 0) _ (by
      intro call hcall
      fin_cases hcall <;> first | trivial | exact Nat.pow_pos Nat.two_pos)

/-- A stream that delivers, from its hundredth turn on, five of the ten bytes asked for at the second header. -/
def cutStream : Backend twoMembers where
  serve turn := {
    chunk := fun pos n => if 100 ≤ turn ∧ pos = 20 ∧ n = 10 then 5 else min n (twoMembers.length - pos)
    le_asked := by
      intro pos n
      split_ifs <;> omega
    pos_of_lt := by
      intro pos n
      split_ifs <;> omega
    le_size := by
      intro pos n
      have hlength : twoMembers.length = 40 := by decide
      split_ifs <;> omega }
  others _ := 0

/-- The index is built over the stream; afterwards the read behind the first member fails although there is content left. -/
theorem cut_header_fails :
    buildIndex literal cutStream 1 5 (.file 0 0) = .ok twoIndex ∧
      ¬ Serves literal cutStream twoIndex 43 [65,66] (SeekableGzipReader.fresh literal (.shared 0 100)) [.read 1,.read 1] := by
  refine ⟨by decide +kernel,fun h => ?_⟩
  obtain ⟨-,-,hsecond,-⟩ := h
  have hreply : (serve literal cutStream twoIndex 43
      (serve literal cutStream twoIndex 43 (SeekableGzipReader.fresh literal (.shared 0 100)) (.read 1)).1 (.read 1)).2 =
        .error := by
    decide +kernel
  rw [hreply] at hsecond
  exact hsecond

end Ratarmount.Gzip
