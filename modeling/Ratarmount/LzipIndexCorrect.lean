import Mathlib.Data.Nat.Find
import Ratarmount.ExceptRuns
import Ratarmount.LzipMembers

/-!
# When every lzip member is indexed

The search for the end of a member takes the last place in the rest of the file whose
20 bytes look like a trailer and tell a size that the decoder can stop at. The index is
right exactly if no such place lies behind a member's own trailer; then the reader shows
the data of all members.
-/

namespace Ratarmount.Lzip

open Seekable List Bytes

/-- A member, with the lengths of its data after which a packet of its stream ends. -/
structure LzipMember where
  dictCode : UInt8
  stream : Bytes
  data : Bytes
  packet : ℕ → Bool
  crc : Bytes
  packet_end : packet data.length = true
  crc_length : crc.length = 4

def LzipMember.trailer (m : LzipMember) : Bytes :=
  m.crc ++ (Bytes.le 8 m.data.length ++ Bytes.le 8 (headerSize + m.stream.length + trailerSize))

@[simp] theorem length_trailer (m : LzipMember) : m.trailer.length=20 := by
  simp [LzipMember.trailer,m.crc_length]

def LzipMember.encode (m : LzipMember) : Bytes := lzipMagic ++ [1,m.dictCode] ++ (m.stream ++ m.trailer)

@[simp] theorem length_encode (m : LzipMember) : m.encode.length=m.stream.length+26 := by
  simp [LzipMember.encode,lzipMagic]

def encodeAll (ms : List LzipMember) : Bytes := ms.flatMap LzipMember.encode

def restOf (m : LzipMember) (ms : List LzipMember) : Bytes := m.stream ++ (m.trailer ++ encodeAll ms)

theorem length_restOf (m : LzipMember) (ms : List LzipMember) :
    (restOf m ms).length=m.stream.length+20+(encodeAll ms).length := by
  simp [restOf]
  omega

/-- The decoder on a slice that begins with the member's stream. Without a size it goes on to the end marker and
accepts nothing behind it; with a size it stops there, whatever follows, if a packet ends there. -/
def DecodesMember (lz : Lzma) (m : LzipMember) (ms : List LzipMember) : Prop :=
  ∀ p, m.stream.length ≤ p → p ≤ (restOf m ms).length →
    lz (dictSizeFromCode m.dictCode) none ((restOf m ms).take p) = (if p = m.stream.length then some m.data else none) ∧
      ∀ n, lz (dictSizeFromCode m.dictCode) (some n) ((restOf m ms).take p) =
        if n ≤ m.data.length ∧ m.packet n = true then some (m.data.take n) else none

def DecodesAll (lz : Lzma) : List LzipMember → Prop
  | [] => True
  | m :: ms => DecodesMember lz m ms ∧ DecodesAll lz ms

def memberSizeAt (rest : Bytes) (p : ℕ) : ℕ := (rest.slice (p + 12) 8).ofLe

/-- The 20 bytes at `p` look like the trailer of a member that starts at the rest. -/
def LooksLikeTrailer (rest : Bytes) (p : ℕ) : Prop :=
  p + trailerSize ≤ rest.length ∧ (memberSizeAt rest p = 0 ∨ memberSizeAt rest p = headerSize + p + trailerSize)

instance (rest : Bytes) (p : ℕ) : Decidable (LooksLikeTrailer rest p) := by
  unfold LooksLikeTrailer
  infer_instance

def dataSizeAt (rest : Bytes) (p : ℕ) : ℕ := (rest.slice (p + 4) 8).ofLe

/-- The search takes the 20 bytes at `p` for the trailer: it is there, or the data size that they tell is one
that the decoder stops at. -/
def TakenAt (m : LzipMember) (ms : List LzipMember) (p : ℕ) : Prop :=
  LooksLikeTrailer (restOf m ms) p ∧ (p = m.stream.length ∨ dataSizeAt (restOf m ms) p ≠ 0 ∧
    dataSizeAt (restOf m ms) p ≤ m.data.length ∧ m.packet (dataSizeAt (restOf m ms) p) = true)

instance (m : LzipMember) (ms : List LzipMember) (p : ℕ) : Decidable (TakenAt m ms p) := by
  unfold TakenAt
  infer_instance

/-- Nothing behind the member's own trailer is taken for it. -/
def NoFalseTrailer (m : LzipMember) (ms : List LzipMember) : Prop := ∀ p, m.stream.length < p → ¬ TakenAt m ms p

def Unambiguous : List LzipMember → Prop
  | [] => True
  | m :: ms => NoFalseTrailer m ms ∧ Unambiguous ms

def trueEntries : ℕ → ℕ → List LzipMember → List Member
  | _, _, [] => []
  | pos, uOff, m :: ms =>
    ⟨pos,pos + m.encode.length,uOff,m.data.length,m.dictCode⟩ ::
      trueEntries (pos + m.encode.length) (uOff + m.data.length) ms

def LzipMember.Fits (m : LzipMember) : Prop := m.encode.length < 2 ^ 64 ∧ m.data.length < 2 ^ 64

variable {lz : Lzma} {m : LzipMember} {ms : List LzipMember}

/-- A blob of header, payload and trailer decodes as the payload does, with the size first if there is one. -/
theorem decompressMember_blob (dictCode : UInt8) {payload trailer : Bytes} (htrailer : trailer.length=20) (hint : Option ℕ) :
    (decompressMember lz (lzipMagic++[1,dictCode]++payload++trailer) dictCode hint).toOption =
      (hint.bind fun n => lz (dictSizeFromCode dictCode) (some n) payload).or (lz (dictSizeFromCode dictCode) none payload) := by
  obtain ⟨blob,hblob⟩ : ∃blob,blob=lzipMagic++[1,dictCode]++payload++trailer:=⟨_,rfl⟩
  have hfields : blob=[lzipMagic,[1,dictCode],payload,trailer].flatten := by simp [hblob]
  have hlength : blob.length=6+payload.length+20 := by
    simp [hfields,lzipMagic]
    omega
  have hmagic : blob.slice 0 4=lzipMagic := by
    rw [hfields]
    exact slice_flatten 0 rfl rfl rfl
  have hpayload : blob.slice headerSize (blob.length-trailerSize-headerSize)=payload := by
    rw [hlength,hfields]
    exact slice_flatten 2 rfl rfl (by rw [trailerSize,headerSize]; omega)
  rw [←hblob]
  unfold decompressMember
  rw [if_neg (by rw [hlength,headerSize,trailerSize]; omega),if_neg (not_not_intro hmagic)]
  simp only [hpayload]
  cases hint with
  | none => cases hd : lz (dictSizeFromCode dictCode) none payload <;> simp [hd,Except.toOption]
  | some n =>
    cases hn : lz (dictSizeFromCode dictCode) (some n) payload <;>
      cases hd : lz (dictSizeFromCode dictCode) none payload <;> simp [hn,hd,Except.toOption]

/-- What the decoder makes of the bytes before `p` with the data size that is told there. -/
def decodedBefore (m : LzipMember) (ms : List LzipMember) (p : ℕ) : Option Bytes :=
  if dataSizeAt (restOf m ms) p ≠ 0 ∧ dataSizeAt (restOf m ms) p ≤ m.data.length ∧ m.packet (dataSizeAt (restOf m ms) p) = true then
    some (m.data.take (dataSizeAt (restOf m ms) p))
  else if p = m.stream.length then some m.data else none

theorem tryAt_eq (hlz : DecodesMember lz m ms) {p : ℕ} (hp : m.stream.length≤p) : tryAt lz (restOf m ms) m.dictCode p =
      if LooksLikeTrailer (restOf m ms) p then
        (decodedBefore m ms p).map fun plain => (p+trailerSize,plain.length,plain.length)
      else none := by
  rw [tryAt]
  by_cases hlen : p+trailerSize > (restOf m ms).length
  · rw [if_pos hlen,if_neg fun h => by have := h.1; omega]
  rw [if_neg hlen]
  have hsize : (((restOf m ms).slice p trailerSize).slice 12 8).ofLe=memberSizeAt (restOf m ms) p := by
    rw [slice_slice _ (by decide)]
    rfl
  have hdata : (((restOf m ms).slice p trailerSize).slice 4 8).ofLe=dataSizeAt (restOf m ms) p := by
    rw [slice_slice _ (by decide)]
    rfl
  simp only [hsize,hdata]
  by_cases hmember : memberSizeAt (restOf m ms) p≠0 ∧ memberSizeAt (restOf m ms) p≠headerSize+p+trailerSize
  · rw [if_pos hmember,if_neg]
    rintro ⟨-,h | h⟩
    · exact hmember.1 h
    · exact hmember.2 h
  have hlooks : LooksLikeTrailer (restOf m ms) p:=⟨not_lt.mp hlen,by
    by_contra hnot
    exact hmember (not_or.mp hnot)⟩
  rw [if_neg hmember,if_pos hlooks]
  obtain ⟨hplain,hsized⟩:=hlz p hp (by rw [trailerSize] at hlen; omega)
  have hblob:=@decompressMember_blob lz m.dictCode ((restOf m ms).take p) ((restOf m ms).slice p trailerSize)
    (slice_length_eq (not_lt.mp hlen)) (if dataSizeAt (restOf m ms) p > 0 then some (dataSizeAt (restOf m ms) p) else none)
  have hdecoded : (decompressMember lz (lzipMagic++[1,m.dictCode]++(restOf m ms).take p ++
      (restOf m ms).slice p trailerSize) m.dictCode
      (if dataSizeAt (restOf m ms) p > 0 then some (dataSizeAt (restOf m ms) p) else none)).toOption=decodedBefore m ms p := by
    rw [hblob,hplain,decodedBefore]
    by_cases hzero : dataSizeAt (restOf m ms) p=0
    · simp [hzero]
    · rw [if_pos (Nat.pos_of_ne_zero hzero),Option.bind_some,hsized]
      by_cases hstop : dataSizeAt (restOf m ms) p ≤ m.data.length ∧ m.packet (dataSizeAt (restOf m ms) p)=true
      · simp [hzero,hstop]
      · simp [hstop]
  rw [←hdecoded]
  cases decompressMember lz (lzipMagic++[1,m.dictCode]++(restOf m ms).take p ++
      (restOf m ms).slice p trailerSize) m.dictCode
      (if dataSizeAt (restOf m ms) p > 0 then some (dataSizeAt (restOf m ms) p) else none) with
  | error e => rfl
  | ok plain =>
    simp only [Except.toOption,Option.map_some,Option.some.injEq,Prod.mk.injEq,true_and,and_true]
    split_ifs with h
    · exact h.2
    · rfl

theorem decodedBefore_eq_none {p : ℕ} (hlooks : LooksLikeTrailer (restOf m ms) p) :
    decodedBefore m ms p=none ↔ ¬TakenAt m ms p := by
  rw [decodedBefore,TakenAt]
  split_ifs with hstop hown
  · simp [hlooks,hstop]
  · subst hown
    simp [hlooks]
  · simp [hlooks,hown,hstop]

/-- A search from the top finds the largest place that has something. -/
theorem findSome_reverse_range {α : Type} {f : ℕ → Option α} {n p : ℕ} {a : α} (hp : p≤n) (hsome : f p=some a)
    (hnone : ∀q,p<q → q≤n → f q=none) : (List.range (n+1)).reverse.findSome? f=some a := by
  induction n with
  | zero =>
    obtain rfl : p=0 := by omega
    simp [hsome]
  | succ n ih =>
    rw [range_succ,reverse_append,reverse_singleton,singleton_append,findSome?_cons]
    by_cases hlast : p=n+1
    · rw [←hlast,hsome]
    · rw [hnone (n+1) (by omega) (le_refl _)]
      exact ih (by omega) fun q hq hle => hnone q hq (by omega)

theorem own_trailer (hfits : m.Fits) : TakenAt m ms m.stream.length ∧ decodedBefore m ms m.stream.length=some m.data := by
  have hrest : restOf m ms=[m.stream,m.crc,Bytes.le 8 m.data.length,Bytes.le 8 (headerSize+m.stream.length+trailerSize),
      encodeAll ms].flatten := by simp [restOf,LzipMember.trailer]
  have hfield : (restOf m ms).slice (m.stream.length+12) 8=Bytes.le 8 (headerSize+m.stream.length+trailerSize) := by
    rw [hrest]
    exact slice_flatten 3 rfl (by simp [m.crc_length]) (by simp)
  have hdata : (restOf m ms).slice (m.stream.length+4) 8=Bytes.le 8 m.data.length := by
    rw [hrest]
    exact slice_flatten 2 rfl (by simp [m.crc_length]) (by simp)
  obtain ⟨hmember,hsize⟩:=hfits
  rw [length_encode] at hmember
  have hlooks : LooksLikeTrailer (restOf m ms) m.stream.length := by
    refine ⟨by rw [length_restOf,trailerSize]; omega,.inr ?_⟩
    rw [memberSizeAt,hfield]
    exact ofLe_le_of_lt (by rw [headerSize,trailerSize]; omega)
  have htold : dataSizeAt (restOf m ms) m.stream.length=m.data.length := by
    rw [dataSizeAt,hdata]
    exact ofLe_le_of_lt (by omega)
  refine ⟨⟨hlooks,.inl rfl⟩,?_⟩
  rw [decodedBefore,htold,take_length,if_pos rfl]
  exact ite_self _

/-- The search returns the last place that is taken for the trailer. -/
theorem findMemberEnd_eq (hlz : DecodesMember lz m ms) (hfits : m.Fits) :
    ∃p size,m.stream.length≤p ∧ TakenAt m ms p ∧ (∀q,p<q→¬TakenAt m ms q) ∧ (p=m.stream.length → size=m.data.length) ∧
      findMemberEnd lz (restOf m ms) m.dictCode=some (p+trailerSize,size,size) := by
  have hlen:=length_restOf m ms
  obtain ⟨n,hn⟩ : ∃n,n=(restOf m ms).length - trailerSize:=⟨_,rfl⟩
  have hle : m.stream.length≤n := by
    rw [hn,trailerSize]
    omega
  obtain ⟨p,hp⟩ : ∃p,p=Nat.findGreatest (TakenAt m ms) n:=⟨_,rfl⟩
  have hspec:=hp ▸ Nat.findGreatest_spec hle (own_trailer hfits).1
  have hstream:=hp ▸ Nat.le_findGreatest hle (own_trailer hfits).1
  have hbehind : ∀q,p<q→¬TakenAt m ms q := by
    intro q hq htaken
    have hqn : q≤n := by
      have := htaken.1.1
      omega
    exact Nat.findGreatest_is_greatest (hp ▸ hq) hqn htaken
  obtain ⟨plain,hplain⟩ : ∃plain,decodedBefore m ms p=some plain:=Option.ne_none_iff_exists'.mp fun hnone =>
    (decodedBefore_eq_none hspec.1).mp hnone hspec
  refine ⟨p,plain.length,hstream,hspec,hbehind,?_,?_⟩
  · rintro rfl
    rw [Option.some.inj (hplain.symm.trans (own_trailer hfits).2)]
  have hsome : tryAt lz (restOf m ms) m.dictCode p=some (p+trailerSize,plain.length,plain.length) := by
    rw [tryAt_eq hlz hstream,if_pos hspec.1,hplain]
    rfl
  have hnone : ∀q,p<q → tryAt lz (restOf m ms) m.dictCode q=none := by
    intro q hq
    rw [tryAt_eq hlz (by omega)]
    split_ifs with hlooks
    · rw [(decodedBefore_eq_none hlooks).mpr (hbehind q hq)]
      rfl
    · rfl
  have hpn : p≤n:=hp ▸ Nat.findGreatest_le n
  rw [findMemberEnd,if_neg (by rw [hlen,trailerSize]; omega),←hn]
  by_cases hlast : p=n
  · rw [←hlast,hsome]
  · rw [hnone n (by omega)]
    exact findSome_reverse_range hpn hsome fun q hq _ => hnone q hq

theorem encodeAll_cons (m : LzipMember) (ms : List LzipMember) : encodeAll (m::ms)=m.encode++encodeAll ms := rfl

/-- One turn of the index loop: the member is taken to end at the last place that is taken for its trailer. -/
theorem indexFrom_cons (hlz : DecodesMember lz m ms) (hfits : m.Fits) (pre : Bytes) (turns uOff : ℕ) :
    ∃p size,m.stream.length≤p ∧ TakenAt m ms p ∧ (∀q,p<q→¬TakenAt m ms q) ∧ (p=m.stream.length → size=m.data.length) ∧
      indexFrom lz (pre++encodeAll (m::ms)) (turns+1) pre.length uOff=(do
        let members ← indexFrom lz (pre++encodeAll (m::ms)) turns (pre.length+(p+26)) (uOff+size)
        .ok (⟨pre.length,pre.length+(p+26),uOff,size,m.dictCode⟩::members)) := by
  obtain ⟨p,size,hstream,htaken,hbehind,hown,hfind⟩:=findMemberEnd_eq hlz hfits
  refine ⟨p,size,hstream,htaken,hbehind,hown,?_⟩
  have hheader : slice (pre++encodeAll (m::ms)) pre.length 6=lzipMagic++[1,m.dictCode] := by
    rw [encodeAll_cons,LzipMember.encode,append_assoc (lzipMagic++_)]
    exact slice_append _ _ _ rfl rfl
  have hrest : (pre++encodeAll (m::ms)).drop (pre.length+headerSize)=restOf m ms := by
    rw [←drop_drop,drop_left,encodeAll_cons,LzipMember.encode,append_assoc (lzipMagic++_),
      append_assoc m.stream]
    rfl
  have hlen : pre.length+headerSize+trailerSize≤(pre++encodeAll (m::ms)).length := by
    rw [encodeAll_cons,length_append,length_append,length_encode,headerSize,trailerSize]
    omega
  have hsize : (if size > 0 then size else size)=size:=ite_self _
  have hend : pre.length+(headerSize+(p+trailerSize))=pre.length+(p+26) := by
    rw [headerSize,trailerSize]
    omega
  have hdict : (lzipMagic++[1,m.dictCode]).getD 5 0=m.dictCode:=rfl
  rw [indexFrom,if_pos hlen]
  simp only [hheader,hrest,hdict,hfind,hsize,hend]
  rfl

/-- Without false trailers the loop finds the members, and only then. -/
theorem indexFrom_iff (hlz : DecodesAll lz ms) (hfits : ∀m∈ms,m.Fits) (pre : Bytes) {turns : ℕ} (uOff : ℕ)
    (hturns : ms.length+1≤turns) :
    indexFrom lz (pre++encodeAll ms) turns pre.length uOff = .ok (trueEntries pre.length uOff ms) ↔ Unambiguous ms := by
  induction ms generalizing pre turns uOff with
  | nil =>
    obtain ⟨turns,rfl⟩ : ∃k,turns=k+1:=⟨turns - 1,by omega⟩
    have hlen : ¬pre.length+headerSize+trailerSize≤(pre++encodeAll []).length := by
      simp only [encodeAll,trailerSize,flatMap_nil,append_nil]
      omega
    refine iff_of_true ?_ trivial
    rw [indexFrom,if_neg hlen]
    rfl
  | cons m ms ih =>
    obtain ⟨turns,rfl⟩ : ∃k,turns=k+1:=⟨turns - 1,by omega⟩
    obtain ⟨p,size,hstream,htaken,hbehind,hown,hturn⟩:=indexFrom_cons hlz.1 (hfits m mem_cons_self) pre turns uOff
    have hrest:=@ih hlz.2 (fun x hx => hfits x (mem_cons_of_mem _ hx)) (pre++m.encode) turns
      (uOff+m.data.length) (by rw [length_cons] at hturns; omega)
    rw [append_assoc,←encodeAll_cons,length_append] at hrest
    have hlength:=length_encode m
    rw [hturn]
    constructor
    · intro hok
      obtain ⟨members,hmembers,hentries⟩:=bind_ok hok
      have hentries:=List.cons.inj (Except.ok.inj hentries)
      have hp : p=m.stream.length := by
        have hend : pre.length+(p+26)=pre.length+m.encode.length:=congrArg Member.endOffset hentries.1
        omega
      rw [hown hp,hp,←hlength,hentries.2] at hmembers
      exact ⟨fun q hq => hbehind q (hp ▸ hq),hrest.mp hmembers⟩
    · rintro ⟨hno,hall⟩
      have hp : p=m.stream.length := by
        by_contra hne
        exact hno p (by omega) htaken
      rw [hown hp,hp,←hlength,hrest.mpr hall]
      rfl

def content (ms : List LzipMember) : Bytes := ms.flatMap LzipMember.data

theorem content_cons (m : LzipMember) (ms : List LzipMember) : content (m::ms)=m.data++content ms := rfl

theorem findIn_eq {pos uOff p : ℕ} (hle : uOff≤p) (hlt : p<uOff+(content ms).length) :
    ∃i m,ms[i]?=some m ∧ findIn (trueEntries pos uOff ms) p=some (i,p-uOff-(content (ms.take i)).length) ∧
      (content (ms.take i)).length≤p-uOff ∧ p-uOff-(content (ms.take i)).length < m.data.length := by
  induction ms generalizing pos uOff with
  | nil =>
    simp [content] at hlt
    omega
  | cons m ms ih =>
    rw [trueEntries,findIn]
    by_cases hfirst : p<uOff+m.data.length
    · refine ⟨0,m,rfl,?_,?_,?_⟩
      · rw [if_pos hfirst]
        simp [content]
      · simp [content]
      · simp [content]
        omega
    · rw [content_cons,length_append] at hlt
      obtain ⟨i,m',hm',hfind,hbefore,hwithin⟩:=@ih (pos+m.encode.length) (uOff+m.data.length) (by omega) (by omega)
      refine ⟨i+1,m',hm',?_,?_,?_⟩
      · rw [if_neg hfirst,hfind]
        simp only [Option.map_some,take_succ_cons,content_cons,length_append,Option.some.injEq,Prod.mk.injEq,
          true_and]
        omega
      · rw [take_succ_cons,content_cons,length_append]
        omega
      · rw [take_succ_cons,content_cons,length_append]
        omega

variable {i : ℕ} {r : LzipReader}

theorem getElem_trueEntries {pos uOff : ℕ} (hm : ms[i]?=some m) :
    (trueEntries pos uOff ms)[i]?=some ⟨pos+(encodeAll (ms.take i)).length,
      pos+(encodeAll (ms.take i)).length+m.encode.length,uOff+(content (ms.take i)).length,m.data.length,
      m.dictCode⟩ := by
  induction ms generalizing pos uOff i with
  | nil => cases hm
  | cons m' ms ih =>
    cases i with
    | zero =>
      obtain rfl : m'=m:=Option.some.inj hm
      rfl
    | succ i =>
      rw [trueEntries,getElem?_cons_succ,ih hm,take_succ_cons,encodeAll_cons,content_cons,
        length_append,length_append,←add_assoc,←add_assoc]

theorem sum_trueEntries (pos uOff : ℕ) : ((trueEntries pos uOff ms).map Member.uncompressedSize).sum=(content ms).length := by
  induction ms generalizing pos uOff with
  | nil => rfl
  | cons m ms ih => rw [trueEntries,map_cons,sum_cons,ih,content_cons,length_append]

theorem split_at (hm : ms[i]?=some m) : ms=ms.take i++m::ms.drop (i+1) := by
  obtain ⟨hlt,hget⟩:=List.getElem?_eq_some_iff.mp hm
  rw [←hget,getElem_cons_drop,take_append_drop]

theorem decodesMember_at (hlz : DecodesAll lz ms) (hm : ms[i]?=some m) : DecodesMember lz m (ms.drop (i+1)) := by
  induction ms generalizing i with
  | nil => cases hm
  | cons m' ms ih =>
    cases i with
    | zero =>
      obtain rfl : m'=m:=Option.some.inj hm
      exact hlz.1
    | succ i => exact ih hlz.2 hm

/-- The reader's entries are the true ones, and its cache holds a member's data. -/
structure Ready (ms : List LzipMember) (r : LzipReader) : Prop where
  members_eq : r.members = trueEntries 0 0 ms
  size_eq : r.size = (content ms).length
  pos_lt : r.pos < 2 ^ 63
  cached : ∀ i data, r.cache = some (i,data) → ∃ m, ms[i]? = some m ∧ data = m.data

theorem load_eq (hlz : DecodesAll lz ms) (hr : Ready ms r) (hm : ms[i]?=some m) :
    ensureMember.load lz (encodeAll ms) r i = .ok m.data := by
  have hblob : (encodeAll ms).slice (encodeAll (ms.take i)).length m.encode.length=m.encode := by
    have hall : encodeAll ms=encodeAll (ms.take i)++(m.encode++encodeAll (ms.drop (i+1))) := by
      conv_lhs => rw [split_at hm]
      rw [encodeAll,flatMap_append]
      rfl
    rw [hall]
    exact slice_append _ _ _ rfl rfl
  have hpayload : lz (dictSizeFromCode m.dictCode) (some m.data.length) m.stream=some m.data := by
    have htake:=(decodesMember_at hlz hm m.stream.length le_rfl (by rw [length_restOf]; omega)).2 m.data.length
    rwa [if_pos ⟨le_rfl,m.packet_end⟩,take_length,restOf,take_left] at htake
  have hdecode : decompressMember lz m.encode m.dictCode (some m.data.length) = .ok m.data := by
    apply ok_of_toOption
    rw [LzipMember.encode,←append_assoc,decompressMember_blob m.dictCode (length_trailer m),Option.bind_some,hpayload]
    rfl
  rw [ensureMember.load,hr.members_eq,getElem_trueEntries hm]
  simp only [zero_add,Nat.add_sub_cancel_left,hblob]
  rw [if_neg (lt_irrefl _)]
  exact hdecode

theorem ensureMember_eq (hlz : DecodesAll lz ms) (hr : Ready ms r) (hm : ms[i]?=some m) :
    ensureMember lz (encodeAll ms) r i = .ok m.data := by
  rw [ensureMember]
  cases hcache : r.cache with
  | none => exact load_eq hlz hr hm
  | some c =>
    obtain ⟨j,data⟩:=c
    dsimp only
    split_ifs with hj
    · obtain ⟨m',hm',rfl⟩:=hr.cached j data hcache
      rw [hj,hm] at hm'
      rw [Option.some.inj hm']
    · exact load_eq hlz hr hm

theorem read_ready (hlz : DecodesAll lz ms) (hr : Ready ms r) (hsize : (content ms).length<2^63) (n : ℕ) :
    Ready ms (r.read lz (encodeAll ms) n).1 ∧
      Answers (content ms) r.pos (.read n) (r.read lz (encodeAll ms) n).2 (r.read lz (encodeAll ms) n).1.pos := by
  rw [LzipReader.read]
  split_ifs with hnone
  · refine ⟨hr, nil_prefix,Nat.zero_le _,?_,rfl⟩
    rw [hr.size_eq] at hnone
    omega
  · obtain ⟨hn,hlt⟩:=not_or.mp hnone
    rw [hr.size_eq] at hlt
    obtain ⟨i,m,hm,hfind,hbefore,hwithin⟩:=@findIn_eq ms 0 0 r.pos (Nat.zero_le _) (by omega)
    obtain ⟨within,hw⟩ : ∃w,w=r.pos - (content (ms.take i)).length:=⟨_,rfl⟩
    rw [Nat.sub_zero,←hw] at hfind hwithin
    have hfound : r.find r.pos=(i,within) := by
      rw [LzipReader.find,hr.members_eq,hfind]
    rw [hfound]
    simp only [ensureMember_eq hlz hr hm]
    rw [if_neg (by omega)]
    have hout : (m.data.slice within n).length=min n (m.data.length-within):=length_slice _ _ _
    have hpiece : m.data.slice within n <+: (content ms).drop r.pos := by
      have hcontent : (content ms).drop r.pos=m.data.drop within++content (ms.drop (i+1)) := by
        conv_lhs => rw [split_at hm]
        rw [content,flatMap_append,flatMap_cons,drop_append,drop_eq_nil_of_le (by
          exact hbefore),nil_append]
        change (m.data++content (ms.drop (i+1))).drop (r.pos-(content (ms.take i)).length)=_
        rw [←hw,drop_append_of_le_length (by omega)]
      rw [hcontent]
      exact ( take_prefix _ _).trans (prefix_append _ _)
    refine ⟨⟨hr.members_eq,hr.size_eq,?_,?_⟩,hpiece,by omega,?_,rfl⟩
    · have hle:=hpiece.length_le
      rw [length_drop] at hle
      dsimp only
      omega
    · intro j data hcache
      obtain ⟨rfl,rfl⟩:=Prod.mk.inj (Option.some.inj hcache)
      exact ⟨m,hm,rfl⟩
    · intro _ _ hnil
      rw [hnil,length_nil] at hout
      omega

theorem step_ready (hlz : DecodesAll lz ms) (hr : Ready ms r) (hsize : (content ms).length<2^63) {call : Call}
    (hfits : call.Fits) : Ready ms (r.step lz (encodeAll ms) call).1 ∧
      Answers (content ms) r.pos call (r.step lz (encodeAll ms) call).2 (r.step lz (encodeAll ms) call).1.pos := by
  cases call with
  | read n => exact read_ready hlz hr hsize n
  | seek dest =>
    rw [LzipReader.step,LzipReader.seek]
    by_cases hneg : seekTarget r.size r.pos dest<0
    · simp only [if_pos hneg]
      exact ⟨hr,rfl⟩
    · simp only [if_neg hneg]
      obtain ⟨htarget,hlt⟩:=seekTarget_spec (hr.size_eq ▸ hsize) hr.pos_lt hfits (Int.not_lt.mp hneg)
      exact ⟨⟨hr.members_eq,hr.size_eq,hlt,hr.cached⟩,hr.size_eq ▸ htarget,rfl⟩

/-- Every member has its entry, and the reader over the entries shows the data of all members. -/
def IndexesAll (lz : Lzma) (ms : List LzipMember) : Prop :=
  ∃ entries, indexLzipFile lz (encodeAll ms) = .ok entries ∧ entries = trueEntries 0 0 ms ∧
    ∀ calls : List Call, (∀ call ∈ calls, call.Fits) →
      RunsWell (LzipReader.step lz (encodeAll ms)) LzipReader.pos (content ms) (fun _ => True) (openReader entries) calls

/-- The members of a file are indexed if and only if nothing behind a member's trailer looks like one. -/
theorem indexesAll_iff (hne : ms ≠ []) (hlz : DecodesAll lz ms) (hfits : ∀ m ∈ ms, m.Fits)
    (hsize : (content ms).length < 2 ^ 63) : IndexesAll lz ms ↔ Unambiguous ms := by
  have hturns : ms.length + 1 ≤ (encodeAll ms).length + 1 := by
    have hle : ∀ ms : List LzipMember, ms.length ≤ (encodeAll ms).length := by
      intro ms
      induction ms with
      | nil => exact Nat.zero_le _
      | cons m ms ih =>
        rw [length_cons,encodeAll_cons,length_append,length_encode]
        omega
    have := hle ms
    omega
  have hindex := indexFrom_iff hlz hfits [] 0 hturns
  rw [nil_append,length_nil] at hindex
  constructor
  · rintro ⟨entries,hok,rfl,-⟩
    obtain ⟨members,hmembers,hok⟩ := bind_ok hok
    split_ifs at hok
    rw [Except.ok.inj hok] at hmembers
    exact hindex.mp hmembers
  · intro hall
    refine ⟨trueEntries 0 0 ms,?_,rfl,?_⟩
    · obtain ⟨m,rest,rfl⟩ := exists_cons_of_ne_nil hne
      rw [indexLzipFile,hindex.mpr hall]
      rfl
    · intro calls hcalls
      refine @runsWell_of _ _ _ _ _ (Ready ms) Call.Fits (fun r call hcall hr => step_ready hlz hr hsize hcall)
        (fun _ _ => trivial) calls hcalls _ ?_
      exact ⟨rfl,sum_trueEntries 0 0,Nat.pow_pos Nat.two_pos,nofun⟩

/-- 192 times the letter A: a literal and a match. -/
def runMember : LzipMember where
  dictCode := 12
  stream := [0,32,239,87,7,255,255,255,255,128,0,0,0]
  data := replicate 192 65
  packet n := n = 0 ∨ n = 1 ∨ n = 192
  crc := [188,28,75,225]
  packet_end := by decide +kernel
  crc_length := rfl

/-- The letter B. -/
def letterMember : LzipMember where
  dictCode := 12
  stream := [0,33,65,251,255,255,255,224,0,0,0]
  data := [66]
  packet n := n = 0 ∨ n = 1
  crc := [49,207,208,74]
  packet_end := by decide +kernel
  crc_length := rfl

/-- No data: the end marker alone. -/
def emptyMember : LzipMember where
  dictCode := 12
  stream := [0,131,255,251,255,255,192,0,0,0]
  data := []
  packet n := n = 0
  crc := [0,0,0,0]
  packet_end := by decide +kernel
  crc_length := rfl

/-- A decoder for the streams of these members. -/
def sampleLzma : Lzma := fun _ hint payload =>
  ([runMember,letterMember,emptyMember].find? fun m => m.stream.isPrefixOf payload).bind fun m =>
    match hint with
    | none => if payload.length = m.stream.length then some m.data else none
    | some n => if n ≤ m.data.length ∧ m.packet n = true then some (m.data.take n) else none

theorem sample_decodes {m : LzipMember} (h : ∀rest,([runMember,letterMember,emptyMember].find? fun other =>
    other.stream.isPrefixOf (m.stream++rest))=some m) (ms : List LzipMember) : DecodesMember sampleLzma m ms := by
  intro p hp hle
  have htake : (restOf m ms).take p=m.stream++(m.trailer++encodeAll ms).take (p-m.stream.length) := by
    rw [restOf,take_append,take_of_length_le hp]
  have hlength : ((restOf m ms).take p).length=p := by
    rw [length_take,min_eq_left hle]
  rw [htake] at hlength ⊢
  simp only [sampleLzma,h,Option.bind_some,hlength,implies_true,and_self]

theorem indexesAll_two : IndexesAll sampleLzma [runMember,letterMember] := by
  have hlz : DecodesAll sampleLzma [runMember,letterMember] :=
    ⟨sample_decodes (fun _ => rfl) _,sample_decodes (fun _ => rfl) _,trivial⟩
  have hfits : ∀ m ∈ [runMember,letterMember], m.encode.length < 2 ^ 64 ∧ m.data.length < 2 ^ 64 := by
    decide +kernel
  refine (indexesAll_iff (cons_ne_nil _ _) hlz hfits (by decide +kernel)).mpr ⟨?_,?_,trivial⟩
  · intro p hp htaken
    have hnone : ∀ p < 60, 13 < p → ¬ TakenAt runMember [letterMember] p := by
      decide +kernel
    have hlen : p + 20 ≤ 70 := htaken.1.1
    exact hnone p (by omega) hp htaken
  · intro p hp htaken
    have hlen : p + 20 ≤ 31 := htaken.1.1
    have hp : 11 < p := hp
    omega

/-- An empty member behind 192 bytes of data: its data size and what stands before it are taken for the first one's
member size and data size. -/
theorem empty_member_lost :
    indexLzipFile sampleLzma (encodeAll [runMember,emptyMember]) = .ok [⟨0,67,0,192,12⟩] ∧
      DecodesAll sampleLzma [runMember,emptyMember] ∧ ¬ IndexesAll sampleLzma [runMember,emptyMember] := by
  have hindex : indexLzipFile sampleLzma (encodeAll [runMember,emptyMember]) = .ok [⟨0,67,0,192,12⟩] := by
    decide +kernel
  refine ⟨hindex,⟨sample_decodes (fun _ => rfl) _,sample_decodes (fun _ => rfl) _,trivial⟩,?_⟩
  rintro ⟨entries,hok,rfl,-⟩
  rw [hindex] at hok
  exact absurd hok (by decide +kernel)

end Ratarmount.Lzip
