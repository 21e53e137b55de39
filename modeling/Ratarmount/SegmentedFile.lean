import Ratarmount.PieceCursors

/-!
# Views over segments of a file

`SegmentedFile` presents ranges of an archive and runs of zeros as one file, and
`StenciledFile` does the same for ranges alone. The archive's reader may return
fewer bytes than it is asked for.
-/

namespace Ratarmount.Compress

open Seekable List Bytes

inductive FileSegment
  | data (fileOffset len : ℕ)
  | zero (len : ℕ)
  deriving DecidableEq

namespace FileSegment

def len : FileSegment → ℕ
  | data _ len => len
  | zero len => len

/-- What the segment stands for over an archive. -/
def bytes (base : Bytes) : FileSegment → Bytes
  | data fileOffset len => base.slice fileOffset len
  | zero len => zeros len

def Within (size : ℕ) : FileSegment → Prop
  | data fileOffset len => fileOffset + len ≤ size
  | zero _ => True

/-- Every offset of the segment is a 64-bit word. -/
def InRange : FileSegment → Prop
  | data fileOffset len => fileOffset + len ≤ 2 ^ 64
  | zero _ => True

theorem Within.inRange {size : ℕ} {s : FileSegment} (h : s.Within size) (hsize : size≤2^64) : s.InRange := by
  cases s with
  | data fileOffset len => exact le_trans h hsize
  | zero len => trivial

theorem length_bytes {base : Bytes} {s : FileSegment} (h : s.Within base.length) : (s.bytes base).length=s.len := by
  cases s with
  | data fileOffset len =>
    have h : fileOffset+len≤base.length:=h
    rw [bytes,length_slice,FileSegment.len]
    omega
  | zero len => exact length_zeros len

end FileSegment

structure SegmentedFile where
  segments : List FileSegment
  pos : ℕ

/-- `as i64`, and the additions of a release build. -/
def i64 (n : ℤ) : ℤ := (n + 2 ^ 63) % 2 ^ 64 - 2 ^ 63

namespace SegmentedFile

def new (segments : List FileSegment) : SegmentedFile where
  segments := segments.filter (fun s => 0 < s.len)
  pos := 0

/-- `StenciledFile::new`: a view without holes. -/
def stenciled (regions : List (ℕ × ℕ)) : SegmentedFile := new (regions.map fun r => .data r.1 r.2)

def size (segments : List FileSegment) : ℕ := (segments.map FileSegment.len).sum

/-- The segment at a position and the offset in it, as the loop over the cumulative sizes finds them. -/
def locate : List FileSegment → ℕ → Option (FileSegment × ℕ)
  | [], _ => none
  | s :: segments, pos => if s.len ≤ pos then locate segments (pos - s.len) else some (s,pos)

section Calls

variable (base : Bytes) (inner : Chunking base.length)

/-- The offset in the archive is a sum of 64-bit words. -/
def read (f : SegmentedFile) (n : ℕ) : SegmentedFile × Reply :=
  if n = 0 ∨ size f.segments ≤ f.pos then (f,.bytes [])
  else
    match locate f.segments f.pos with
    | none => (f,.bytes [])
    | some (.data fileOffset len,into) =>
      let offset := (fileOffset + into) % 2 ^ 64
      let got := base.slice offset (inner.chunk offset (min (len - into) n))
      ({ f with pos := f.pos + got.length },.bytes got)
    | some (.zero len,into) =>
      let got := zeros (min (len - into) n)
      ({ f with pos := f.pos + got.length },.bytes got)

def seek (f : SegmentedFile) (dest : SeekFrom) : SegmentedFile × Reply :=
  let new : ℤ := match dest with
    | .start offset => i64 offset
    | .fromEnd offset => i64 (i64 (size f.segments) + offset)
    | .current offset => i64 (i64 f.pos + offset)
  if new < 0 then (f,.error) else ({ f with pos := new.toNat },.moved new.toNat)

def step (f : SegmentedFile) (call : Call) (_ : Unit) : SegmentedFile × Reply :=
  match call with
  | .seek dest => f.seek dest
  | .read n => f.read base inner n

end Calls

def content (base : Bytes) (segments : List FileSegment) : Bytes := segments.flatMap (FileSegment.bytes base)

variable {base : Bytes} {segments : List FileSegment}

@[simp] theorem content_nil : content base []=[] := rfl

@[simp] theorem content_cons (s : FileSegment) : content base (s::segments)=s.bytes base++content base segments := rfl

@[simp] theorem content_append (segments' : List FileSegment) :
    content base (segments++segments')=content base segments++content base segments' := by
  simp [content]

@[simp] theorem size_cons (s : FileSegment) : size (s::segments)=s.len+size segments := by
  simp [size]

theorem length_content (h : ∀s∈segments,s.Within base.length) : (content base segments).length=size segments := by
  induction segments with
  | nil => rfl
  | cons s segments ih =>
    rw [content_cons,size_cons,length_append,FileSegment.length_bytes (h s mem_cons_self),
      ih fun s hs => h s (mem_cons_of_mem _ hs)]

/-- Dropping the empty segments changes nothing that is shown. -/
theorem content_new (segments : List FileSegment) : content base (new segments).segments=content base segments := by
  induction segments with
  | nil => rfl
  | cons s segments ih =>
    rw [new] at ih ⊢
    by_cases hs : 0<s.len
    · rw [filter_cons_of_pos (by simpa using hs),content_cons,content_cons,ih]
    · have hempty : s.bytes base=[] := by
        cases s with
        | data fileOffset len =>
          have hlen : len=0 := by simpa [FileSegment.len] using hs
          rw [hlen,FileSegment.bytes,slice,take_zero]
        | zero len =>
          have hlen : len=0 := by simpa [FileSegment.len] using hs
          rw [hlen]
          rfl
      rw [filter_cons_of_neg (by simpa using hs),content_cons,ih,hempty,nil_append]

/-- Where the loop stops. -/
theorem locate_split {s : FileSegment} {pos into : ℕ} (hl : locate segments pos=some (s,into)) :
    into<s.len ∧ ∃pre post,segments=pre++s::post ∧ pos=(pre.map FileSegment.len).sum+into := by
  induction segments generalizing pos with
  | nil => cases hl
  | cons x segments ih =>
    rw [locate] at hl
    split_ifs at hl with hle
    · obtain ⟨hinto,pre,post,rfl,hpos⟩:=ih hl
      refine ⟨hinto,x::pre,post,rfl,?_⟩
      rw [map_cons,sum_cons]
      omega
    · cases hl
      exact ⟨not_le.mp hle,[],segments,rfl,by simp⟩

theorem locate_none {pos : ℕ} (hl : locate segments pos=none) : size segments≤pos := by
  induction segments generalizing pos with
  | nil => exact Nat.zero_le _
  | cons x segments ih =>
    rw [locate] at hl
    split_ifs at hl with hle
    have := ih hl
    rw [size_cons]
    omega

/-- How many bytes a read delivers: the inner reader's answer within a range, all that is asked for within a hole. -/
def chunkAt (inner : Chunking base.length) (segments : List FileSegment) (pos n : ℕ) : ℕ :=
  match locate segments pos with
  | none => 0
  | some (.data fileOffset len,into) => inner.chunk ((fileOffset + into) % 2 ^ 64) (min (len - into) n)
  | some (.zero len,into) => min (len - into) n

variable {inner : Chunking base.length}

theorem bytes_fits (s : FileSegment) : (s.bytes base).length ≤ s.len := by
  cases s <;> simp [FileSegment.bytes,FileSegment.len,zeros]

/-- What the view shows of an archive that may end within a segment. -/
def pieces (base : Bytes) (segments : List FileSegment) : List (Option UInt8) :=
  concatenation FileSegment.len (FileSegment.bytes base) segments

theorem length_pieces (segments : List FileSegment) : (pieces base segments).length=size segments :=
  length_concatenation bytes_fits segments

theorem read_cursor (f : SegmentedFile) (hrange : ∀s∈f.segments,s.InRange) (n : ℕ) :
    ∃out,f.read base inner n=({ f with pos := f.pos+out.length },.bytes out) ∧
      CursorStep (pieces base f.segments) f.pos (.read n) (.bytes out) (f.pos+out.length) ∧
        out.length=chunkAt inner f.segments f.pos n := by
  rw [read,chunkAt]
  cases hl : locate f.segments f.pos with
  | none =>
    have hend:=locate_none hl
    rw [if_pos (.inr hend)]
    exact ⟨[],rfl,cursorStep_end (.inr (length_pieces f.segments ▸ hend)),rfl⟩
  | some x =>
    obtain ⟨s,into⟩:=x
    obtain ⟨hinto,pre,post,hsegments,hpos⟩:=locate_split hl
    have hlt : f.pos<size f.segments := by
      rw [hsegments,hpos,size,map_append,sum_append,map_cons,sum_cons]
      omega
    by_cases hn : n=0
    · rw [if_pos (.inl hn)]
      refine ⟨[],rfl,cursorStep_end (.inl hn),?_⟩
      cases s with
      | data fileOffset len =>
        have := inner.le_asked ((fileOffset+into) % 2^64) (min (len-into) n)
        dsimp only [length_nil]
        omega
      | zero len => simp [hn]
    rw [if_neg (by omega),pieces,hsegments]
    cases s with
    | data fileOffset len =>
      have hfits : fileOffset+len≤2^64:=hrange (.data fileOffset len) (by rw [hsegments]; simp)
      have hinto' : into<len:=hinto
      have hle:=inner.le_size (fileOffset+into) (min (len-into) n)
      have hword : (fileOffset+into) % 2^64=fileOffset+into:=Nat.mod_eq_of_lt (by omega)
      simp only [hword]
      refine ⟨_,rfl,cursorStep_source bytes_fits inner rfl hinto hpos rfl,?_⟩
      rw [length_slice]
      omega
    | zero len =>
      have hzeros : zeros (min (len-into) n)=((FileSegment.zero len).bytes base).slice into (min (len-into) n) := by
        simp [FileSegment.bytes,zeros,slice]
      refine ⟨_,rfl,?_,length_zeros _⟩
      rw [hzeros]
      exact cursorStep_read bytes_fits (Nat.min_le_right _ _) (fun _ _ => by have := hinto; simp only [FileSegment.len] at this; omega) hinto hpos

theorem i64_eq (n : ℤ) : i64 n=Int.bmod n (2^64) := by
  rw [i64,Int.bmod]
  split_ifs <;> omega

theorem seek_eq (f : SegmentedFile) (dest : SeekFrom) :
    f.seek dest=if seekTarget (size f.segments) f.pos dest<0 then (f,.error)
      else ({ f with pos := (seekTarget (size f.segments) f.pos dest).toNat },
        .moved (seekTarget (size f.segments) f.pos dest).toNat) := by
  cases dest with
  | start offset =>
    have heq : seekTarget (size f.segments) f.pos (.start offset)=i64 offset:=(i64_eq offset).symm
    rw [heq,seek]
  | fromEnd offset =>
    have heq : seekTarget (size f.segments) f.pos (.fromEnd offset)=i64 (i64 (size f.segments)+offset) := by
      rw [i64_eq (i64 _+_),i64_eq (size f.segments)]
      rfl
    rw [heq,seek]
  | current offset =>
    have heq : seekTarget (size f.segments) f.pos (.current offset)=i64 (i64 f.pos+offset) := by
      rw [i64_eq (i64 _+_),i64_eq f.pos]
      rfl
    rw [heq,seek]

/-- Every call is answered from the pieces, whatever the archive delivers during it. -/
theorem step_cursor (f : SegmentedFile) (hrange : ∀s∈f.segments,s.InRange) {call : Call} (hcall : call.Fits) (hsize : size f.segments<2^63)
    (hpos : f.pos<2^63) : (step base inner f call ()).1.segments=f.segments ∧
      CursorStep (pieces base f.segments) f.pos call (step base inner f call ()).2 (step base inner f call ()).1.pos := by
  cases call with
  | read n =>
    obtain ⟨out,hread,hcursor,-⟩:=@read_cursor base inner f hrange n
    rw [step,hread]
    exact ⟨rfl,hcursor⟩
  | seek dest =>
    have hseek:=@cursorStep_seek (pieces base f.segments) f.pos (by rwa [length_pieces]) hpos dest hcall _ rfl
    rw [length_pieces] at hseek
    rw [step,seek_eq]
    split_ifs at hseek ⊢ <;> exact ⟨rfl,hseek⟩

section Within

variable (h : ∀ s ∈ segments, s.Within base.length) (hbase : base.length ≤ 2 ^ 64)
include h

theorem pieces_eq : pieces base segments=(content base segments).map some := by
  rw [pieces,concatenation,content,map_flatMap,flatMap_def]
  congr 1
  apply map_congr_left
  intro s hs
  rw [shown,FileSegment.length_bytes (h s hs),Nat.sub_self,replicate_zero,append_nil]

include hbase in
/-- The view of segments within the archive reads as its content does. -/
theorem read_within (pos n : ℕ) :
    ∃out,(⟨segments,pos⟩ : SegmentedFile).read base inner n=(⟨segments,pos+out.length⟩,.bytes out) ∧
      out <+: (content base segments).drop pos ∧ out.length≤n ∧ (pos<(content base segments).length → 0<n → out≠[]) ∧
        out.length=chunkAt inner segments pos n := by
  obtain ⟨out,hread,⟨hout,hle,hne,-⟩,hchunk⟩:=@read_cursor base inner ⟨segments,pos⟩ (fun s hs => (h s hs).inRange hbase) n
  rw [pieces_eq h] at hout hne
  rw [←map_drop] at hout
  refine ⟨out,hread,?_,hle,fun hlt => hne (content base segments)[pos] (by simp [hlt]),hchunk⟩
  have htake:=prefix_iff_eq_take.mp hout
  rw [←map_take,length_map] at htake
  exact prefix_iff_eq_take.mpr (map_injective_iff.mpr (Option.some_injective UInt8) htake)

end Within

def chunking (inner : Chunking base.length) (h : ∀ s ∈ segments, s.Within base.length) (hbase : base.length ≤ 2 ^ 64) :
    Chunking (content base segments).length where
  chunk := chunkAt inner segments
  le_asked pos n := by
    obtain ⟨out,-,-,hle,-,hchunk⟩ := @read_within base segments inner h hbase pos n
    rwa [← hchunk]
  pos_of_lt pos n hn hpos := by
    obtain ⟨out,-,-,-,hne,hchunk⟩ := @read_within base segments inner h hbase pos n
    rw [← hchunk]
    exact length_pos_of_ne_nil (hne hpos (Nat.pos_of_ne_zero hn))
  le_size pos n := by
    obtain ⟨out,-,hout,-,-,hchunk⟩ := @read_within base segments inner h hbase pos n
    have hlen := hout.length_le
    rw [length_drop] at hlen
    omega

/-- Every run of the view answers like its content. -/
theorem run_obeys_content (inner : Chunking base.length) (h : ∀s∈segments,s.Within base.length)
    (hbase : base.length≤2^64) (hsize : size segments<2^63) (calls : List (Call × Unit)) (hcalls : ∀x∈calls,x.1.Fits) :
    RunObeys (content base segments) (chunking inner h hbase) 0 (run (step base inner) SegmentedFile.pos ⟨segments,0⟩ calls) := by
  refine @run_obeys _ _ (step base inner) SegmentedFile.pos _ _
    (fun f => f.segments=segments ∧ f.pos<2^63) Call.Fits ?_ calls hcalls ⟨segments,0⟩ ⟨rfl,Nat.two_pow_pos 63⟩
  rintro ⟨own,pos⟩ call _ hfits ⟨rfl : own=segments,hpos⟩
  have hlength:=@length_pieces base own
  have hstep:=@step_cursor base inner ⟨own,pos⟩ (fun s hs => (h s hs).inRange hbase) call hfits hsize hpos
  refine ⟨⟨hstep.1,hstep.2.lt (by dsimp only at hlength ⊢; omega) hpos⟩,?_⟩
  cases call with
  | read n =>
    obtain ⟨out,hread,hout,-,-,hchunk⟩:=@read_within base own inner h hbase pos n
    have htake:=prefix_iff_eq_take.mp hout
    rw [hchunk] at htake
    rw [step,hread]
    exact ⟨htake,rfl⟩
  | seek dest =>
    rcases hseek : step base inner ⟨own,pos⟩ (.seek dest) () with ⟨f,reply⟩
    rw [hseek] at hstep
    rw [pieces_eq h] at hstep
    cases reply with
    | moved p => exact ⟨by simpa using hstep.2.1,hstep.2.2.2⟩
    | bytes out => exact hstep.2
    | error => exact hstep.2.2

end SegmentedFile

end Ratarmount.Compress
