import Ratarmount.ExceptRuns
import Ratarmount.SeekableBytes
import Ratarmount.StreamingDecoder

/-!
# Gzip members

The handle through which a gzip stream is read, private or shared with other
readers, the member header, and the members that a file lays out one after another.
-/

namespace Ratarmount.Gzip

open Streaming List Bytes

inductive GzipError
  | truncatedHeader
  | unsupportedMethod (method : UInt8)
  | unexpectedEof
  | inflate
  | endedUnexpectedly
  | diverged
  | blobTooShort (length : ℕ)
  | badMagic (magic : Bytes)
  | unsupportedVersion (version : ℕ)
  | unknownFlags (flags : ℕ)
  | blobTruncated (length need count : ℕ)
  | pointsNotSorted
  | unusablePoints
  | cannotLand (wanted reached : ℕ)
  | offsetMismatch (offset wanted reached : ℕ)
  | missedPoints (missed total decoded : ℕ)
  | sizeMismatch (expected decoded : ℕ)
  | seekBeforeStart
  deriving DecidableEq, Repr

/-- The compressed stream: how much each turn's read delivers, and where the other readers have left
the shared cursor when this reader takes the lock. -/
structure Backend (file : Bytes) where
  serve : ℕ → Seekable.Chunking file.length
  others : ℕ → ℕ

/-- A file of one's own, or a logical position in a shared stream. The turn counts the reads. -/
inductive Handle
  | file (cursor turn : ℕ)
  | shared (pos turn : ℕ)
  deriving DecidableEq

def Handle.offset : Handle → ℕ
  | .file cursor _ => cursor
  | .shared pos _ => pos

def Handle.seekStart (offset : ℕ) : Handle → Handle
  | .file _ turn => .file offset turn
  | .shared _ turn => .shared offset turn

@[simp] theorem offset_seekStart (h : Handle) (offset : ℕ) : (h.seekStart offset).offset=offset := by
  cases h <;> rfl

structure Stream where
  cursor : ℕ

def Stream.seekStart (_ : Stream) (offset : ℕ) : Stream := ⟨offset⟩

variable {file : Bytes}

def Stream.read (io : Backend file) (turn : ℕ) (stream : Stream) (n : ℕ) : Bytes :=
  file.slice stream.cursor ((io.serve turn).chunk stream.cursor n)

def Backend.read (io : Backend file) (handle : Handle) (n : ℕ) : Bytes × Handle :=
  match handle with
  | .file cursor turn =>
    let got := Stream.read io turn ⟨cursor⟩ n
    (got,.file (cursor + got.length) (turn + 1))
  | .shared pos turn =>
    -- under the lock the cursor is moved before it is read
    let stream := Stream.seekStart ⟨io.others turn⟩ pos
    let got := Stream.read io turn stream n
    (got,.shared (pos + got.length) (turn + 1))

/-- Every read is answered in full, up to the end of the file. -/
def Backend.whole (file : Bytes) : Backend file where
  serve _ := {
    chunk := fun pos n => min n (file.length - pos)
    le_asked := by intros; omega
    pos_of_lt := by intros; omega
    le_size := by intros; omega }
  others _ := 0

/-- A read delivers some of the bytes at the handle's own offset, whatever the other readers do. -/
theorem read_spec (io : Backend file) (h : Handle) (n : ℕ) :
    ∃k h',io.read h n=(file.slice h.offset k,h') ∧ k≤n ∧ h.offset+k ≤ max h.offset file.length ∧
      (0<n → h.offset<file.length → 0<k) ∧ h'.offset=h.offset+(file.slice h.offset k).length := by
  cases h with
  | file cursor turn =>
    exact ⟨(io.serve turn).chunk cursor n,_,rfl,(io.serve turn).le_asked cursor n,(io.serve turn).le_size cursor n,
      fun hn hlt => (io.serve turn).pos_of_lt cursor n (by omega) hlt,rfl⟩
  | shared pos turn =>
    exact ⟨(io.serve turn).chunk pos n,_,rfl,(io.serve turn).le_asked pos n,(io.serve turn).le_size pos n,
      fun hn hlt => (io.serve turn).pos_of_lt pos n (by omega) hlt,rfl⟩

def Backend.readAt (io : Backend file) (offset n : ℕ) (h : Handle) : Bytes × Handle :=
  io.read (h.seekStart offset) n

theorem readAt_fst (io : Backend file) (offset n : ℕ) (h : Handle) :
    ∃turn,(io.readAt offset n h).1=file.slice offset ((io.serve turn).chunk offset n) := by
  cases h with
  | file cursor turn => exact ⟨turn,rfl⟩
  | shared pos turn => exact ⟨turn,rfl⟩

theorem readAt_spec (io : Backend file) (offset n : ℕ) (h : Handle) (hn : 0<n) :
    ∃k h',io.readAt offset n h=(file.slice offset k,h') ∧ k≤n ∧ 0<k := by
  obtain ⟨k,h',hread,hle,-,hpos,-⟩:=read_spec io (h.seekStart offset) n
  rw [offset_seekStart] at hread hpos
  by_cases hlt : offset<file.length
  · exact ⟨k,h',hread,hle,hpos hn hlt⟩
  · refine ⟨n,h',?_,le_refl n,hn⟩
    have hnil : ∀m,file.slice offset m=[]:=fun m => by
      rw [slice,drop_eq_nil_of_le (by omega),take_nil]
    rw [Backend.readAt,hread,hnil,hnil]

/-- `read_exact` of `n` bytes: reads on until they are there. No read of it is empty but the last, so `n` reads suffice. -/
def readExactIn (io : Backend file) : ℕ → ℕ → Handle → Except GzipError (Bytes × Handle)
  | _, 0, h => .ok ([],h)
  | 0, _ + 1, _ => .error .unexpectedEof
  | turns + 1, n + 1, h =>
    let (got,h) := io.read h (n + 1)
    if got = [] then .error .unexpectedEof
    else do
      let (more,h) ← readExactIn io turns (n + 1 - got.length) h
      .ok (got ++ more,h)

def readExact (io : Backend file) (n : ℕ) (h : Handle) : Except GzipError (Bytes × Handle) := readExactIn io n n h

theorem readExactIn_eq (io : Backend file) {turns n : ℕ} (h : Handle) (hturns : n≤turns) :
    ∃h',readExactIn io turns n h =
        (if n=0 ∨ h.offset+n≤file.length then .ok (file.slice h.offset n,h') else .error .unexpectedEof) ∧
      h'.offset=h.offset+n := by
  induction turns generalizing n h with
  | zero =>
    obtain rfl : n=0 := by omega
    exact ⟨h,rfl,rfl⟩
  | succ turns ih =>
    cases n with
    | zero => exact ⟨h,rfl,rfl⟩
    | succ n =>
      obtain ⟨k,h',hread,hk,-,hpos,hoff⟩:=read_spec io h (n+1)
      have hlength:=length_slice file h.offset k
      rw [readExactIn,hread]
      by_cases hnil : file.slice h.offset k=[]
      · rw [hnil,length_nil] at hlength
        refine ⟨h.seekStart (h.offset+(n+1)),?_,offset_seekStart _ _⟩
        rw [if_neg (by omega)]
        exact if_pos hnil
      · have hsome:=length_pos_of_ne_nil hnil
        obtain ⟨h'',hrest,hoff'⟩:=@ih (n+1 - (file.slice h.offset k).length) h' (by omega)
        refine ⟨h'',?_,by omega⟩
        simp only [hnil,if_false,hrest]
        by_cases hfits : h.offset+(n+1)≤file.length
        · have hsplit : file.slice h.offset k++file.slice h'.offset (n+1-(file.slice h.offset k).length) =
              file.slice h.offset (n+1) := by
            have hall : (file.slice h.offset k).length=k := by omega
            have hsum : n+1=k+(n+1-k) := by omega
            rw [hoff,hall,slice,slice,slice,←drop_drop,←take_add,←hsum]
          rw [if_pos (.inr (by omega)),if_pos (.inr hfits),←hsplit]
          rfl
        · rw [if_neg (by omega),if_neg (by omega)]
          rfl

/-- What `read_exact` delivers depends on the file and the offset only. -/
theorem readExact_eq (io : Backend file) (n : ℕ) (h : Handle) : ∃h',readExact io n h =
        (if n=0 ∨ h.offset+n≤file.length then .ok (file.slice h.offset n,h') else .error .unexpectedEof) ∧
      h'.offset=h.offset+n := readExactIn_eq io h (le_refl n)

/-- The loop of `skip_c_string`: a byte at a time up to the terminating zero. -/
def skipCStringIn (io : Backend file) : ℕ → ℕ → Handle → Except GzipError (ℕ × Handle)
  | 0, _, _ => .error .diverged
  | turns + 1, pos, h => do
    let (b,h) ← readExact io 1 h
    if b = [0] then .ok (pos + 1,h) else skipCStringIn io turns (pos + 1) h

def skipCString (io : Backend file) (pos : ℕ) (h : Handle) : Except GzipError (ℕ × Handle) :=
  skipCStringIn io (file.length + 1) pos (h.seekStart pos)

/-- The extra field, of the length that its first two bytes give. -/
def skipExtra (io : Backend file) (pos : ℕ) (h : Handle) : Except GzipError (ℕ × Handle) := do
  let (xlen,h) ← readExact io 2 (h.seekStart pos)
  .ok (pos + (2 + xlen.ofLe),h)

def ifFlag (flg bit : UInt8) (skip : ℕ → Handle → Except GzipError (ℕ × Handle)) (pos : ℕ) (h : Handle) :
    Except GzipError (ℕ × Handle) :=
  if flg &&& bit ≠ 0 then skip pos h else .ok (pos,h)

/-- The optional fields that the flags announce, from `pos` on. -/
def skipOptional (io : Backend file) (flg : UInt8) (pos : ℕ) (h : Handle) : Except GzipError (Option ℕ × Handle) := do
  let (pos,h) ← ifFlag flg 0x04 (skipExtra io) pos h
  let (pos,h) ← ifFlag flg 0x08 (skipCString io) pos h
  let (pos,h) ← ifFlag flg 0x10 (skipCString io) pos h
  .ok (some (if flg &&& 0x02 ≠ 0 then pos + 2 else pos),h)

/-- The offset of the first deflate byte of the member at `offset`, none at the end or in padding. -/
def parseGzipHeader (io : Backend file) (offset : ℕ) (h : Handle) : Except GzipError (Option ℕ × Handle) :=
  let (fixed,h) := io.readAt offset 10 h
  if fixed.length = 0 then .ok (none,h)
  else if fixed.length < 10 then .error .truncatedHeader
  else if fixed.getD 0 0 ≠ 0x1f ∨ fixed.getD 1 0 ≠ 0x8b then .ok (none,h)
  else if fixed.getD 2 0 ≠ 8 then .error (.unsupportedMethod (fixed.getD 2 0))
  else skipOptional io (fixed.getD 3 0) (offset + 10) h

def headerAt (file : Bytes) (offset : ℕ) : Except GzipError (Option ℕ) :=
  (parseGzipHeader (Backend.whole file) offset (.file 0 0)).map Prod.fst

def Alike {α : Type} (x y : Except GzipError (α × Handle)) : Prop := x.map Prod.fst = y.map Prod.fst

theorem ok_of_map_fst {α : Type} {x : Except GzipError (α × Handle)} {a : α} (h : x.map Prod.fst = .ok a) :
    ∃h',x = .ok (a,h') := by
  cases x with
  | error e => cases h
  | ok r => exact ⟨r.2,by rw [←Except.ok.inj h]⟩

theorem alike_bind {α β : Type} {x y : Except GzipError (α × Handle)} {f g : α × Handle → Except GzipError (β × Handle)}
    (h : Alike x y) (hfg : ∀a h h',Alike (f (a,h)) (g (a,h'))) : Alike (x >>= f) (y >>= g) := by
  cases x with
  | error e =>
    cases y with
    | error e' => simp_all [Alike,Except.map,bind,Except.bind]
    | ok b => simp [Alike,Except.map] at h
  | ok a =>
    cases y with
    | error e => simp [Alike,Except.map] at h
    | ok b =>
      obtain ⟨a,ha⟩:=a
      obtain ⟨b,hb⟩:=b
      obtain rfl : a=b := by simpa [Alike,Except.map] using h
      exact hfg a ha hb

theorem skipCStringIn_alike (io io' : Backend file) {turns pos : ℕ} {h h' : Handle} (hoff : h.offset=h'.offset) :
    Alike (skipCStringIn io turns pos h) (skipCStringIn io' turns pos h') := by
  induction turns generalizing pos h h' with
  | zero => rfl
  | succ turns ih =>
    obtain ⟨k,hk,hnext⟩:=readExact_eq io 1 h
    obtain ⟨k',hk',hnext'⟩:=readExact_eq io' 1 h'
    rw [skipCStringIn,skipCStringIn,hk,hk',hoff]
    by_cases hfits : 1=0 ∨ h'.offset+1≤file.length
    · rw [if_pos hfits,if_pos hfits,ok_bind,ok_bind]
      dsimp only
      split_ifs
      · rfl
      · exact ih (by omega)
    · rw [if_neg hfits,if_neg hfits]
      rfl

theorem skipCString_alike (io io' : Backend file) (pos : ℕ) (h h' : Handle) :
    Alike (skipCString io pos h) (skipCString io' pos h') :=
  skipCStringIn_alike io io' (by simp)

theorem skipExtra_alike (io io' : Backend file) (pos : ℕ) (h h' : Handle) :
    Alike (skipExtra io pos h) (skipExtra io' pos h') := by
  obtain ⟨k,hk,-⟩:=readExact_eq io 2 (h.seekStart pos)
  obtain ⟨k',hk',-⟩:=readExact_eq io' 2 (h'.seekStart pos)
  rw [skipExtra,skipExtra,hk,hk',offset_seekStart,offset_seekStart]
  split_ifs <;> rfl

theorem ifFlag_alike {skip skip' : ℕ → Handle → Except GzipError (ℕ × Handle)}
    (hskip : ∀pos h h',Alike (skip pos h) (skip' pos h')) (flg bit : UInt8) (pos : ℕ) (h h' : Handle) :
    Alike (ifFlag flg bit skip pos h) (ifFlag flg bit skip' pos h') := by
  rw [ifFlag,ifFlag]
  split_ifs
  · exact hskip pos h h'
  · rfl

theorem skipOptional_alike (io io' : Backend file) (flg : UInt8) (pos : ℕ) (h h' : Handle) :
    Alike (skipOptional io flg pos h) (skipOptional io' flg pos h') := by
  refine alike_bind (ifFlag_alike (skipExtra_alike io io') _ _ _ _ _) fun pos h h' => ?_
  refine alike_bind (ifFlag_alike (skipCString_alike io io') _ _ _ _ _) fun pos h h' => ?_
  exact alike_bind (ifFlag_alike (skipCString_alike io io') _ _ _ _ _) fun pos h h' => rfl

/-- What is read from a header depends on the first ten bytes delivered and on the file. -/
theorem parseGzipHeader_alike {io io' : Backend file} {offset : ℕ} {h h' : Handle}
    (hread : (io.readAt offset 10 h).1=(io'.readAt offset 10 h').1) :
    Alike (parseGzipHeader io offset h) (parseGzipHeader io' offset h') := by
  obtain ⟨got,k,hgot⟩ : ∃got k,io.readAt offset 10 h=(got,k):=⟨_,_,rfl⟩
  obtain ⟨got',k',hgot'⟩ : ∃got' k',io'.readAt offset 10 h'=(got',k'):=⟨_,_,rfl⟩
  rw [hgot,hgot'] at hread
  obtain rfl : got=got':=hread
  rw [parseGzipHeader,parseGzipHeader,hgot,hgot']
  simp only
  split_ifs
  · rfl
  · rfl
  · rfl
  · rfl
  · exact skipOptional_alike io io' _ _ _ _

theorem readAt_whole (file : Bytes) (offset n : ℕ) (h : Handle) :
    ((Backend.whole file).readAt offset n h).1=file.slice offset n := by
  obtain ⟨turn,hread⟩:=readAt_fst (Backend.whole file) offset n h
  rw [hread]
  change file.slice offset (min n (file.length-offset))=file.slice offset n
  rw [slice,slice,←length_drop,←take_eq_take_min]

/-- A header read is cut short, or gives what the file has there. -/
theorem parseGzipHeader_cases (io : Backend file) (offset : ℕ) (h : Handle) :
    parseGzipHeader io offset h = .error .truncatedHeader ∨
      (parseGzipHeader io offset h).map Prod.fst=headerAt file offset := by
  obtain ⟨k,h',hread,hk,hk0⟩:=readAt_spec io offset 10 h (by omega)
  by_cases hfull : min k (file.length-offset)=min 10 (file.length-offset)
  · have hslice : file.slice offset k=file.slice offset 10 := by
      have hmin : ∀n,file.slice offset n=(file.drop offset).take (min n (file.length-offset)):=fun n => by
        rw [slice,take_eq_take_min,length_drop]
      rw [hmin k,hmin 10,hfull]
    refine .inr (parseGzipHeader_alike ?_)
    rw [hread,readAt_whole,hslice]
  · have hlength : (file.slice offset k).length=k:=slice_length_eq (by omega)
    left
    rw [parseGzipHeader,hread]
    simp only [hlength]
    rw [if_neg (by omega),if_pos (by omega)]

theorem headerAt_of_parse {io : Backend file} {offset : ℕ} {h h' : Handle} {v : Option ℕ}
    (hparse : parseGzipHeader io offset h = .ok (v,h')) : headerAt file offset = .ok v := by
  rcases parseGzipHeader_cases io offset h with herr | heq
  · rw [hparse] at herr
    cases herr
  · rw [←heq,hparse]
    rfl

/-- The read of a header's fixed bytes at `offset` is never cut short. -/
def Backend.WholeAt (io : Backend file) (offset : ℕ) : Prop :=
  ∀ turn, min 10 (file.length - offset) ≤ (io.serve turn).chunk offset 10

theorem parse_of_headerAt {io : Backend file} {offset : ℕ} {v : Option ℕ} (hio : io.WholeAt offset)
    (hv : headerAt file offset = .ok v) (h : Handle) : ∃h',parseGzipHeader io offset h = .ok (v,h') := by
  have hread : (io.readAt offset 10 h).1=file.slice offset 10 := by
    obtain ⟨turn,hread⟩:=readAt_fst io offset 10 h
    have hle:=(io.serve turn).le_asked offset 10
    have hmin:=hio turn
    rw [hread,slice,slice,take_eq_take_iff,length_drop]
    omega
  have halike : (parseGzipHeader io offset h).map Prod.fst=headerAt file offset :=
    parseGzipHeader_alike (hread.trans (readAt_whole file offset 10 _).symm)
  exact ok_of_map_fst (halike.trans hv)

theorem skipCStringIn_le {io : Backend file} {turns pos : ℕ} {h : Handle} {r : ℕ × Handle}
    (hr : skipCStringIn io turns pos h = .ok r) : pos ≤ r.1 := by
  induction turns generalizing pos h with
  | zero => cases hr
  | succ turns ih =>
    obtain ⟨b,-,hb⟩:=bind_ok hr
    by_cases hz : b.1=[0]
    · simp only [hz] at hb
      rw [←Except.ok.inj hb]
      exact Nat.le_succ pos
    · simp only [hz] at hb
      exact (Nat.le_succ pos).trans (ih hb)

theorem skipCString_le {io : Backend file} {pos : ℕ} {h : Handle} {r : ℕ × Handle}
    (hr : skipCString io pos h = .ok r) : pos ≤ r.1 := skipCStringIn_le hr

theorem skipExtra_le {io : Backend file} {pos : ℕ} {h : Handle} {r : ℕ × Handle}
    (hr : skipExtra io pos h = .ok r) : pos ≤ r.1 := by
  obtain ⟨x,-,hx⟩:=bind_ok hr
  rw [←Except.ok.inj hx]
  exact Nat.le_add_right _ _

theorem ifFlag_le {flg bit : UInt8} {skip : ℕ → Handle → Except GzipError (ℕ × Handle)} {pos : ℕ} {h : Handle}
    {r : ℕ × Handle} (hskip : ∀{r},skip pos h = .ok r → pos ≤ r.1) (hr : ifFlag flg bit skip pos h = .ok r) :
    pos ≤ r.1 := by
  rw [ifFlag] at hr
  split_ifs at hr
  · exact hskip hr
  · rw [←Except.ok.inj hr]

/-- The deflate stream starts behind the fixed part of the header. -/
theorem le_of_headerAt {offset headerEnd : ℕ} (h : headerAt file offset = .ok (some headerEnd)) :
    offset+10≤headerEnd := by
  rw [headerAt] at h
  cases hp : parseGzipHeader (Backend.whole file) offset (.file 0 0) with
  | error e =>
    rw [hp] at h
    cases h
  | ok r =>
    rw [hp] at h
    have hsome:=Except.ok.inj h
    rw [parseGzipHeader] at hp
    simp only at hp
    split_ifs at hp
    · rw [←Except.ok.inj hp] at hsome
      cases hsome
    · rw [←Except.ok.inj hp] at hsome
      cases hsome
    · obtain ⟨a,ha,hp⟩:=bind_ok hp
      obtain ⟨b,hb,hp⟩:=bind_ok hp
      obtain ⟨c,hc,hp⟩:=bind_ok hp
      have hextra:=ifFlag_le skipExtra_le ha
      have hname:=ifFlag_le skipCString_le hb
      have hcomment:=ifFlag_le skipCString_le hc
      rw [←Except.ok.inj hp] at hsome
      have hend:=Option.some.inj hsome
      split_ifs at hend <;> omega

/-- A member: where its deflate stream starts, what it decodes to and how many bytes it takes. -/
structure Member where
  start : ℕ
  out : Bytes
  used : ℕ

/-- Where the next member starts: the checksum and the size follow the deflate stream. -/
def Member.next (m : Member) : ℕ := m.start + m.used + 8

variable {S : Type}

/-- The members of the file from an offset on, up to its end or to padding. -/
inductive Layout (d : Decoder S) (file : Bytes) : ℕ → List Member → Prop
  | last {offset} (hend : headerAt file offset = .ok none) : Layout d file offset []
  | member {offset m ms} (hheader : headerAt file offset = .ok (some m.start))
      (hdecodes : Decodes d d.init (file.drop m.start) m.out m.used) (htrailer : m.next ≤ file.length)
      (hrest : Layout d file m.next ms) :
      Layout d file offset (m :: ms)

def content (ms : List Member) : Bytes := ms.flatMap Member.out

@[simp] theorem content_cons (m : Member) (ms : List Member) : content (m::ms)=m.out++content ms := rfl

theorem content_append (ms ms' : List Member) : content (ms++ms')=content ms++content ms' := by
  simp [content]

theorem length_content_concat (ms : List Member) (m : Member) :
    (content (ms++[m])).length=(content ms).length+m.out.length := by
  simp [content]

end Ratarmount.Gzip
