import Ratarmount.ByteFields

/-!
# Zstandard streams

A stream of data frames and skippable frames over a zstd library, the scan of a
stream frame by frame, and the seek table at its end.
-/

namespace Ratarmount.Zstd

open Bytes List Option

def zstdMagic : Bytes := [0x28,0xB5,0x2F,0xFD]

def skippableMagicMin : ℕ := 0x184D2A50

def skippableMagicMax : ℕ := 0x184D2A5F

def seekTableSkippableMagic : ℕ := 0x184D2A5E

def seekableMagic : ℕ := 0x8F92EAB1

def seekTableFooterSize : ℕ := 9

def skippableHeaderSize : ℕ := 8

/-- The zstd library: `decode` of one complete frame, `encode` to one, and what it tells of the frame at the start of
a buffer. -/
structure ZstdLib where
  findFrameCompressedSize : Bytes → Option ℕ
  getFrameContentSize : Bytes → Option ℕ
  decode : Bytes → Option Bytes
  encode : Bytes → Bytes
  magic : ∀ f plain, decode f = some plain → ∃ rest, f = zstdMagic ++ rest
  find_frame : ∀ f plain, decode f = some plain → ∀ rest n,
    findFrameCompressedSize ((f ++ rest).take n) = if f.length ≤ n then some f.length else none
  content_size : ∀ f plain, decode f = some plain → ∀ n, getFrameContentSize f = some n → n = plain.length
  decode_encode : ∀ plain, decode (encode plain) = some plain

/-- A frame of a stream: data with what it decodes to, or a skippable one. -/
inductive Frame
  | data (bytes plain : Bytes)
  | skippable (kind : Fin 16) (payload : Bytes)

namespace Frame

def bytes : Frame → Bytes
  | data bytes _ => bytes
  | skippable kind payload => le 4 (skippableMagicMin + kind) ++ (le 4 payload.length ++ payload)

def plain : Frame → Bytes
  | data _ plain => plain
  | skippable _ _ => []

def WellFormed (lib : ZstdLib) : Frame → Prop
  | data bytes plain => lib.decode bytes = some plain
  | skippable _ payload => payload.length < 2 ^ 32

end Frame

def stream (fs : List Frame) : Bytes := fs.flatMap Frame.bytes

def content (fs : List Frame) : Bytes := fs.flatMap Frame.plain

/-! ## A library that meets the assumptions -/

/-- The bytes that a body spells, each behind a 1, up to a 0, and how long the body is. -/
def unspell : Bytes → Option (Bytes × ℕ)
  | 0 :: _ => some ([],1)
  | 1 :: b :: rest => (unspell rest).map (fun r => (b :: r.1,r.2 + 2))
  | _ => none

def spell (plain : Bytes) : Bytes := plain.flatMap (fun b => [1,b]) ++ [0]

theorem unspell_spell (plain : Bytes) : unspell (spell plain)=some (plain,(spell plain).length) := by
  induction plain with
  | nil => rfl
  | cons b plain ih =>
    have hcons : spell (b::plain)=1::b::spell plain:=rfl
    rw [hcons,unspell,ih]
    rfl

/-- A body is found in any buffer that holds it whole, and in no shorter one. -/
theorem unspell_take {body plain : Bytes} (h : unspell body=some (plain,body.length)) (rest : Bytes) (n : ℕ) :
    unspell ((body++rest).take n)=if body.length≤n then some (plain,body.length) else none := by
  induction body using unspell.induct generalizing plain n with
  | case1 tail =>
    obtain ⟨rfl,rfl⟩ : plain=[] ∧ tail=[] := by simpa [unspell,eq_comm] using h
    cases n with
    | zero => rfl
    | succ n => simp [unspell]
  | case2 b body ih =>
    rw [unspell,map_eq_some_iff] at h
    obtain ⟨⟨plain',k⟩,hbody,heq⟩:=h
    simp only [length_cons,Prod.mk.injEq] at heq
    obtain ⟨rfl,hk⟩:=heq
    have hk' : k=body.length := by omega
    subst hk'
    match n with
    | 0 => simp [unspell]
    | 1 => simp [unspell]
    | n+2 =>
      simp only [cons_append,take_succ_cons,unspell,ih hbody n]
      split_ifs with h1 h2 h2
      · rfl
      · simp at h2
        omega
      · simp at h2
        omega
      · rfl
  | case3 body h0 h1 => rw [unspell] at h <;> simp_all

/-- Frames that spell every byte out. -/
def spellingLib : ZstdLib where
  findFrameCompressedSize buf := if buf.take 4 = zstdMagic then (unspell (buf.drop 4)).map (fun r => 4 + r.2) else none
  getFrameContentSize _ := none
  decode f :=
    if f.take 4 = zstdMagic then
      (unspell (f.drop 4)).bind (fun r => if 4 + r.2 = f.length then some r.1 else none)
    else none
  encode plain := zstdMagic ++ spell plain
  magic f plain h := by
    split_ifs at h with hm
    exact ⟨f.drop 4,by rw [← hm,take_append_drop]⟩
  find_frame f plain h rest n := by
    split_ifs at h with hm
    obtain ⟨⟨p,k⟩,hbody,hk⟩ := bind_eq_some_iff.mp h
    split_ifs at hk with hlen
    have hf : f = zstdMagic ++ f.drop 4 := by rw [← hm,take_append_drop]
    generalize f.drop 4 = body at hf hbody
    subst hf
    have hmagic : zstdMagic.length = 4 := rfl
    have hk' : k = body.length := by
      simp only at hlen
      rw [length_append] at hlen
      omega
    subst hk'
    rw [append_assoc,length_append,hmagic]
    rcases Nat.lt_or_ge n 4 with hn | hn
    · have hshort : ((zstdMagic ++ (body ++ rest)).take n).take 4 ≠ zstdMagic := by
        intro hcon
        have := congrArg List.length hcon
        simp [hmagic] at this
        omega
      rw [if_neg hshort,if_neg (by omega)]
    · obtain ⟨m,rfl⟩ := Nat.exists_eq_add_of_le hn
      have htake : (zstdMagic ++ (body ++ rest)).take (4 + m) = zstdMagic ++ (body ++ rest).take m := by
        rw [← hmagic,take_length_add_append]
      have hfst : (zstdMagic ++ (body ++ rest).take m).take 4 = zstdMagic := rfl
      have hsnd : (zstdMagic ++ (body ++ rest).take m).drop 4 = (body ++ rest).take m := rfl
      rw [htake,if_pos hfst,hsnd,unspell_take hbody]
      split_ifs with h1 h2 h2
      · rfl
      · omega
      · omega
      · rfl
  content_size f plain h n hn := by cases hn
  decode_encode plain := by
    have htake : (zstdMagic ++ spell plain).take 4 = zstdMagic := rfl
    have hdrop : (zstdMagic ++ spell plain).drop 4 = spell plain := rfl
    rw [if_pos htake,hdrop,unspell_spell,bind_some,if_pos (by simp [zstdMagic]; omega)]

/-! ## Scan -/

structure ZstdFrameInfo where
  compressedOffset : ℕ
  uncompressedOffset : ℕ
  compressedSize : ℕ
  uncompressedSize : ℕ
  deriving DecidableEq

structure ZstdFrameMap where
  frames : List ZstdFrameInfo
  seekTable : Option (ℕ × ℕ)
  deriving DecidableEq

/-- Sizes of the first frame in `src`. -/
def measureFrameSlice (lib : ZstdLib) (src : Bytes) : Except String (ℕ × ℕ) :=
  match lib.findFrameCompressedSize src with
  | none => .error "ZSTD_findFrameCompressedSize"
  | some comp =>
    if comp = 0 ∨ src.length < comp then .error "invalid frame compressed size"
    else
      match lib.getFrameContentSize (src.take comp) with
      | some n => .ok (comp,n)
      | none =>
        match lib.decode (src.take comp) with
        | none => .error "decoder"
        | some plain => .ok (comp,plain.length)

def scanFrameWindowStart : ℕ := 256 * 1024

/-- The window loop of `measure_frame_at`, with its turns counted down. -/
def measureWindow (lib : ZstdLib) (rest : Bytes) : ℕ → ℕ → Except String (ℕ × ℕ)
  | 0, _ => .error "zstd frame compressed size unknown"
  | turns + 1, window =>
    let buf := rest.take window
    match lib.findFrameCompressedSize buf with
    | some comp =>
      if 0 < comp ∧ comp ≤ buf.length then measureFrameSlice lib buf
      else if rest.length ≤ window then .error "zstd frame compressed size unknown"
      else measureWindow lib rest turns (window * 2)
    | none =>
      if rest.length ≤ window then .error "zstd frame compressed size unknown"
      else measureWindow lib rest turns (window * 2)

def measureFrameAt (lib : ZstdLib) (rest : Bytes) : Except String (ℕ × ℕ) :=
  if rest = [] then .error "zstd frame compressed size unknown"
  else measureWindow lib rest (rest.length + 1) scanFrameWindowStart

/-- Whether a skippable frame at the start of `rest` ends like a seek table. -/
def isSeekTable (rest : Bytes) (magic skipSize : ℕ) : Bool :=
  magic = seekTableSkippableMagic && 4 ≤ skipSize &&
    ofLe (rest.slice (skippableHeaderSize + skipSize - 4) 4) = seekableMagic

/-- The loop of `scan_zstd_frames_walk` at `pos`, with `rest` the stream from there. -/
def walkLoop (lib : ZstdLib) : ℕ → Bytes → ℕ → ℕ → List ZstdFrameInfo → Option (ℕ × ℕ) → Except String ZstdFrameMap
  | 0, _, _, _, _, _ => .error "no zstd frames found"
  | turns + 1, rest, pos, uncomp, frames, seekTable =>
    let done : Except String ZstdFrameMap :=
      if frames = [] then .error "no zstd frames found" else .ok { frames, seekTable }
    if rest.length < 4 then done
    else
      let magic := ofLe (rest.take 4)
      if skippableMagicMin ≤ magic ∧ magic ≤ skippableMagicMax then
        let skipSize := ofLe (rest.slice 4 4)
        if rest.length < skippableHeaderSize ∨ rest.length < skippableHeaderSize + skipSize then
          .error "truncated zstd skippable frame"
        else
          let spanEnd := pos + skippableHeaderSize + skipSize
          walkLoop lib turns (rest.drop (skippableHeaderSize + skipSize)) spanEnd uncomp frames
            (if isSeekTable rest magic skipSize then some (pos,spanEnd) else seekTable)
      else if rest.take 4 ≠ zstdMagic then done
      else
        match measureFrameAt lib rest with
        | .error e => .error e
        | .ok (comp,frameUncomp) =>
          walkLoop lib turns (rest.drop comp) (pos + comp) (uncomp + frameUncomp)
            (frames ++ [{ compressedOffset := pos, uncompressedOffset := uncomp, compressedSize := comp,
                          uncompressedSize := frameUncomp }]) seekTable

def scanZstdFramesWalk (lib : ZstdLib) (file : Bytes) : Except String ZstdFrameMap :=
  walkLoop lib (file.length + 1) file 0 0 [] none

/-! ## Seek table -/

structure FrameInfo where
  compressedOffset : ℕ
  uncompressedOffset : ℕ
  compressedSize : Option ℕ
  uncompressedSize : Option ℕ
  deriving DecidableEq

def tableEntries (numFrames sizePerEntry : ℕ) (entries : Bytes) : List (ℕ × ℕ) :=
  (List.range numFrames).map (fun k =>
    (ofLe (entries.slice (k * sizePerEntry) 4),ofLe (entries.slice (k * sizePerEntry + 4) 4)))

/-- The table at the end of a file and the size of its frame. -/
def readSeekTable (file : Bytes) : Except String (List (ℕ × ℕ) × ℕ) :=
  if file.length < 4 then .error "failed to fill whole buffer"
  else if file.take 4 ≠ zstdMagic then .error "seek table data does not start at offset 0"
  else if file.length < seekTableFooterSize + skippableHeaderSize then .error "file too small for seek table"
  else
    let footer : Bytes := file.drop (file.length - seekTableFooterSize)
    let numFrames := ofLe (footer.slice 0 4)
    let descriptor := ofLe (footer.slice 4 1)
    if ofLe (footer.slice 5 4) ≠ seekableMagic then .error "no zstd seekable footer magic"
    else if descriptor / 4 % 32 ≠ 0 then .error "corrupt seek table descriptor"
    else
      let sizePerEntry := if descriptor / 128 % 2 = 1 then 12 else 8
      let tableSize := sizePerEntry * numFrames
      let frameSize := tableSize + seekTableFooterSize + skippableHeaderSize
      if file.length < frameSize then .error "seek table larger than file"
      else
        let frame : Bytes := file.drop (file.length - frameSize)
        if ofLe (frame.slice 0 4) ≠ seekTableSkippableMagic then .error "seek table skippable magic mismatch"
        else if ofLe (frame.slice 4 4) + skippableHeaderSize ≠ frameSize then .error "seek table size mismatch"
        else .ok (tableEntries numFrames sizePerEntry (frame.slice skippableHeaderSize tableSize),frameSize)

def framesFrom : ℕ → ℕ → List (ℕ × ℕ) → List FrameInfo
  | _, _, [] => []
  | cOff, dOff, (cSize,dSize) :: entries =>
    { compressedOffset := cOff, uncompressedOffset := dOff, compressedSize := some cSize,
      uncompressedSize := some dSize } :: framesFrom (cOff + cSize) (dOff + dSize) entries

/-- The entries of a table that is accepted. -/
def acceptedEntries (file : Bytes) : Except String (List (ℕ × ℕ)) :=
  match readSeekTable file with
  | .error e => .error e
  | .ok (entries,frameSize) =>
    if file.length - frameSize < (entries.map Prod.fst).sum then .error "seek table compressed offsets past data"
    else if entries = [] then .error "empty seek table"
    else .ok entries

def tryLoadSeekTableFromReader (file : Bytes) : Except String (List FrameInfo × ℕ) :=
  (acceptedEntries file).map (fun entries => (framesFrom 0 0 entries,(entries.map Prod.snd).sum))

def buildSeekTableSkippable (frames : List (ℕ × ℕ)) : Bytes :=
  let payload := frames.flatMap (fun f => le 4 f.1 ++ le 4 f.2) ++ (le 4 frames.length ++ ([0] ++ le 4 seekableMagic))
  le 4 seekTableSkippableMagic ++ (le 4 payload.length ++ payload)

end Ratarmount.Zstd
