import Ratarmount.ZstdFormat

/-!
# The scan of a well-formed stream

Walking a concatenation of frames finds each data frame at its place.
-/

namespace Ratarmount.Zstd

open Bytes List Zstd.Frame

/-- The data frames of a stream with their places, from the given offsets. -/
def framesAt : ℕ → ℕ → List Frame → List ZstdFrameInfo
  | _, _, [] => []
  | pos, uncomp, .data bytes plain :: fs =>
    { compressedOffset := pos, uncompressedOffset := uncomp, compressedSize := bytes.length,
      uncompressedSize := plain.length } :: framesAt (pos + bytes.length) (uncomp + plain.length) fs
  | pos, uncomp, .skippable kind payload :: fs => framesAt (pos + (skippable kind payload).bytes.length) uncomp fs

def Frame.isTable : Frame → Bool
  | .data _ _ => false
  | .skippable kind payload => kind.val = 0xE && 4 ≤ payload.length && ofLe (payload.drop (payload.length - 4)) = seekableMagic

/-- The last seek table of a stream. -/
def lastTable : ℕ → List Frame → Option (ℕ × ℕ) → Option (ℕ × ℕ)
  | _, [], t => t
  | pos, f :: fs, t =>
    lastTable (pos + f.bytes.length) fs (if f.isTable then some (pos,pos + f.bytes.length) else t)

variable {lib : ZstdLib}

variable {f plain : Bytes} {turns : ℕ} {fs : List Frame}

theorem magic_length (h : lib.decode f=some plain) : 4≤f.length := by
  obtain ⟨rest,rfl⟩:=lib.magic f plain h
  simp [zstdMagic]

theorem measureFrameSlice_frame (h : lib.decode f=some plain) (rest : Bytes) {n : ℕ} (hn : f.length≤n) : measureFrameSlice lib ((f++rest).take n) = .ok (f.length,plain.length) := by
  have hlen:=magic_length h
  have htake : ((f++rest).take n).take f.length=f := by
    rw [take_take,min_eq_left hn,take_left]
  have hle : f.length≤((f++rest).take n).length := by
    rw [length_take,length_append]
    omega
  rw [measureFrameSlice,lib.find_frame f plain h,if_pos hn]
  dsimp only
  rw [if_neg (by omega),htake]
  cases hsize : lib.getFrameContentSize f with
  | some m => rw [lib.content_size f plain h m hsize]
  | none => simp only [h]

theorem measureWindow_frame (h : lib.decode f=some plain) (rest : Bytes) {window : ℕ} (hw : 0<window)
    (h1 : 0<turns) (hturns : (f++rest).length<turns+window) :
    measureWindow lib (f++rest) turns window = .ok (f.length,plain.length) := by
  have hlen:=magic_length h
  have hle : f.length≤(f++rest).length := by simp
  induction turns generalizing window with
  | zero => exact absurd h1 (by omega)
  | succ turns ih =>
    rw [measureWindow,lib.find_frame f plain h]
    by_cases hfit : f.length≤window
    · rw [if_pos hfit]
      dsimp only
      rw [if_pos ⟨by omega,by rw [length_take]; omega⟩,measureFrameSlice_frame h rest hfit]
    · -- the window ends within the frame, so it is doubled
      rw [if_neg hfit]
      rw [if_neg (by omega)]
      exact ih (by omega) (by omega) (by omega)

theorem measureFrameAt_frame (h : lib.decode f=some plain) (rest : Bytes) :
    measureFrameAt lib (f++rest) = .ok (f.length,plain.length) := by
  have hlen:=magic_length h
  have hne : f++rest≠[] := by
    intro hnil
    have : f=[]:=(List.append_eq_nil_iff.mp hnil).1
    simp [this] at hlen
  rw [measureFrameAt,if_neg hne]
  exact measureWindow_frame h rest (by decide) (by omega) (by rw [scanFrameWindowStart]; omega)

theorem ofLe_zstdMagic : ofLe zstdMagic=0xFD2FB528 := by decide

theorem walkLoop_data (h : lib.decode f=some plain) (rest : Bytes) (turns pos uncomp : ℕ)
    (frames : List ZstdFrameInfo) (seekTable : Option (ℕ × ℕ)) :
    walkLoop lib (turns+1) (f++rest) pos uncomp frames seekTable =
      walkLoop lib turns rest (pos+f.length) (uncomp+plain.length)
        (frames++[{ compressedOffset := pos, uncompressedOffset := uncomp, compressedSize := f.length,
                      uncompressedSize := plain.length }]) seekTable := by
  have hlen:=magic_length h
  have htake : (f++rest).take 4=zstdMagic := by
    obtain ⟨tail,rfl⟩:=lib.magic f plain h
    simp [zstdMagic]
  rw [walkLoop]
  rw [if_neg (by rw [length_append]; omega),htake,ofLe_zstdMagic,
    if_neg (by simp [skippableMagicMin,skippableMagicMax]),if_neg (by simp),measureFrameAt_frame h rest]
  dsimp only
  rw [drop_left]

theorem walkLoop_skippable {kind : Fin 16} {payload : Bytes} (h : payload.length<2^32) (rest : Bytes)
    (turns pos uncomp : ℕ) (frames : List ZstdFrameInfo) (seekTable : Option (ℕ × ℕ)) :
    walkLoop lib (turns+1) ((skippable kind payload).bytes++rest) pos uncomp frames seekTable =
      walkLoop lib turns rest (pos+(skippable kind payload).bytes.length) uncomp frames
        (if (skippable kind payload).isTable then some (pos,pos+(skippable kind payload).bytes.length)
          else seekTable) := by
  have hlen : (skippable kind payload).bytes.length=8+payload.length := by
    simp [Frame.bytes]
    omega
  have hmagic : ofLe (((skippable kind payload).bytes++rest).take 4)=skippableMagicMin+kind := by
    rw [Frame.bytes,append_assoc,take_left' (length_le 4 _),ofLe_le_of_lt (by rw [skippableMagicMin]; omega)]
  have hsize : ofLe (slice ((skippable kind payload).bytes++rest) 4 4)=payload.length := by
    rw [Frame.bytes,append_assoc,append_assoc,slice_append _ _ _ (length_le 4 _).symm (length_le 4 _).symm,
      ofLe_le_of_lt (by omega)]
  have htable : isSeekTable ((skippable kind payload).bytes++rest) (skippableMagicMin+kind) payload.length =
      (skippable kind payload).isTable := by
    have hkind' : (skippableMagicMin+kind.val=seekTableSkippableMagic)=(kind.val=0xE) := by
      rw [skippableMagicMin,seekTableSkippableMagic]
      exact propext (by omega)
    rw [isSeekTable,isTable]
    by_cases h4 : 4≤payload.length
    · have hend : slice ((skippable kind payload).bytes++rest) (skippableHeaderSize+payload.length-4) 4 =
          payload.drop (payload.length-4) := by
        have hpay : payload=payload.take (payload.length-4)++payload.drop (payload.length-4) :=
          (take_append_drop _ _).symm
        have hdrop : (payload.drop (payload.length-4)).length=4 := by
          rw [length_drop]
          omega
        have hbytes : (skippable kind payload).bytes++rest =
            (le 4 (skippableMagicMin+kind)++(le 4 payload.length++payload.take (payload.length-4))) ++
              (payload.drop (payload.length-4)++rest) := by
          rw [Frame.bytes]
          nth_rewrite 2 [hpay]
          simp only [append_assoc]
        rw [hbytes]
        apply slice_append
        · simp [skippableHeaderSize]
          omega
        · exact hdrop.symm
      simp [hend,hkind']
    · simp [h4]
  rw [walkLoop]
  dsimp only
  rw [hmagic,hsize,htable,if_neg (by rw [length_append]; omega),
    if_pos ⟨by omega,by rw [skippableMagicMin,skippableMagicMax]; omega⟩,
    if_neg (by rw [length_append,skippableHeaderSize]; omega),skippableHeaderSize,←hlen,drop_left,
    add_assoc,←hlen]

/-- The scan of a well-formed stream finds the data frames at their places. -/
theorem walkLoop_stream (hwf : ∀f∈fs,f.WellFormed lib) (hturns : fs.length<turns) (pos uncomp : ℕ)
    (frames : List ZstdFrameInfo) (seekTable : Option (ℕ × ℕ)) :
    walkLoop lib turns (stream fs) pos uncomp frames seekTable =
      if frames++framesAt pos uncomp fs=[] then .error "no zstd frames found"
      else .ok { frames := frames++framesAt pos uncomp fs, seekTable := lastTable pos fs seekTable } := by
  induction fs generalizing turns pos uncomp frames seekTable with
  | nil =>
    obtain ⟨turns,rfl⟩:=Nat.exists_eq_add_one.mpr hturns
    simp [walkLoop,stream,framesAt,lastTable]
  | cons f fs ih =>
    obtain ⟨turns,rfl⟩:=Nat.exists_eq_add_one.mpr (Nat.zero_lt_of_lt hturns)
    have hf:=hwf f mem_cons_self
    have hfs : ∀g∈fs,g.WellFormed lib:=fun g hg => hwf g (mem_cons_of_mem f hg)
    have hlt : fs.length<turns := by
      rw [length_cons] at hturns
      omega
    have hstream : stream (f::fs)=f.bytes++stream fs:=rfl
    rw [hstream]
    cases f with
    | data bytes plain =>
      rw [Frame.bytes,walkLoop_data hf,ih hfs hlt,append_assoc]
      rfl
    | skippable kind payload => rw [walkLoop_skippable hf,ih hfs hlt,framesAt,lastTable]

theorem length_le_stream (hwf : ∀f∈fs,f.WellFormed lib) : fs.length≤(stream fs).length := by
  induction fs with
  | nil => simp
  | cons f fs ih =>
    have hpos : 0<f.bytes.length := by
      cases f with
      | data bytes plain => exact lt_of_lt_of_le (by decide) (magic_length (hwf _ mem_cons_self))
      | skippable kind payload => simp [Frame.bytes]
    have hstream : (stream (f::fs)).length=f.bytes.length+(stream fs).length := by simp [stream]
    have hrest:=ih (fun g hg => hwf g (mem_cons_of_mem f hg))
    rw [length_cons]
    omega

theorem scanZstdFramesWalk_stream (hwf : ∀f∈fs,f.WellFormed lib) :
    scanZstdFramesWalk lib (stream fs)=if framesAt 0 0 fs=[] then .error "no zstd frames found"
      else .ok { frames := framesAt 0 0 fs, seekTable := lastTable 0 fs none } := by
  have hlen:=length_le_stream hwf
  rw [scanZstdFramesWalk,walkLoop_stream hwf (by omega),nil_append]

end Ratarmount.Zstd
