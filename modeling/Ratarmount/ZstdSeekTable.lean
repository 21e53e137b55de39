import Ratarmount.ZstdScan

/-!
# Accepted seek tables

A seek table is accepted where its frames end before it starts. It need not
tell the frames of the stream: it does where its entries are the sizes of the
data frames and no skippable frame stands between them.
-/

namespace Ratarmount.Zstd

open Bytes List Zstd.Frame

variable {lib : ZstdLib}

def ZstdFrameInfo.toFrameInfo (f : ZstdFrameInfo) : FrameInfo :=
  { compressedOffset := f.compressedOffset, uncompressedOffset := f.uncompressedOffset,
    compressedSize := some f.compressedSize, uncompressedSize := some f.uncompressedSize }

def dataSizes : List Frame → List (ℕ × ℕ)
  | [] => []
  | .data bytes plain :: fs => (bytes.length,plain.length) :: dataSizes fs
  | .skippable _ _ :: fs => dataSizes fs

/-- No data frame follows a skippable one. -/
def SkippablesLast : List Frame → Prop
  | [] => True
  | .data _ _ :: fs => SkippablesLast fs
  | .skippable _ _ :: fs => dataSizes fs = []

/-- An accepted table is the frame map of the stream and tells all of its content. -/
def TableTellsFrames (lib : ZstdLib) (fs : List Frame) : Prop :=
  ∀ frames total, tryLoadSeekTableFromReader (stream fs) = .ok (frames,total) →
    ∃ map, scanZstdFramesWalk lib (stream fs) = .ok map ∧ frames = map.frames.map ZstdFrameInfo.toFrameInfo ∧
      total = (content fs).length

theorem framesAt_eq_nil_iff {fs : List Frame} (pos uncomp : ℕ) : framesAt pos uncomp fs=[] ↔ dataSizes fs=[] := by
  induction fs generalizing pos uncomp with
  | nil => simp [framesAt,dataSizes]
  | cons f fs ih =>
    cases f with
    | data bytes plain => simp [framesAt,dataSizes]
    | skippable kind payload =>
      exact ih _ _

theorem offset_le_of_mem_framesAt {fs : List Frame} {pos uncomp : ℕ} {x : ZstdFrameInfo} (h : x∈framesAt pos uncomp fs) :
    pos≤x.compressedOffset := by
  induction fs generalizing pos uncomp with
  | nil => simp [framesAt] at h
  | cons f fs ih =>
    cases f with
    | data bytes plain =>
      rcases mem_cons.mp h with rfl | h
      · exact le_rfl
      · exact (Nat.le_add_right _ _).trans (ih h)
    | skippable kind payload =>
      exact (Nat.le_add_right _ _).trans (ih h)

/-- The frames that a table lays out are those of the stream exactly where the sizes agree and leave no gap. -/
theorem framesFrom_eq_iff {fs : List Frame} {entries : List (ℕ × ℕ)} (pos uncomp : ℕ) :
    framesFrom pos uncomp entries=(framesAt pos uncomp fs).map ZstdFrameInfo.toFrameInfo ↔
      entries=dataSizes fs ∧ SkippablesLast fs := by
  induction fs generalizing entries pos uncomp with
  | nil =>
    cases entries with
    | nil => simp [framesFrom,framesAt,dataSizes,SkippablesLast]
    | cons e entries => simp [framesFrom,framesAt,dataSizes]
  | cons f fs ih =>
    cases f with
    | data bytes plain =>
      cases entries with
      | nil => simp [framesFrom,framesAt,dataSizes]
      | cons e entries =>
        obtain ⟨c,d⟩:=e
        rw [framesFrom,framesAt,map_cons,dataSizes,SkippablesLast,List.cons.injEq,List.cons.injEq,and_assoc,
          ← ih (pos+bytes.length) (uncomp+plain.length)]
        constructor
        · rintro ⟨hhead,htail⟩
          obtain ⟨rfl,rfl⟩ : c=bytes.length ∧ d=plain.length := by
            simpa [ZstdFrameInfo.toFrameInfo] using hhead
          exact ⟨rfl,htail⟩
        · rintro ⟨hhead,htail⟩
          cases hhead
          exact ⟨rfl,htail⟩
    | skippable kind payload =>
      rw [framesAt,dataSizes]
      constructor
      · intro h
        cases entries with
        | nil =>
          have hnil:=map_eq_nil_iff.mp h.symm
          have hsizes:=(framesAt_eq_nil_iff _ _).mp hnil
          exact ⟨hsizes.symm,hsizes⟩
        | cons e entries =>
          -- the first frame of the table starts where the skippable one does
          obtain ⟨x,hx,hhead⟩ : ∃x∈framesAt (pos+(skippable kind payload).bytes.length) uncomp fs,
              x.toFrameInfo.compressedOffset=pos := by
            have hmem : (framesFrom pos uncomp (e::entries)).head (by simp [framesFrom]) ∈
                (framesAt (pos+(skippable kind payload).bytes.length) uncomp fs).map ZstdFrameInfo.toFrameInfo := by
              rw [←h]
              exact head_mem _
            obtain ⟨x,hx,heq⟩:=mem_map.mp hmem
            exact ⟨x,hx,by rw [heq]; rfl⟩
          have hle:=offset_le_of_mem_framesAt hx
          have hlen : 0<(skippable kind payload).bytes.length := by simp [Frame.bytes]
          have hoff : x.compressedOffset=pos:=hhead
          omega
      · rintro ⟨rfl,hnil⟩
        rw [hnil,(framesAt_eq_nil_iff _ _).mpr hnil]
        rfl

theorem sum_dataSizes (fs : List Frame) : ((dataSizes fs).map Prod.snd).sum=(content fs).length := by
  induction fs with
  | nil => rfl
  | cons f fs ih =>
    cases f with
    | data bytes plain => simpa [dataSizes,content,Frame.plain] using ih
    | skippable kind payload => simpa [dataSizes,content,Frame.plain] using ih

theorem ne_nil_of_acceptedEntries {file : Bytes} {entries : List (ℕ × ℕ)} (h : acceptedEntries file = .ok entries) :
    entries≠[] := by
  rw [acceptedEntries] at h
  split at h
  · cases h
  · split_ifs at h
    cases h
    assumption

/-- A table tells the frames of a stream exactly where its entries are the sizes of the data frames, with no skippable
frame before the last of them. -/
theorem tableTellsFrames_iff (lib : ZstdLib) (fs : List Frame) (hwf : ∀ f ∈ fs, f.WellFormed lib) :
    TableTellsFrames lib fs ↔
      ∀ entries, acceptedEntries (stream fs) = .ok entries → entries = dataSizes fs ∧ SkippablesLast fs := by
  have hload (entries : List (ℕ × ℕ)) (h : acceptedEntries (stream fs) = .ok entries) :
      tryLoadSeekTableFromReader (stream fs) = .ok (framesFrom 0 0 entries,(entries.map Prod.snd).sum) := by
    rw [tryLoadSeekTableFromReader,h]
    rfl
  constructor
  · intro htells entries h
    obtain ⟨map,hscan,hframes,-⟩ := htells _ _ (hload entries h)
    rw [scanZstdFramesWalk_stream hwf] at hscan
    split_ifs at hscan
    cases hscan
    exact (framesFrom_eq_iff 0 0).mp hframes
  · intro hcond frames total hok
    cases h : acceptedEntries (stream fs) with
    | error e => simp [tryLoadSeekTableFromReader,h,Except.map] at hok
    | ok entries =>
      rw [hload entries h] at hok
      cases hok
      obtain ⟨rfl,hlast⟩ := hcond entries h
      have hne := ne_nil_of_acceptedEntries h
      refine ⟨{ frames := framesAt 0 0 fs, seekTable := lastTable 0 fs none },?_,?_,sum_dataSizes fs⟩
      · rw [scanZstdFramesWalk_stream hwf,if_neg (by rwa [framesAt_eq_nil_iff])]
      · exact (framesFrom_eq_iff 0 0).mpr ⟨rfl,hlast⟩

def tablePayload (entries : List (ℕ × ℕ)) : Bytes :=
  entries.flatMap (fun f => le 4 f.1 ++ le 4 f.2) ++ (le 4 entries.length ++ ([0] ++ le 4 seekableMagic))

theorem buildSeekTableSkippable_eq (entries : List (ℕ × ℕ)) :
    buildSeekTableSkippable entries=(skippable 0xE (tablePayload entries)).bytes := rfl

def seekableFile (plain : Bytes) : List Frame :=
  [.data (spellingLib.encode plain) plain,
    .skippable 0xE (tablePayload [((spellingLib.encode plain).length,plain.length)])]

theorem wellFormed_seekableFile (plain : Bytes) : ∀f∈seekableFile plain,f.WellFormed spellingLib := by
  intro f hf
  simp only [seekableFile,mem_cons,not_mem_nil,or_false] at hf
  rcases hf with rfl | rfl
  · exact spellingLib.decode_encode plain
  · simp [Frame.WellFormed,tablePayload]

theorem tableTellsFrames_seekableFile :
    (∀ f ∈ seekableFile [7], f.WellFormed spellingLib) ∧ TableTellsFrames spellingLib (seekableFile [7]) := by
  refine ⟨wellFormed_seekableFile [7],?_⟩
  apply (tableTellsFrames_iff spellingLib (seekableFile [7]) (wellFormed_seekableFile [7])).mpr
  have hentries : acceptedEntries (stream (seekableFile [7])) = .ok (dataSizes (seekableFile [7])) := by decide +kernel
  intro entries h
  rw [hentries] at h
  cases h
  exact ⟨rfl,rfl⟩

/-- Two seekable files, one after the other: the table of the second is accepted for the first frame. -/
theorem seekTable_of_concatenation_accepted :
    (∀ f ∈ seekableFile [7] ++ seekableFile [8,9], f.WellFormed spellingLib) ∧
      ¬TableTellsFrames spellingLib (seekableFile [7] ++ seekableFile [8,9]) := by
  refine ⟨fun f hf => ?_,fun h => ?_⟩
  · rcases mem_append.mp hf with hf | hf
    · exact wellFormed_seekableFile _ f hf
    · exact wellFormed_seekableFile _ f hf
  · obtain ⟨map,-,-,htotal⟩ := h [⟨0,0,some 9,some 2⟩] 2 (by decide +kernel)
    revert htotal
    decide

end Ratarmount.Zstd
