import Ratarmount.ExceptRuns
import Ratarmount.SevenZipFiles

/-!
# Where the members of a 7z archive lie

The sizes and digests of all substreams stand in one table each. The entries take them in
order, so a table that is right puts every file at its place.
-/

namespace Ratarmount.SevenZip

open Reading List FileSpec FolderSpec Substream Bool

section Tables

variable {spec : Spec}

/-- The sizes of all substreams as the parser lists them: one at least for every folder. -/
def Spec.sizesRead (spec : Spec) : List ℕ := spec.folders.flatMap readSizes

def Spec.digestsRead (spec : Spec) : List (Option ℕ) :=
  if spec.substreamsWritten = true then spec.readDigests else spec.folders.map fun folder => folder.crc

def numSubstreams (folders : List FolderSpec) : ℕ := (folders.map fun folder => folder.substreams.length).sum

theorem numSubstreams_cons (folder : FolderSpec) (folders : List FolderSpec) :
    numSubstreams (folder::folders)=folder.substreams.length+numSubstreams folders := sum_cons

/-- Where no substreams are written, every folder has one. -/
theorem counts_of_not_written (h : WellFormed spec) (hwritten : spec.substreamsWritten=false) :
    spec.folders.map (fun folder => folder.substreams.length)=List.replicate spec.folders.length 1 := by
  refine eq_replicate_iff.mpr ⟨length_map _,?_⟩
  intro count hcount
  obtain ⟨folder,hfolder,rfl⟩:=mem_map.mp hcount
  obtain ⟨substream,hsubstreams,-⟩:=h.noSubstreams hwritten folder hfolder
  rw [hsubstreams]
  rfl

theorem parsedSubstreams_eq (h : WellFormed spec) (hsome : spec.folders=[] → spec.substreamsWritten=true) :
    spec.parsedSubstreams =
      some ⟨spec.folders.map fun folder => folder.substreams.length,spec.sizesRead,spec.digestsRead⟩ := by
  rw [Spec.parsedSubstreams,Spec.digestsRead]
  cases hwritten : spec.substreamsWritten with
  | true =>
    rw [Spec.substreamsRead,Spec.counted,map_map]
    rfl
  | false =>
    have hone:=counts_of_not_written h hwritten
    have hfolders : spec.parsedFolders≠[] := by
      intro hnil
      rw [hsome (map_eq_nil_iff.mp hnil)] at hwritten
      cases hwritten
    have hsizes : spec.parsedFolders.map Folder.getUnpackSize=spec.folders.flatMap readSizes := by
      have hsingle : spec.folders.flatMap readSizes=spec.folders.flatMap fun folder => [folder.getUnpackSize] := by
        rw [flatMap_def]
        congr 1
        apply map_congr_left
        intro folder hfolder
        apply readSizes_single
        apply eq_of_mem_replicate
        rw [←hone]
        exact mem_map_of_mem hfolder
      rw [hsingle,Spec.parsedFolders,map_map,←map_eq_flatMap]
      rfl
    rw [if_neg Bool.false_ne_true,if_neg Bool.false_ne_true,wholeFolders,if_neg hfolders,hsizes,
      Spec.parsedFolders,length_map,←hone,map_map]
    rfl

theorem length_sizes (folder : FolderSpec) : folder.sizes.length=folder.substreams.length := length_map _

theorem numSubstreams_le_sizesRead (folders : List FolderSpec) :
    numSubstreams folders≤(folders.flatMap readSizes).length := by
  induction folders with
  | nil => exact le_rfl
  | cons folder folders ih =>
    have hread : folder.substreams.length≤folder.readSizes.length := by
      rw [readSizes,length_append,length_dropLast,length_sizes,length_singleton]
      omega
    rw [numSubstreams_cons,flatMap_cons,length_append]
    omega

theorem length_flatMap_substreams {α : Type} (f : Substream → α) (folders : List FolderSpec) :
    (folders.flatMap fun folder => folder.substreams.map f).length=numSubstreams folders := by
  rw [length_flatMap]
  congr 1
  apply map_congr_left
  intro folder _
  exact length_map _

theorem length_digestsRead (h : WellFormed spec) : spec.digestsRead.length=numSubstreams spec.folders := by
  rw [Spec.digestsRead]
  split_ifs with hwritten
  · rw [Spec.readDigests]
    split_ifs
    · exact length_flatMap_substreams _ _
    · rw [length_replicate,Spec.counted,map_map]
      rfl
  · rw [length_map,numSubstreams]
    rw [counts_of_not_written h (eq_false_iff.mpr hwritten),sum_replicate_nat,mul_one]

/-- The folders with the sizes and digests of these tables for those of their substreams. -/
def retable : List ℕ → List (Option ℕ) → List FolderSpec → List FolderSpec
  | _, _, [] => []
  | sizes, digests, folder :: folders =>
    let n := folder.substreams.length
    { folder with substreams := (sizes.take n).zipWith Substream.mk (digests.take n) } ::
      retable (sizes.drop n) (digests.drop n) folders

variable {sizes : List ℕ} {digests : List (Option ℕ)}

theorem substreams_retable {folders : List FolderSpec} (hsizes : numSubstreams folders ≤ sizes.length)
    (hdigests : numSubstreams folders≤digests.length) :
    (retable sizes digests folders).flatMap (fun folder => folder.substreams) =
      (sizes.take (numSubstreams folders)).zipWith Substream.mk (digests.take (numSubstreams folders)) := by
  induction folders generalizing sizes digests with
  | nil =>
    rfl
  | cons folder folders ih =>
    rw [numSubstreams_cons] at hsizes hdigests ⊢
    have hrest:=@ih (sizes.drop folder.substreams.length) (digests.drop folder.substreams.length)
      (by rw [length_drop]; omega) (by rw [length_drop]; omega)
    rw [retable,flatMap_cons,hrest,take_add,take_add,zipWith_append]
    rw [length_take,length_take]
    omega

theorem retable_self (folders : List FolderSpec)
    (hsizes : sizes.take (numSubstreams folders)=folders.flatMap FolderSpec.sizes)
    (hdigests : digests.take (numSubstreams folders)=folders.flatMap fun folder => folder.substreams.map crc) :
    retable sizes digests folders=folders := by
  induction folders generalizing sizes digests with
  | nil => rfl
  | cons folder folders ih =>
    have hlong:=congrArg List.length hsizes
    have hlong':=congrArg List.length hdigests
    rw [length_flatMap_substreams,length_take,numSubstreams_cons] at hlong'
    rw [show (folder::folders).flatMap FolderSpec.sizes =
      (folder::folders).flatMap fun folder => folder.substreams.map Substream.size from rfl,
      length_flatMap_substreams,length_take,numSubstreams_cons] at hlong
    rw [numSubstreams_cons,take_add] at hsizes hdigests
    obtain ⟨hsizes,hsizes'⟩:=append_inj hsizes (by rw [length_take,length_sizes]; omega)
    obtain ⟨hdigests,hdigests'⟩:=append_inj hdigests (by rw [length_take,length_map]; omega)
    have hmine : folder.sizes.zipWith Substream.mk (folder.substreams.map crc)=folder.substreams := by
      rw [FolderSpec.sizes,zipWith_map,zipWith_self]
      exact map_id _
    rw [retable,hsizes,hdigests,hmine,ih hsizes' hdigests']

end Tables

section Placements

variable {folders : List FolderSpec} {index packOffset : ℕ} {packSizes : List ℕ}

theorem placeSubstreams_substreams (folder packOffset packSize : ℕ) (substreams : List Substream) (unpackOffset : ℕ) :
    (placeSubstreams folder packOffset packSize substreams unpackOffset).map (fun p => Substream.mk p.size p.crc)=substreams := by
  induction substreams generalizing unpackOffset with
  | nil => rfl
  | cons substream substreams ih => rw [placeSubstreams,map_cons,ih]

theorem placeFolders_substreams (folders : List FolderSpec) (index packOffset : ℕ) (packSizes : List ℕ) :
    (placeFolders folders index packOffset packSizes).map (fun p => Substream.mk p.size p.crc) =
      folders.flatMap fun folder => folder.substreams := by
  induction folders generalizing index packOffset packSizes with
  | nil => rfl
  | cons folder folders ih =>
    rw [placeFolders,map_append,placeSubstreams_substreams,ih,flatMap_cons]

theorem length_placeFolders (folders : List FolderSpec) (index packOffset : ℕ) (packSizes : List ℕ) :
    (placeFolders folders index packOffset packSizes).length=numSubstreams folders := by
  have hlen:=congrArg List.length (placeFolders_substreams folders index packOffset packSizes)
  rw [length_map,length_flatMap] at hlen
  exact hlen

variable {sizes : List ℕ} {digests : List (Option ℕ)}

theorem length_placeFolders_retable (hsizes : numSubstreams folders ≤ sizes.length)
    (hdigests : numSubstreams folders≤digests.length) :
    (placeFolders (retable sizes digests folders) index packOffset packSizes).length=numSubstreams folders := by
  have hlen:=congrArg List.length (placeFolders_substreams (retable sizes digests folders) index packOffset packSizes)
  rw [length_map,substreams_retable hsizes hdigests,length_zipWith,length_take,length_take] at hlen
  omega

/-- A place as the parser adds it up. -/
def Placement.wrapped (p : Placement) : Placement := { p with unpackOffset := p.unpackOffset % 2 ^ 64 }

theorem wrapped_placeSubstreams {folder packSize unpackOffset : ℕ} {substreams : List Substream}
    (h : unpackOffset+(substreams.map Substream.size).sum<2^64) :
    (placeSubstreams folder packOffset packSize substreams unpackOffset).map Placement.wrapped =
      placeSubstreams folder packOffset packSize substreams unpackOffset := by
  induction substreams generalizing unpackOffset with
  | nil => rfl
  | cons substream substreams ih =>
    rw [map_cons,sum_cons] at h
    have hmod : unpackOffset % 2^64=unpackOffset:=Nat.mod_eq_of_lt (by omega)
    rw [placeSubstreams,map_cons,ih (by omega),Placement.wrapped]
    dsimp only
    rw [hmod]

/-- Within a folder no offset wraps. -/
theorem wrapped_placeFolders (hok : ∀folder∈folders,FolderOk folder) (index packOffset : ℕ) (packSizes : List ℕ) :
    (placeFolders folders index packOffset packSizes).map Placement.wrapped=placeFolders folders index packOffset packSizes := by
  induction folders generalizing index packOffset packSizes with
  | nil => rfl
  | cons folder folders ih =>
    have hfits : 0+(folder.substreams.map Substream.size).sum<2^64 := by
      rw [zero_add]
      by_cases hnil : folder.substreams=[]
      · rw [hnil]
        exact Nat.two_pow_pos 64
      · have hmine:=hok folder mem_cons_self
        exact (hmine.sizes hnil).trans_lt (isU64_folderSize hmine)
    rw [placeFolders,map_append,wrapped_placeSubstreams hfits,ih fun f hf => hok f (mem_cons_of_mem _ hf)]

/-- Other tables give other places. -/
theorem tables_of_placeFolders (hsizes : numSubstreams folders ≤ sizes.length)
    (hdigests : numSubstreams folders≤digests.length)
    (h : (placeFolders (retable sizes digests folders) index packOffset packSizes).map Placement.wrapped =
      placeFolders folders index packOffset packSizes) :
    sizes.take (numSubstreams folders)=folders.flatMap FolderSpec.sizes ∧
      digests.take (numSubstreams folders)=folders.flatMap fun folder => folder.substreams.map crc := by
  have heq:=congrArg (List.map fun p : Placement => Substream.mk p.size p.crc) h
  rw [map_map,show (fun p : Placement => Substream.mk p.size p.crc) ∘ Placement.wrapped =
    fun p => Substream.mk p.size p.crc from rfl,placeFolders_substreams,placeFolders_substreams,substreams_retable hsizes hdigests] at heq
  have hlen : (sizes.take (numSubstreams folders)).length=(digests.take (numSubstreams folders)).length := by
    rw [length_take,length_take]
    omega
  have hfst:=@map_fst_zip _ _ (sizes.take (numSubstreams folders)) (digests.take (numSubstreams folders)) (by omega)
  have hsnd:=@map_snd_zip _ _ (sizes.take (numSubstreams folders)) (digests.take (numSubstreams folders)) (by omega)
  rw [List.zip,map_zipWith] at hfst hsnd
  constructor
  · have hmap:=congrArg (List.map Substream.size) heq
    rw [map_zipWith,map_flatMap] at hmap
    exact hfst.symm.trans hmap
  · have hmap:=congrArg (List.map crc) heq
    rw [map_zipWith,map_flatMap] at hmap
    exact hsnd.symm.trans hmap

/-- Different places are seen by some file. -/
theorem assign_inj {files : List FileSpec} {first second : List Placement}
    (hfirst : first.length=(files.filter hasStream).length)
    (hsecond : second.length=(files.filter hasStream).length) (h : assign files first=assign files second) :
    first=second := by
  induction files generalizing first second with
  | nil => rw [length_eq_zero_iff.mp hfirst,length_eq_zero_iff.mp hsecond]
  | cons file files ih =>
    rw [assign,assign] at h
    split_ifs at h with hstream
    · rw [filter_cons_of_pos hstream,length_cons] at hfirst hsecond
      obtain ⟨p,first,rfl⟩:=exists_cons_of_length_eq_add_one hfirst
      obtain ⟨q,second,rfl⟩:=exists_cons_of_length_eq_add_one hsecond
      obtain ⟨hhead,htail⟩:=List.cons.inj h
      obtain rfl : p=q:=Option.some.inj (Prod.mk.inj hhead).2
      rw [length_cons] at hfirst hsecond
      rw [show first=second from ih (by omega) (by omega) htail]
    · rw [filter_cons_of_neg hstream] at hfirst hsecond
      exact ih hfirst hsecond (List.cons.inj h).2

end Placements

section Entries

/-- The streams lie at these places, from stream `n` on. -/
def Places (place : RawFile → ℕ → Stream → Except String Entry) : ℕ → List Stream → List Placement → Prop
  | _, [], placements => placements = []
  | n, stream :: streams, placements => ∃ placement more, placements = placement :: more ∧
      (∀ raw, ∃ entry, place raw n stream = .ok entry ∧ entry.path = trimSlashes raw.filename ∧
        entry.placement = some placement) ∧ Places place (n + 1) streams more

variable {place : RawFile → ℕ → Stream → Except String Entry}

theorem Places.append {n : ℕ} {streams streams' : List Stream} {placements placements' : List Placement}
    (h : Places place n streams placements) (h' : Places place (n+streams.length) streams' placements') :
    Places place n (streams++streams') (placements++placements') := by
  induction streams generalizing n placements with
  | nil =>
    subst h
    exact h'
  | cons stream streams ih =>
    obtain ⟨placement,more,rfl,hentry,hmore⟩:=h
    refine ⟨placement,more++placements',rfl,hentry,ih hmore ?_⟩
    rw [length_cons,←add_assoc,add_right_comm] at h'
    exact h'

variable {streams : List Stream} {placements : List Placement} {files : List FileSpec}

theorem Places.get {n i : ℕ} {stream : Stream} (h : Places place n streams placements)
    (hget : streams[i]?=some stream) (raw : RawFile) :
    ∃placement entry,placements.drop i=placement::placements.drop (i+1) ∧ place raw (n+i) stream = .ok entry ∧
      entry.path=trimSlashes raw.filename ∧ entry.placement=some placement := by
  induction streams generalizing n i placements with
  | nil => cases hget
  | cons first streams ih =>
    obtain ⟨placement,more,rfl,hentry,hmore⟩:=h
    cases i with
    | zero =>
      obtain rfl : first=stream:=Option.some.inj hget
      obtain ⟨entry,hplace,hpath,hplacement⟩:=hentry raw
      exact ⟨placement,entry,rfl,hplace,hpath,hplacement⟩
    | succ i =>
      obtain ⟨q,entry,hdrop,hplace,hpath,hplacement⟩:=ih hmore hget
      refine ⟨q,entry,hdrop,?_,hpath,hplacement⟩
      rwa [show n+(i+1)=n+1+i by omega]

theorem Places.length {n : ℕ} (h : Places place n streams placements) : streams.length=placements.length := by
  induction streams generalizing n placements with
  | nil =>
    subst h
    rfl
  | cons stream streams ih =>
    obtain ⟨placement,more,rfl,-,hmore⟩:=h
    rw [length_cons,length_cons,ih hmore]

/-- A file with a stream that the parser takes for a directory. -/
def FileSpec.looksLikeDir (file : FileSpec) : Bool := isDirectoryEntry (slashes file.name) file.attributes false false

theorem isDirectoryEntry_raw {file : FileSpec} (hstream : file.hasStream=true) (isEmptyFile : Bool) :
    isDirectoryEntry file.raw.filename file.raw.attributes file.raw.emptystream (file.raw.emptystream && isEmptyFile) =
      file.looksLikeDir := by
  rw [raw,hstream]
  rfl

theorem raw_emptystream (file : FileSpec) : file.raw.emptystream = !file.hasStream := rfl

theorem fileEntries_maps {files : List FileSpec} {streams : List Stream} {placements : List Placement}
    (hplaces : Places place 0 streams placements) (emptyFiles : List Bool) {emptyIndex streamIndex : ℕ}
    (hcount : streamIndex+(files.filter hasStream).length=streams.length)
    (hdir : ∀file∈files,file.hasStream=true → file.looksLikeDir=false) :
    ∃entries,fileEntries emptyFiles streams place (files.map raw) emptyIndex streamIndex = .ok entries ∧
      entries.map (fun entry => (entry.path,entry.placement))=assign files (placements.drop streamIndex) := by
  induction files generalizing emptyIndex streamIndex with
  | nil => exact ⟨[],rfl,rfl⟩
  | cons file files ih =>
    have hrest:=fun f hf => hdir f (mem_cons_of_mem _ hf)
    rw [map_cons,fileEntries,assign]
    cases hstream : file.hasStream with
    | true =>
      have hempty : ¬(file.raw.emptystream=true ∨ isDirectoryEntry file.raw.filename file.raw.attributes
          file.raw.emptystream (file.raw.emptystream && emptyFiles.getD emptyIndex false)=true) := by
        rw [isDirectoryEntry_raw hstream,hdir file mem_cons_self hstream,raw_emptystream,hstream]
        decide
      rw [filter_cons_of_pos hstream,length_cons] at hcount
      obtain ⟨stream,hget⟩ : ∃stream,streams[streamIndex]?=some stream :=
        ⟨_,getElem?_eq_getElem (show streamIndex<streams.length by omega)⟩
      obtain ⟨placement,entry,hdrop,hplace,hpath,hplacement⟩:=hplaces.get hget file.raw
      obtain ⟨entries,hentries,hmap⟩:=@ih emptyIndex (streamIndex+1) (by omega) hrest
      rw [zero_add] at hplace
      refine ⟨entry::entries,?_,?_⟩
      · rw [if_neg hempty,hget]
        dsimp only
        rw [hplace,ok_bind,hentries,ok_bind]
      · rw [map_cons,hmap,hdrop,hpath,hplacement]
        rfl
    | false =>
      have hempty : file.raw.emptystream=true := by rw [raw_emptystream,hstream,Bool.not_false]
      rw [filter_cons_of_neg (by rw [hstream]; decide)] at hcount
      obtain ⟨entries,hentries,hmap⟩:=@ih (emptyIndex+1) streamIndex hcount hrest
      rw [if_pos (.inl hempty),if_pos hempty,hentries]
      refine ⟨_,rfl,?_⟩
      rw [map_cons,hmap]
      rfl

theorem fileEntries_dir {emptyFiles : List Bool} {emptyIndex streamIndex : ℕ} {entries : List Entry}
    (hcount : (files.filter hasStream).length=placements.length)
    (hentries : fileEntries emptyFiles streams place (files.map raw) emptyIndex streamIndex = .ok entries)
    (hmap : entries.map (fun entry => (entry.path,entry.placement))=assign files placements) :
    ∀file∈files,file.hasStream=true → file.looksLikeDir=false := by
  induction files generalizing emptyIndex streamIndex entries placements with
  | nil =>
    intro file hfile
    cases hfile
  | cons file files ih =>
    rw [map_cons,fileEntries] at hentries
    rw [assign] at hmap
    cases hstream : file.hasStream with
    | true =>
      rw [filter_cons_of_pos hstream,length_cons] at hcount
      obtain ⟨placement,placements,rfl⟩:=exists_cons_of_length_eq_add_one hcount.symm
      rw [if_pos hstream] at hmap
      rw [isDirectoryEntry_raw hstream] at hentries
      by_cases hdir : file.raw.emptystream=true ∨ file.looksLikeDir=true
      · rw [if_pos hdir] at hentries
        obtain ⟨rest,-,heq⟩:=bind_ok hentries
        obtain rfl:=Except.ok.inj heq
        cases (Prod.mk.inj (List.cons.inj hmap).1).2
      · rw [if_neg hdir] at hentries
        cases hget : streams[streamIndex]? with
        | none =>
          rw [hget] at hentries
          cases hentries
        | some stream =>
          rw [hget] at hentries
          obtain ⟨entry,-,hentries⟩:=bind_ok hentries
          obtain ⟨rest,hrest,heq⟩:=bind_ok hentries
          obtain rfl:=Except.ok.inj heq
          rw [length_cons] at hcount
          intro f hf hfstream
          rcases mem_cons.mp hf with rfl | hf
          · exact eq_false_iff.mpr fun htrue => hdir (.inr htrue)
          · exact @ih placements _ _ _ (by omega) hrest (List.cons.inj hmap).2 f hf hfstream
    | false =>
      rw [filter_cons_of_neg (by rw [hstream]; decide)] at hcount
      rw [if_neg (by rw [hstream]; decide)] at hmap
      have hempty : file.raw.emptystream=true := by rw [raw_emptystream,hstream,Bool.not_false]
      rw [if_pos (.inl hempty)] at hentries
      obtain ⟨rest,hrest,heq⟩:=bind_ok hentries
      obtain rfl:=Except.ok.inj heq
      intro f hf hfstream
      rcases mem_cons.mp hf with rfl | hf
      · rw [hstream] at hfstream
        cases hfstream
      · exact ih hcount hrest (List.cons.inj hmap).2 f hf hfstream

theorem plainEntries_maps (hnone : ∀file∈files,file.hasStream=false) (emptyFiles : List Bool) (emptyIndex : ℕ)
    (placements : List Placement) :
    (plainEntries emptyFiles (files.map raw) emptyIndex).map (fun entry => (entry.path,entry.placement)) =
      assign files placements := by
  induction files generalizing emptyIndex with
  | nil => rfl
  | cons file files ih =>
    have hrest:=ih fun f hf => hnone f (mem_cons_of_mem _ hf)
    rw [map_cons,plainEntries,map_cons,hrest,assign,if_neg (by rw [hnone file mem_cons_self]; decide)]
    rfl

end Entries

section Streams

variable {packInfo : PackInfo} {all : List Folder} {digests : List (Option ℕ)} {afterHeader : ℕ}

variable {folder : FolderSpec} (hfits : afterHeader + packInfo.packPos + packInfo.packSizes.sum < 2 ^ 64)

theorem packStreams_eq (h : FolderOk folder) : folder.packStreams=folder.packedIndices.length :=
  if_neg h.packed.1

include hfits

/-- The entry of a stream lies where its folder's pack streams do. -/
theorem streamEntry_places {index cursor streamIndex : ℕ} {crc : Option ℕ}
    (hfolder : all[index]?=some folder.toFolder) (hok : FolderOk folder)
    (hcursor : cursor+folder.packedIndices.length≤packInfo.packSizes.length)
    (hcrc : digests[streamIndex]?=some crc) (unpackOffset size : ℕ) (raw : RawFile) :
    ∃entry,streamEntry packInfo all digests afterHeader raw streamIndex ⟨index,unpackOffset,size,cursor⟩ = .ok entry ∧
      entry.path=trimSlashes raw.filename ∧
      entry.placement=some ⟨index,unpackOffset,size,crc,afterHeader+packInfo.packPos+(packInfo.packSizes.take cursor).sum,
        ((packInfo.packSizes.drop cursor).take folder.packedIndices.length).sum⟩ := by
  have hpos:=length_pos_of_ne_nil hok.packed.1
  have hbefore : (packInfo.packSizes.take cursor).sum≤packInfo.packSizes.sum:=
    (take_sublist _ _).sum_le_sum (fun _ _ => Nat.zero_le _)
  have hmine : ((packInfo.packSizes.drop cursor).take folder.packedIndices.length).sum≤packInfo.packSizes.sum:=
    ((take_sublist _ _).trans (drop_sublist _ _)).sum_le_sum (fun _ _ => Nat.zero_le _)
  have hposition : packInfo.packPositions[cursor]?=some (packInfo.packSizes.take cursor).sum := by
    rw [PackInfo.packPositions,getElem?_map,getElem?_range (by omega),Option.map_some,Nat.mod_eq_of_lt (by omega)]
  rw [streamEntry]
  rw [hfolder,hposition]
  dsimp only
  rw [packStreams_eq hok,if_pos hcursor,hcrc,Nat.mod_eq_of_lt (by omega : afterHeader+packInfo.packPos+_<2^64),
    Nat.mod_eq_of_lt (by omega : (((packInfo.packSizes.drop cursor).take folder.packedIndices.length).sum)<2^64)]
  exact ⟨_,rfl,rfl,rfl⟩

theorem folderStreams_places {sizes : List ℕ} {index cursor : ℕ} {folder : FolderSpec} (hfolder : all[index]?=some folder.toFolder)
    (hok : FolderOk folder) (hcursor : cursor+folder.packedIndices.length≤packInfo.packSizes.length)
    {n sizeCursor : ℕ} (hsizes : sizeCursor+n ≤ sizes.length) (hdigests : sizeCursor+n≤digests.length) (unpackOffset : ℕ) :
    ∃streams,folderStreams sizes index cursor n sizeCursor (unpackOffset % 2^64) = .ok streams ∧ streams.length=n ∧
      Places (streamEntry packInfo all digests afterHeader) sizeCursor streams
        ((placeSubstreams index (afterHeader+packInfo.packPos+(packInfo.packSizes.take cursor).sum)
          ((packInfo.packSizes.drop cursor).take folder.packedIndices.length).sum
          (((sizes.drop sizeCursor).take n).zipWith Substream.mk ((digests.drop sizeCursor).take n)) unpackOffset).map
            Placement.wrapped) := by
  induction n generalizing sizeCursor unpackOffset with
  | zero => exact ⟨[],rfl,rfl,rfl⟩
  | succ n ih =>
    have hlt : sizeCursor<sizes.length := by omega
    have hlt' : sizeCursor<digests.length := by omega
    obtain ⟨streams,hstreams,hlen,hplaces⟩:=@ih (sizeCursor+1) (by omega) (by omega) (unpackOffset+sizes[sizeCursor])
    refine ⟨⟨index,unpackOffset % 2^64,sizes[sizeCursor],cursor⟩::streams,?_,by rw [length_cons,hlen],?_⟩
    · rw [folderStreams,getElem?_eq_getElem hlt]
      dsimp only
      rw [Nat.mod_add_mod,hstreams,ok_bind]
    · rw [drop_eq_getElem_cons hlt,drop_eq_getElem_cons hlt',take_succ_cons,take_succ_cons,
        zipWith_cons_cons,placeSubstreams,map_cons]
      exact ⟨_,_,rfl,streamEntry_places hfits hfolder hok hcursor (getElem?_eq_getElem hlt') (unpackOffset % 2^64) _,hplaces⟩

/-- The streams of the folders from the `index`th one on. -/
theorem streamMap_places {sizes : List ℕ} {before folders : List FolderSpec} {sizeCursor packCursor : ℕ}
    (hall : all=(before++folders).map toFolder) (hok : ∀folder∈folders,FolderOk folder)
    (hpack : packCursor+(folders.map fun folder => folder.packedIndices.length).sum≤packInfo.packSizes.length)
    (hsizes : sizeCursor+numSubstreams folders ≤ sizes.length) (hdigests : sizeCursor+numSubstreams folders≤digests.length) :
    ∃streams,streamMap sizes (folders.map fun folder => (folder.toFolder,folder.substreams.length)) before.length sizeCursor
        packCursor = .ok streams ∧ Places (streamEntry packInfo all digests afterHeader) sizeCursor streams
        ((placeFolders (retable (sizes.drop sizeCursor) (digests.drop sizeCursor) folders) before.length
          (afterHeader+packInfo.packPos+(packInfo.packSizes.take packCursor).sum) (packInfo.packSizes.drop packCursor)).map
            Placement.wrapped) := by
  induction folders generalizing before sizeCursor packCursor with
  | nil => exact ⟨[],rfl,rfl⟩
  | cons folder folders ih =>
    rw [map_cons,sum_cons] at hpack
    rw [numSubstreams_cons] at hsizes hdigests
    have hmine:=hok folder mem_cons_self
    have hfolder : all[before.length]?=some folder.toFolder := by
      rw [hall,getElem?_map,getElem?_append_right le_rfl,Nat.sub_self]
      rfl
    obtain ⟨streams,hstreams,hlen,hplaces⟩:=@folderStreams_places packInfo all digests afterHeader hfits sizes _ packCursor folder
      hfolder hmine (by omega) folder.substreams.length sizeCursor (by omega) (by omega) 0
    rw [Nat.zero_mod] at hstreams
    have hall' : all=((before++[folder])++folders).map toFolder := by
      rw [hall,append_assoc]
      rfl
    obtain ⟨more,hmore,hplaces'⟩:=@ih (before++[folder]) (sizeCursor+folder.substreams.length)
      (packCursor+folder.packedIndices.length) hall' (fun f hf => hok f (mem_cons_of_mem _ hf)) (by omega) (by omega) (by omega)
    rw [length_append,length_singleton] at hmore hplaces'
    refine ⟨streams++more,?_,?_⟩
    · rw [map_cons,streamMap,hstreams,ok_bind,packStreams_eq hmine,hmore,ok_bind]
    · rw [←hlen] at hplaces'
      have hboth:=hplaces.append hplaces'
      rw [hlen,←map_append,←drop_drop,←drop_drop,←drop_drop,take_add,sum_append,←add_assoc] at hboth
      exact hboth

end Streams

section Members

variable {spec : Spec} {afterHeader : ℕ}

/-- The sizes of the substreams come out right where `late` sizes of earlier folders wait for a substream. With none
waiting that takes a last output of the folder's size, or a shorter one and an empty last substream. A folder without
substreams leaves its last output's size, and all sizes behind it come one substream late. -/
def InStep : List ℕ → List FolderSpec → Prop
  | _, [] => True
  | late, folder :: folders =>
    let sizes := late ++ (folder.sizes.dropLast ++ [folder.getUnpackSize - folder.sizes.dropLast.sum])
    if folder.substreams = [] then InStep (late ++ [folder.getUnpackSize]) folders
    else if late = [] then
      (folder.getUnpackSize = folder.size ∨ folder.getUnpackSize < folder.size ∧ folder.sizes.getLast? = some 0) ∧
        InStep [] folders
    else
      sizes.take folder.substreams.length = folder.sizes ∧ InStep (sizes.drop folder.substreams.length) folders

instance InStep.decidable (late : List ℕ) (folders : List FolderSpec) : Decidable (InStep late folders) := by
  induction folders generalizing late with
  | nil => exact .isTrue trivial
  | cons folder folders ih =>
    unfold InStep
    infer_instance

theorem readSizes_eq_iff {folder : FolderSpec} (h : FolderOk folder) (hsome : folder.substreams≠[]) :
    folder.readSizes=folder.sizes ↔
      (folder.getUnpackSize=folder.size ∨ folder.getUnpackSize<folder.size ∧ folder.sizes.getLast?=some 0) := by
  have hne : folder.sizes≠[] := by
    rw [ne_eq,FolderSpec.sizes,map_eq_nil_iff]
    exact hsome
  have hsum:=h.sizes hsome
  obtain ⟨init,last,hsizes⟩ : ∃init last,folder.sizes=init++[last]:=⟨_,_,(dropLast_append_getLast hne).symm⟩
  rw [hsizes,sum_append,sum_singleton] at hsum
  rw [readSizes,hsizes,dropLast_concat,getLast?_concat,append_cancel_left_eq,List.cons.injEq,Option.some.injEq]
  constructor
  · rintro ⟨hlast,-⟩
    omega
  · intro hcases
    exact ⟨by omega,rfl⟩

/-- The table of the parser begins with the true sizes exactly if they are in step. -/
theorem sizesRead_iff {folders : List FolderSpec} (hok : ∀folder∈folders,FolderOk folder) (late : List ℕ) :
    (late++folders.flatMap readSizes).take (numSubstreams folders)=folders.flatMap FolderSpec.sizes ↔ InStep late folders := by
  induction folders generalizing late with
  | nil => exact iff_of_true rfl trivial
  | cons folder folders ih =>
    have hrest:=ih fun f hf => hok f (mem_cons_of_mem _ hf)
    have hread : folder.readSizes.length=folder.substreams.length-1+1 := by
      rw [readSizes,length_append,length_dropLast,length_sizes,length_singleton]
    have hlong : folder.substreams.length≤(late++folder.readSizes).length := by
      rw [length_append]
      omega
    -- the folder takes its sizes from the front, and the rest goes on
    have hiff : (late++(folder.readSizes++folders.flatMap readSizes)).take (folder.substreams.length+numSubstreams folders) =
          folder.sizes++folders.flatMap FolderSpec.sizes ↔
        (late++folder.readSizes).take folder.substreams.length=folder.sizes ∧
          InStep ((late++folder.readSizes).drop folder.substreams.length) folders := by
      rw [←append_assoc,take_add,take_append_of_le_length hlong,drop_append_of_le_length hlong,←hrest]
      constructor
      · intro heq
        exact append_inj heq (by rw [length_take,length_sizes]; omega)
      · rintro ⟨hmine,hothers⟩
        rw [hmine,hothers]
    rw [numSubstreams_cons,flatMap_cons,flatMap_cons,hiff,InStep]
    split_ifs with hnone hlate
    · have hone : folder.readSizes=[folder.getUnpackSize] := by
        rw [readSizes,FolderSpec.sizes,hnone]
        rfl
      rw [hone,FolderSpec.sizes,hnone]
      exact and_iff_right rfl
    · have hpos:=length_pos_of_ne_nil hnone
      rw [hlate,nil_append,take_of_length_le (by omega),drop_eq_nil_of_le (by omega),
        readSizes_eq_iff (hok folder mem_cons_self) hnone]
    · rfl

structure Mappable (spec : Spec) : Prop where
  readable : Readable spec
  substreams : spec.streamsWritten = true → spec.folders = [] → spec.substreamsWritten = true
  sizes : InStep [] spec.folders
  digests : spec.substreamsWritten = true → spec.digestsWritten = false →
    ∀ folder ∈ spec.folders, folder.substreams.length = 1 → folder.crc = none
  files : ∀ file ∈ spec.files, file.hasStream = true → file.looksLikeDir = false

theorem buildFileEntries_streams (raw : RawFiles) (packInfo : PackInfo) (folders : List Folder) (counts sizes : List ℕ)
    (digests : List (Option ℕ)) (afterHeader : ℕ) :
    buildFileEntries raw (some ⟨some packInfo,folders,some ⟨counts,sizes,digests⟩⟩) afterHeader =
      (streamMap sizes (folders.zip counts) 0 0 0 >>= fun map =>
        fileEntries raw.emptyFiles map (streamEntry packInfo folders digests afterHeader) raw.files 0 0 >>= fun entries =>
          .ok (entries,(folders.zip counts).any fun folder => folder.2 > 1)) := rfl

/-- The places of the streams with the tables of the parser. -/
def Spec.placed (spec : Spec) (afterHeader : ℕ) : List Placement :=
  (placeFolders (retable spec.sizesRead spec.digestsRead spec.folders) 0 (afterHeader + spec.packPos) spec.packSizes).map
    Placement.wrapped

section Parsed

variable (h : WellFormed spec)
include h

/-- The digest of a folder with one substream is not seen where the substreams come without digests. -/
theorem digestsRead_iff : (spec.digestsRead=spec.folders.flatMap fun folder => folder.substreams.map crc) ↔
      (spec.substreamsWritten=true → spec.digestsWritten=false →
        ∀folder∈spec.folders,folder.substreams.length=1 → folder.crc=none) := by
  rw [Spec.digestsRead,Spec.readDigests]
  cases hsubstreams : spec.substreamsWritten with
  | false =>
    refine iff_of_true ?_ fun h => absurd h Bool.false_ne_true
    rw [if_neg Bool.false_ne_true,map_eq_flatMap,flatMap_def]
    congr 1
    apply map_congr_left
    intro folder hfolder
    obtain ⟨substream,hone,hcrc⟩:=h.noSubstreams hsubstreams folder hfolder
    rw [hone,map_singleton,hcrc]
  | true =>
    cases hdigests : spec.digestsWritten with
    | true =>
      exact iff_of_true rfl fun _ h => absurd h.symm Bool.false_ne_true
    | false =>
      constructor
      · intro heq _ _ folder hfolder hone
        obtain ⟨substream,hsingle⟩:=length_eq_one_iff.mp hone
        by_contra hcrc
        have hmem : substream.crc∈spec.folders.flatMap fun folder => folder.substreams.map crc := by
          refine mem_flatMap.mpr ⟨folder,hfolder,?_⟩
          rw [hsingle]
          exact mem_cons_self
        rw [←heq] at hmem
        have hown:=(h.folders.2 folder hfolder).ownCrc substream hsingle (Option.isSome_iff_ne_none.mpr hcrc)
        exact hcrc (hown.symm.trans (eq_of_mem_replicate hmem))
      · intro hall
        symm
        apply eq_replicate_iff.mpr
        constructor
        · rw [length_flatMap_substreams,Spec.counted,map_map]
          rfl
        · intro crc hcrc
          obtain ⟨folder,hfolder,hmem⟩:=mem_flatMap.mp hcrc
          apply h.noDigests hdigests folder hfolder
          rw [FolderSpec.digests,if_neg]
          · exact hmem
          · rintro ⟨hone,hsome⟩
            rw [hall rfl rfl folder hfolder hone] at hsome
            cases hsome

theorem parseHeader_eq (hreadable : Readable spec) :
    parseHeader spec.encode afterHeader=buildFileEntries spec.rawFiles spec.parsedStreams afterHeader := by
  have hread:=(reads_header h).reads hreadable []
  rw [append_nil] at hread
  rw [parseHeader,hread]
  rfl

theorem parseHeader_fails (hreadable : ¬Readable spec) : ∃e,parseHeader spec.encode afterHeader = .error e := by
  obtain ⟨e,he⟩:=(reads_header h).fails hreadable []
  rw [append_nil] at he
  refine ⟨e,?_⟩
  rw [parseHeader,he]
  rfl

/-- An archive without streams. -/
theorem mapsFiles_plain (hreadable : Readable spec) (hwritten : spec.streamsWritten=false) :
    MapsFiles spec afterHeader ∧ Mappable spec := by
  have hfolders:=h.noStreams hwritten
  have hnone : ∀file∈spec.files,file.hasStream=false := by
    intro file hfile
    have hcount:=h.streams
    rw [hfolders] at hcount
    have hnot:=filter_eq_nil_iff.mp (length_eq_zero_iff.mp hcount) file hfile
    exact eq_false_iff.mpr hnot
  constructor
  · refine ⟨plainEntries spec.rawFiles.emptyFiles spec.rawFiles.files 0,false,?_,plainEntries_maps hnone _ _ _⟩
    rw [parseHeader_eq h hreadable,Spec.parsedStreams,hwritten]
    rfl
  · refine ⟨hreadable,?_,?_,?_,?_⟩
    · intro htrue
      rw [hwritten] at htrue
      cases htrue
    · rw [hfolders]
      trivial
    · rw [hfolders]
      exact nofun
    · intro file hfile hstream
      rw [hnone file hfile] at hstream
      cases hstream

theorem length_placed : (spec.placed afterHeader).length=(spec.files.filter hasStream).length := by
  have hdigests:=length_digestsRead h
  rw [h.streams,Spec.placed,length_map]
  exact length_placeFolders_retable (numSubstreams_le_sizesRead spec.folders) (by omega)

theorem parseHeader_streams (hfits : afterHeader+spec.packPos+spec.packSizes.sum<2^64) (hreadable : Readable spec) (hwritten : spec.streamsWritten=true)
    (hsome : spec.folders=[] → spec.substreamsWritten=true) :
    ∃place streams solid,Places place 0 streams (spec.placed afterHeader) ∧
      parseHeader spec.encode afterHeader=(fileEntries spec.rawFiles.emptyFiles streams place (spec.files.map raw) 0 0 >>=
        fun entries => .ok (entries,solid)) := by
  have hdigests:=length_digestsRead h
  have hsizes:=numSubstreams_le_sizesRead spec.folders
  obtain ⟨streams,hmap,hplaces⟩:=@streamMap_places spec.packInfo spec.parsedFolders spec.digestsRead afterHeader hfits
    spec.sizesRead [] spec.folders 0 0 rfl h.folders.2 (by rw [zero_add]; exact h.packStreams)
    (by rw [zero_add]; exact hsizes) (by omega)
  refine ⟨_,streams,spec.counted.any fun folder => folder.2 > 1,hplaces,?_⟩
  rw [parseHeader_eq h hreadable,Spec.parsedStreams,if_pos hwritten,parsedSubstreams_eq h hsome,buildFileEntries_streams,
    counted_eq,show streamMap spec.sizesRead spec.counted 0 0 0 = .ok streams from hmap,ok_bind]
  rfl

end Parsed

/-- A well-formed header whose pack streams end below `2 ^ 64` maps its files exactly if it is mappable. -/
theorem mapsFiles_iff (spec : Spec) (afterHeader : ℕ) (h : WellFormed spec)
    (hfits : afterHeader + spec.packPos + spec.packSizes.sum < 2 ^ 64) : MapsFiles spec afterHeader ↔ Mappable spec := by
  by_cases hreadable : Readable spec
  swap
  · refine iff_of_false ?_ fun hmappable => hreadable hmappable.readable
    rintro ⟨entries,solid,hparse,-⟩
    obtain ⟨e,he⟩ := @parseHeader_fails spec afterHeader h hreadable
    rw [he] at hparse
    cases hparse
  cases hwritten : spec.streamsWritten with
  | false =>
    obtain ⟨hmaps,hmappable⟩ := @mapsFiles_plain spec afterHeader h hreadable hwritten
    exact iff_of_true hmaps hmappable
  | true =>
    by_cases hsome : spec.folders = [] → spec.substreamsWritten = true
    swap
    · refine iff_of_false ?_ fun hmappable => hsome (hmappable.substreams hwritten)
      obtain ⟨hnone,hnot⟩ := Classical.not_imp.mp hsome
      rintro ⟨entries,solid,hparse,-⟩
      rw [parseHeader_eq h hreadable,Spec.parsedStreams,if_pos hwritten,Spec.parsedSubstreams,if_neg hnot,Spec.parsedFolders,
        hnone] at hparse
      cases hparse
    obtain ⟨place,streams,solid,hplaces,hparse⟩ := @parseHeader_streams spec afterHeader h hfits hreadable hwritten hsome
    have hcount := @length_placed spec afterHeader h
    have hexpected : (placeFolders spec.folders 0 (afterHeader + spec.packPos) spec.packSizes).length =
        (spec.files.filter hasStream).length := by
      rw [length_placeFolders,h.streams]
      rfl
    -- the files that have a stream see the places of the parser's tables
    have hentries := fun hdir => @fileEntries_maps place spec.files streams (spec.placed afterHeader) hplaces
      spec.rawFiles.emptyFiles 0 0 (by rw [hplaces.length]; omega) hdir
    have hsizes := numSubstreams_le_sizesRead spec.folders
    have hdigests := length_digestsRead h
    have htake : spec.digestsRead.take (numSubstreams spec.folders) = spec.digestsRead := take_of_length_le (by omega)
    constructor
    · rintro ⟨entries,solid',hok,hmap⟩
      rw [hparse] at hok
      obtain ⟨entries',hfiles,heq⟩ := bind_ok hok
      obtain rfl : entries' = entries := (Prod.mk.inj (Except.ok.inj heq)).1
      have hdir := fileEntries_dir hexpected.symm hfiles hmap
      obtain ⟨entries'',hfiles',hmap'⟩ := hentries hdir
      obtain rfl : entries' = entries'' := Except.ok.inj (hfiles.symm.trans hfiles')
      have hplaced := assign_inj hcount hexpected (hmap'.symm.trans hmap)
      obtain ⟨hright,hright'⟩ := tables_of_placeFolders hsizes (by omega) hplaced
      rw [htake] at hright'
      exact ⟨hreadable,fun _ => hsome,(sizesRead_iff h.folders.2 []).mp hright,(digestsRead_iff h).mp hright',hdir⟩
    · intro hmappable
      obtain ⟨entries,hfiles,hmap⟩ := hentries hmappable.files
      refine ⟨entries,solid,?_,?_⟩
      · rw [hparse,hfiles,ok_bind]
      · have hleft : spec.sizesRead.take (numSubstreams spec.folders) = spec.folders.flatMap FolderSpec.sizes :=
          (sizesRead_iff h.folders.2 []).mpr hmappable.sizes
        have hright := (digestsRead_iff h).mpr hmappable.digests
        rw [← htake] at hright
        rw [hmap,Spec.placed,retable_self spec.folders hleft hright,
          wrapped_placeFolders h.folders.2]
        rfl

def plainFolder (size : ℕ) (crc : Option ℕ) (substreams : List Substream) : FolderSpec where
  coders := [⟨[0x21],1,1,some [0x18]⟩]
  bindPairs := []
  packedIndices := [0]
  unpackSizes := [size]
  crc := crc
  substreams := substreams

def plainFile (name : ℕ) : FileSpec := ⟨[name],true,false,false,none,none⟩

def sampleSpec (folders : List FolderSpec) (files : List FileSpec) (counts sizes digests : Bool) : Spec where
  packPos := 5
  packSizes := folders.map fun _ => 7
  packCrcs := none
  folders := folders
  files := files
  streamsWritten := true
  folderCrcsWritten := true
  substreamsWritten := true
  countsWritten := counts
  sizesWritten := sizes
  digestsWritten := digests
  properties := Spec.fileProperties ⟨5,[],none,folders,files,true,true,true,counts,sizes,digests,[]⟩

theorem woven_self {α : Type} (other : α → Prop) (xs : List α) : Woven other xs xs := by
  induction xs with
  | nil => exact .nil
  | cons x xs ih => exact .take ih

def mixedSpec : Spec :=
  sampleSpec [plainFolder 30 none [⟨10,some 1⟩,⟨20,some 2⟩],plainFolder 8 (some 3) [⟨8,some 3⟩]]
    [plainFile 97,⟨[100],false,false,false,none,some 16⟩,plainFile 98,plainFile 99] true true true

theorem wellFormed_of_checked {spec : Spec} (hproperties : spec.properties=spec.fileProperties ∧ ∀property∈spec.properties,IsU64 property.2.length)
    (hpack : IsU64 spec.packPos ∧ IsU64 spec.packSizes.length ∧ (∀size∈spec.packSizes,IsU64 size) ∧ spec.packCrcs=none)
    (hfolders : IsU64 spec.folders.length ∧ ∀folder∈spec.folders,FolderOk folder)
    (hfiles : IsU64 spec.files.length ∧ ∀file∈spec.files,FileOk file)
    (hstreams : (spec.folders.map fun folder => folder.packedIndices.length).sum ≤ spec.packSizes.length ∧
      (spec.files.filter hasStream).length=numSubstreams spec.folders)
    (hwritten : spec.streamsWritten=true ∧ spec.folderCrcsWritten=true ∧ spec.substreamsWritten=true ∧ spec.countsWritten=true)
    (hsizes : spec.sizesWritten=false→∀folder∈spec.folders,folder.substreams.length≤1)
    (hdigests : spec.digestsWritten=false→∀folder∈spec.folders,∀crc∈folder.digests,crc=none) : WellFormed spec where
  packPos := hpack.1
  packSizes := ⟨hpack.2.1,hpack.2.2.1⟩
  packCrcs := by simp [hpack.2.2.2]
  folders := hfolders
  packStreams := hstreams.1
  files := hfiles
  streams := hstreams.2
  properties := ⟨hproperties.1 ▸ woven_self _ _,hproperties.2⟩
  noStreams := by simp [hwritten.1]
  noFolderCrcs := by simp [hwritten.2.1]
  noSubstreams := by simp [hwritten.2.2.1]
  noCounts := by simp [hwritten.2.2.2]
  noSizes := hsizes
  noDigests := hdigests

theorem wellFormed_mixed : WellFormed mixedSpec := by
  apply wellFormed_of_checked <;> decide +kernel

theorem mapsFiles_mixed : WellFormed mixedSpec ∧ MapsFiles mixedSpec 32 := by
  refine ⟨wellFormed_mixed,(mapsFiles_iff mixedSpec 32 wellFormed_mixed (by decide)).mpr
    ⟨⟨fun _ => ⟨?_,⟨?_,?_⟩,nofun⟩,?_⟩,nofun,?_,nofun,?_⟩⟩
  · decide
  · decide
  · decide
  · decide
  · decide +kernel
  · decide +kernel

/-- The second coder's output goes into the first one, whose output is the folder's. -/
def mainFirst : FolderSpec where
  coders := [⟨[0x21],1,1,some [0x18]⟩,⟨[0x21],1,1,some [0x18]⟩]
  bindPairs := [(0,1)]
  packedIndices := [1]
  unpackSizes := [100,90]
  crc := none
  substreams := [⟨100,some 1⟩]

/-- The folder's size is another one, a folder is without files, sizes are not written, digests are not written. -/
def misreadSpecs : List Spec :=
  [sampleSpec [mainFirst] [plainFile 97] true true true,
    sampleSpec [plainFolder 30 none [],plainFolder 8 none [⟨8,some 3⟩]] [plainFile 97] true true true,
    sampleSpec [plainFolder 30 none [],plainFolder 8 none [⟨8,some 3⟩]] [plainFile 97] true false true,
    sampleSpec [plainFolder 8 (some 3) [⟨8,some 3⟩]] [plainFile 97] true true false]

theorem not_mapsFiles {spec : Spec} {afterHeader : ℕ}
    (h : (parseHeader spec.encode afterHeader).toOption.map (fun r => r.1.map fun entry => (entry.path,entry.placement)) ≠
      some (spec.expected afterHeader)) : ¬MapsFiles spec afterHeader := by
  rintro ⟨entries,solid,hparse,hmap⟩
  apply h
  rw [hparse,←hmap]
  rfl

theorem wellFormed_misread : ∀spec∈misreadSpecs,WellFormed spec := by
  intro spec hspec
  apply wellFormed_of_checked <;> revert spec <;> decide +kernel

theorem misread_members : misreadSpecs.Forall fun spec => WellFormed spec ∧ ¬ MapsFiles spec 32 := by
  have hmaps : ∀ spec ∈ misreadSpecs,
      (parseHeader spec.encode 32).toOption.map (fun r => r.1.map fun entry => (entry.path,entry.placement)) ≠
        some (spec.expected 32) := by
    decide +kernel
  rw [forall_iff_forall_mem]
  intro spec hspec
  exact ⟨wellFormed_misread spec hspec,not_mapsFiles (hmaps spec hspec)⟩

end Members

end Ratarmount.SevenZip
