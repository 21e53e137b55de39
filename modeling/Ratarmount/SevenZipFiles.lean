import Ratarmount.SevenZipRoundTrip

/-!
# Reading the files of an encoded 7z header

The properties of the files bring their names, times and attributes and say which of them
have no stream. Others may stand between them.
-/

namespace Ratarmount.SevenZip

open Reading List Bytes FileSpec

section Names

theorem le_two_ne {unit : ℕ} (h : 0<unit ∧ unit<2^16) : Bytes.le 2 unit≠[0,0] := by
  intro hzero
  have hvalue:=ofLe_le_of_lt (show unit<256^2 by exact h.2)
  rw [hzero] at hvalue
  have hnone : ofLe [0,0]=0:=rfl
  omega

variable {units : List ℕ}

theorem reads_utf16 (h : ∀unit∈units,0<unit ∧ unit<2^16) {turns : ℕ} (hturns : units.length<turns) :
    Reads (readUtf16 turns) (units.flatMap (Bytes.le 2)++[0,0]) units := by
  induction units generalizing turns with
  | nil =>
    obtain ⟨turns,rfl⟩ : ∃t,turns=t+1:=⟨turns - 1,by omega⟩
    refine (reads_exact [0,0]).bind_nil ?_
    exact Reads.pure []
  | cons unit units ih =>
    rw [length_cons] at hturns
    obtain ⟨turns,rfl⟩ : ∃t,turns=t+1:=⟨turns - 1,by omega⟩
    have hunit:=h unit mem_cons_self
    have hrest:=@ih (fun u hu => h u (mem_cons_of_mem _ hu)) turns (by omega)
    refine (reads_le 2 unit).bind ?_
    rw [if_neg (le_two_ne hunit)]
    refine hrest.bind_nil ?_
    rw [ofLe_le_of_lt (show unit<256^2 by exact hunit.2)]
    exact Reads.pure _

theorem reads_utf16z (h : ∀unit∈units,0<unit ∧ unit<2^16) :
    Reads readUtf16z (units.flatMap (Bytes.le 2)++[0,0]) units := by
  intro rest
  have hunits : units.length≤(units.flatMap (Bytes.le 2)).length := by
    apply length_le_flatMap
    intro unit _
    rw [length_le]
    decide
  apply reads_utf16 h
  rw [length_append,length_append]
  omega

end Names

section Properties

/-- Properties that one after the other turn the first files into the last. -/
inductive Applied (numFiles : ℕ) : RawFiles → List (UInt8 × Bytes) → RawFiles → Prop
  | nil {raw : RawFiles} : raw.files.length = numFiles → Applied numFiles raw [] raw
  | cons {raw next last : RawFiles} {property : UInt8 × Bytes} {properties : List (UInt8 × Bytes)} :
      raw.files.length = numFiles → property.1 ≠ 0x00 → Reads (applyProperty raw property.1) property.2 next →
        Applied numFiles next properties last → Applied numFiles raw (property :: properties) last

variable {numFiles : ℕ}

variable {raw last next : RawFiles} {properties : List (UInt8 × Bytes)} {prop : UInt8} {payload xs ys : Bytes}
  {property : UInt8 × Bytes} {turns : ℕ}

theorem Applied.length (h : Applied numFiles raw properties last) : raw.files.length=numFiles := by
  cases h with
  | nil hlen => exact hlen
  | cons hlen => exact hlen

theorem Applied.append {raw next last : RawFiles} {first second : List (UInt8 × Bytes)}
    (hfirst : Applied numFiles raw first next) (hsecond : Applied numFiles next second last) :
    Applied numFiles raw (first++second) last := by
  induction hfirst with
  | nil => exact hsecond
  | cons hlen hid happly _ ih => exact .cons hlen hid happly (ih hsecond)

theorem Applied.one {written : Prop} [Decidable written]
    (hlen : raw.files.length=numFiles ∧ next.files.length=numFiles) (hid : prop≠0x00)
    (hwritten : written → Reads (applyProperty raw prop) payload next) (hnot : ¬written → next=raw) :
    Applied numFiles raw (if written then [(prop,payload)] else []) next := by
  split_ifs with h
  · exact .cons hlen.1 hid (hwritten h) (.nil hlen.2)
  · rw [hnot h]
    exact .nil hlen.1

theorem reads_perFile {values : List (Option ℕ)} {width : ℕ} {n : ℕ} (hn : n=values.length)
    (h : ∀value,some value∈values → value<256^width) :
    Reads (readPerFile n width) (writePerFile width values) values :=
  (reads_bools hn).bind ((reads_byte 0).bind ((Reads.pure _).bind (reads_defined h)))

theorem reads_skipped (h : Skipped raw.files.length property) :
    ∃xs ys,property.2=xs++ys ∧ Reads (applyProperty raw property.1) xs raw := by
  obtain ⟨prop,payload⟩:=property
  rcases h with ⟨hprop,values,hlen,hvalues,rfl⟩ | hprop
  · refine ⟨_,[],(append_nil _).symm,?_⟩
    have hread:=@reads_perFile values 8 _ hlen.symm hvalues
    have hcases : prop=0x12 ∨ prop=0x13 ∨ prop=0x18 := by
      simpa using hprop
    rcases hcases with rfl | rfl | rfl <;> exact hread.bind_nil (Reads.pure _)
  · refine ⟨[],payload,rfl,?_⟩
    simp only [mem_cons,not_or] at hprop
    obtain ⟨-,h14,h15,h16,h17,h18,h19,h20,h21,h24⟩:=hprop
    rw [applyProperty]
    simp only [h14,h15,h16,h17,h18,h19,h20,h21,h24]
    exact Reads.pure raw

theorem reads_property (hu64 : IsU64 payload.length) (hsplit : payload=xs++ys)
    (happly : Reads (applyProperty raw prop) xs next) :
    Reads (parseProperty raw prop) (writeNumber payload.length++payload) next := by
  refine (reads_number hu64).bind ((reads_exact payload).bind_nil ?_)
  rw [hsplit,happly ys]
  exact Reads.pure next

theorem reads_nextProperty {rest : Bytes} (hid : property.1≠0x00) (hu64 : IsU64 property.2.length)
    (hsplit : property.2=xs++ys) (happly : Reads (applyProperty raw property.1) xs next)
    (hrest : Reads (parseFileProperties turns next) rest last) :
    Reads (parseFileProperties (turns+1) raw) (Spec.encodeProperty property++rest) last := by
  rw [Spec.encodeProperty,append_assoc]
  refine (reads_byte property.1).bind ?_
  rw [if_neg hid]
  exact (reads_property hu64 hsplit happly).bind hrest

/-- What stands between the properties changes nothing. -/
theorem reads_fileProperties {all : List (UInt8 × Bytes)} (hwoven : Woven (Skipped numFiles) all properties)
    (happlied : Applied numFiles raw properties last) (hu64 : ∀property∈all,IsU64 property.2.length)
    (hturns : all.length<turns) :
    Reads (parseFileProperties turns raw) (all.flatMap Spec.encodeProperty++[0x00]) last := by
  obtain ⟨turns,rfl⟩ : ∃t,turns=t+1:=⟨turns - 1,by omega⟩
  induction hwoven generalizing raw turns with
  | nil =>
    cases happlied
    refine (reads_byte 0x00).bind_nil ?_
    exact Reads.pure _
  | @skip property all properties hskipped _ ih =>
    rw [length_cons] at hturns
    obtain ⟨turns,rfl⟩ : ∃t,turns=t+1:=⟨turns - 1,by omega⟩
    have hrest:=ih happlied (fun p hp => hu64 p (mem_cons_of_mem _ hp)) turns (by omega)
    have hid : property.1≠0x00 := by
      intro hzero
      rcases hskipped with ⟨hmem,-⟩ | hmem
      · rw [hzero] at hmem
        revert hmem
        decide
      · rw [hzero] at hmem
        exact hmem mem_cons_self
    rw [←happlied.length] at hskipped
    obtain ⟨xs,ys,hsplit,happly⟩:=reads_skipped hskipped
    rw [flatMap_cons,append_assoc]
    exact reads_nextProperty hid (hu64 property mem_cons_self) hsplit happly hrest
  | @take property all properties _ ih =>
    rw [length_cons] at hturns
    obtain ⟨turns,rfl⟩ : ∃t,turns=t+1:=⟨turns - 1,by omega⟩
    cases happlied with
    | cons _ hid happly happlied =>
      have hrest:=ih happlied (fun p hp => hu64 p (mem_cons_of_mem _ hp)) turns (by omega)
      rw [flatMap_cons,append_assoc]
      exact reads_nextProperty hid (hu64 property mem_cons_self) (append_nil _).symm happly hrest

end Properties

section Files

variable {spec : Spec}

def FileSpec.raw (file : FileSpec) : RawFile := ⟨!file.hasStream,slashes file.name,file.mtime.getD 0,file.attributes⟩

def Spec.empty (spec : Spec) : List FileSpec := spec.files.filter fun file => !file.hasStream

def Spec.rawFiles (spec : Spec) : RawFiles :=
  ⟨spec.files.map FileSpec.raw,spec.empty.map emptyFile,spec.empty.map anti⟩

theorem zipWith_stage {β γ : Type} (f : RawFile → β → γ) (raw : FileSpec → RawFile) (value : FileSpec → β) (files : List FileSpec) :
    (files.map raw).zipWith f (files.map value)=files.map fun file => f (raw file) (value file) := by
  rw [zipWith_map,zipWith_self]

variable {raw : FileSpec → RawFile}

theorem length_filter_raw (h : ∀file,(raw file).emptystream = !file.hasStream) :
    ((spec.files.map raw).filter RawFile.emptystream).length=spec.empty.length := by
  rw [filter_map,length_map]
  congr 2
  funext file
  exact h file

theorem all_false_of_not_any {files : List FileSpec} {flag : FileSpec → Bool} (h : ¬files.any flag=true) :
    files.map flag=List.replicate files.length false := by
  apply eq_replicate_iff.mpr
  refine ⟨length_map _,?_⟩
  intro b hb
  obtain ⟨file,hfile,rfl⟩:=mem_map.mp hb
  rw [any_eq_true] at h
  exact Bool.eq_false_iff.mpr fun htrue => h ⟨file,hfile,htrue⟩

theorem reads_flags (h : ∀file,(raw file).emptystream = !file.hasStream) (flag : FileSpec → Bool) :
    Reads (readBools ((spec.files.map raw).filter RawFile.emptystream).length false) (Bits.pack (spec.empty.map flag))
      (spec.empty.map flag) := by
  have hbits:=reads_bits (spec.empty.map flag)
  rw [length_map] at hbits
  rw [length_filter_raw h]
  exact hbits

/-- What is known of a file before its name is read, then before its time and before its attributes. -/
def FileSpec.flagged (file : FileSpec) : RawFile := ⟨!file.hasStream,[],0,none⟩

def FileSpec.named (file : FileSpec) : RawFile := { file.flagged with filename := slashes file.name }

def FileSpec.timed (file : FileSpec) : RawFile := { file.named with mtime := file.mtime.getD 0 }

theorem applied_emptyStreams (spec : Spec) :
    Applied spec.files.length ⟨List.replicate spec.files.length ⟨false,[],0,none⟩,[],[]⟩
      (if spec.empty=[] then [] else [(0x0e,Bits.pack (spec.files.map fun file => !file.hasStream))])
      ⟨spec.files.map flagged,List.replicate spec.empty.length false,List.replicate spec.empty.length false⟩ := by
  have hblank : List.replicate spec.files.length (⟨false,[],0,none⟩ : RawFile) =
      spec.files.map fun _ => ⟨false,[],0,none⟩ := map_const'.symm
  rw [hblank]
  split_ifs with hnone
  · have hflagged : (spec.files.map fun _ => (⟨false,[],0,none⟩ : RawFile))=spec.files.map flagged := by
      apply map_congr_left
      intro file hfile
      have hstream:=filter_eq_nil_iff.mp hnone file hfile
      rw [flagged,Bool.not_eq_true _ |>.mp hstream]
    rw [hnone,hflagged]
    exact .nil (length_map _)
  · refine .cons (length_map _) (show (0x0e : UInt8)≠0x00 by decide) ?_ (.nil (length_map _))
    have hbits:=reads_bits (spec.files.map fun file => !file.hasStream)
    rw [length_map] at hbits
    have hread : Reads (readBools (spec.files.map fun _ => (⟨false,[],0,none⟩ : RawFile)).length false)
        (Bits.pack (spec.files.map fun file => !file.hasStream)) (spec.files.map fun file => !file.hasStream) := by
      rw [length_map]
      exact hbits
    refine hread.bind_nil ?_
    have hempty : ((spec.files.map fun file => !file.hasStream).filter id).length=spec.empty.length := by
      rw [filter_map,length_map]
      rfl
    rw [zipWith_stage,hempty]
    exact Reads.pure _

theorem applied_emptyFiles (spec : Spec) (antiFiles : List Bool) :
    Applied spec.files.length ⟨spec.files.map flagged,List.replicate spec.empty.length false,antiFiles⟩
      (if spec.empty.any emptyFile=true then [(0x0f,Bits.pack (spec.empty.map emptyFile))] else [])
      ⟨spec.files.map flagged,spec.empty.map emptyFile,antiFiles⟩ := by
  apply Applied.one
  · exact ⟨length_map _,length_map _⟩
  · decide
  · intro _
    exact (reads_flags (fun _ => rfl) emptyFile).bind_nil (Reads.pure _)
  · intro hnone
    rw [all_false_of_not_any hnone]

theorem applied_anti (spec : Spec) (emptyFiles : List Bool) :
    Applied spec.files.length ⟨spec.files.map flagged,emptyFiles,List.replicate spec.empty.length false⟩
      (if spec.empty.any anti=true then [(0x10,Bits.pack (spec.empty.map anti))] else [])
      ⟨spec.files.map flagged,emptyFiles,spec.empty.map anti⟩ := by
  apply Applied.one
  · exact ⟨length_map _,length_map _⟩
  · decide
  · intro _
    exact (reads_flags (fun _ => rfl) anti).bind_nil (Reads.pure _)
  · intro hnone
    rw [all_false_of_not_any hnone]

/-- A number that only some of the files have. -/
theorem applied_perFile {id : UInt8} {width : ℕ} {value : FileSpec → Option ℕ} {raw next : FileSpec → RawFile}
    {step : RawFile → Option ℕ → RawFile} {emptyFiles antiFiles : List Bool} (hid : id≠0x00)
    (hvalue : ∀file∈spec.files,∀v,value file=some v → v<256^width)
    (happly : ∀files,applyProperty ⟨files,emptyFiles,antiFiles⟩ id =
      readPerFile files.length width >>= fun values => pure ⟨files.zipWith step values,emptyFiles,antiFiles⟩)
    (hnext : ∀file,step (raw file) (value file)=next file) (hnone : ∀file,step (raw file) none=raw file) :
    Applied spec.files.length ⟨spec.files.map raw,emptyFiles,antiFiles⟩
      (if spec.files.any (fun file => (value file).isSome)=true then [(id,writePerFile width (spec.files.map value))] else [])
      ⟨spec.files.map next,emptyFiles,antiFiles⟩ := by
  rw [←funext hnext]
  apply Applied.one ⟨length_map _,length_map _⟩ hid
  · intro _
    have hread : Reads (readPerFile (spec.files.map raw).length width) (writePerFile width (spec.files.map value))
        (spec.files.map value) := by
      apply reads_perFile
      · rw [length_map,length_map]
      · intro v hv
        obtain ⟨file,hfile,heq⟩:=mem_map.mp hv
        exact hvalue file hfile v heq
    rw [happly,←zipWith_stage]
    exact hread.bind_nil (Reads.pure _)
  · intro hany
    congr 1
    apply map_congr_left
    intro file hfile
    have hmissing : value file=none := by
      rw [any_eq_true] at hany
      exact Option.not_isSome_iff_eq_none.mp fun hsome => hany ⟨file,hfile,hsome⟩
    rw [hmissing,hnone]

variable (h : WellFormed spec)
include h

theorem applied_names (emptyFiles antiFiles : List Bool) :
    Applied spec.files.length ⟨spec.files.map flagged,emptyFiles,antiFiles⟩
      [(0x11,0::spec.files.flatMap fun file => file.name.flatMap (Bytes.le 2)++[0,0])]
      ⟨spec.files.map named,emptyFiles,antiFiles⟩ := by
  refine .cons (length_map _) (show (0x11 : UInt8)≠0x00 by decide) ?_ (.nil (length_map _))
  have hnames : Reads (times (spec.files.map flagged).length readUtf16z)
      (spec.files.flatMap fun file => file.name.flatMap (Bytes.le 2)++[0,0]) (spec.files.map FileSpec.name) := by
    rw [length_map]
    exact Reads.times fun file hfile => reads_utf16z (h.files.2 file hfile).name
  refine (reads_byte 0).bind ((Reads.pure _).bind (hnames.bind_nil ?_))
  rw [zipWith_stage]
  exact Reads.pure _

theorem applied_times (emptyFiles antiFiles : List Bool) :
    Applied spec.files.length ⟨spec.files.map named,emptyFiles,antiFiles⟩
      (if spec.files.any (fun file => file.mtime.isSome)=true then [(0x14,writePerFile 8 (spec.files.map FileSpec.mtime))]
        else []) ⟨spec.files.map timed,emptyFiles,antiFiles⟩ :=
  applied_perFile (by decide) (fun file hfile => (h.files.2 file hfile).mtime) (fun _ => rfl) (fun _ => rfl) fun _ => rfl

theorem applied_attributes (emptyFiles antiFiles : List Bool) :
    Applied spec.files.length ⟨spec.files.map timed,emptyFiles,antiFiles⟩
      (if spec.files.any (fun file => file.attributes.isSome)=true then
        [(0x15,writePerFile 4 (spec.files.map FileSpec.attributes))] else [])
      ⟨spec.files.map FileSpec.raw,emptyFiles,antiFiles⟩ := by
  refine applied_perFile (by decide) (fun file hfile => (h.files.2 file hfile).attributes) (fun _ => rfl) ?_ fun _ => rfl
  intro file
  rw [show file.timed.attributes=none from rfl,Option.or_none]
  rfl

theorem applied_fileProperties :
    Applied spec.files.length ⟨List.replicate spec.files.length ⟨false,[],0,none⟩,[],[]⟩ spec.fileProperties
      spec.rawFiles := by
  have hempty:=(applied_emptyStreams spec).append (applied_emptyFiles spec _)
  have hnamed:=(hempty.append (applied_anti spec _)).append (applied_names h _ _)
  exact (hnamed.append (applied_times h _ _)).append (applied_attributes h _ _)

theorem reads_filesInfo : ReadsIf (spec.files.length≤10000000) parseFilesInfo spec.encodeFilesInfo spec.rawFiles := by
  refine ReadsIf.of_iff ((reads_number h.files.1).bindIf (ReadsIf.limit (Reads.always ?_))) (by rw [and_true,Nat.not_lt])
  intro rest
  have hproperties : spec.properties.length≤(spec.properties.flatMap Spec.encodeProperty).length :=
    length_le_flatMap fun property _ => Nat.succ_pos _
  apply reads_fileProperties h.properties.1 (applied_fileProperties h) h.properties.2
  rw [length_append,length_append]
  omega

end Files

section Header

variable {spec : Spec}

structure Readable (spec : Spec) : Prop where
  streams : spec.streamsWritten = true → StreamsReadable spec
  files : spec.files.length ≤ 10000000

def Spec.parsedStreams (spec : Spec) : Option StreamsInfo :=
  if spec.streamsWritten = true then some ⟨some spec.packInfo,spec.parsedFolders,spec.parsedSubstreams⟩ else none

theorem encode_eq (spec : Spec) : spec.encode =
    [sectionId spec.streamsWritten 0x04 0x05]++(sectionBody spec.streamsWritten spec.encodeStreamsInfo 0x05 ++
      sectionBody true spec.encodeFilesInfo 0x00) := writeSection_append _ _ _ _ _

theorem reads_header (h : WellFormed spec) :
    ReadsIf (Readable spec) parseUnpackedHeader spec.encode (spec.parsedStreams,spec.rawFiles) := by
  have hstreams:=@readsIf_optional _ _ spec.streamsWritten 0x04 0x05 _ _ _ (fun _ => reads_streamsInfo h) (by decide)
  have hfiles:=@readsIf_optional _ _ true 0x05 0x00 _ _ _ (fun _ => reads_filesInfo h) (by decide)
  rw [encode_eq]
  refine ReadsIf.of_iff ((reads_byte _).bindIf (hstreams.bind (hfiles.last (reads_end _)))) ?_
  exact ⟨fun h => ⟨h.streams,fun _ => h.files⟩,fun h => ⟨h.1,h.2 rfl⟩⟩

end Header

end Ratarmount.SevenZip
