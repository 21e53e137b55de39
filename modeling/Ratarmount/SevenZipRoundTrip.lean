import Mathlib.Algebra.Order.BigOperators.Group.List
import Ratarmount.SevenZipFormat

/-!
# Reading an encoded 7z header

Every part of the encoding is read back by its parser, whatever follows it. The limits of
the parser are the only ones.
-/

namespace Ratarmount.SevenZip

open Reading List Bytes Reads FolderSpec

section Fields

theorem reads_exact (bytes : Bytes) : Reads (readExact bytes.length) bytes bytes := by
  intro rest
  rw [readExact,if_neg (by rw [length_append]; omega),take_left' rfl,drop_left' rfl]

theorem reads_byte (byte : UInt8) : Reads readByte [byte] byte :=
  (reads_exact [byte]).bind_nil (Reads.pure _)

theorem reads_le (width n : ℕ) : Reads (readExact width) (Bytes.le width n) (Bytes.le width n) := by
  have hreads:=reads_exact (Bytes.le width n)
  rwa [length_le] at hreads

variable {extra n : ℕ} {values : List (Option ℕ)} {α : Type}

theorem firstByte_eq {high : ℕ} (hextra : extra≤7) (hhigh : high<2^(7-extra)) :
    256-2^(8-extra)+high<255 ∧ leadingOnes (256-2^(8-extra)+high) 8=extra ∧
      (256-2^(8-extra)+high) % 2^(7-extra)=high := by
  have hall : ∀extra≤7,∀high<2^(7-extra),256-2^(8-extra)+high<255 ∧
      leadingOnes (256-2^(8-extra)+high) 8=extra ∧
      (256-2^(8-extra)+high) % 2^(7-extra)=high := by
    decide +kernel
  exact hall extra hextra high hhigh

theorem reads_numberIn (h : extra≤7 ∧ n<2^(7*(extra+1)) ∨ extra=8 ∧ IsU64 n) :
    Reads readUint64 (writeNumberIn extra n) n := by
  rw [writeNumberIn]
  rcases h with ⟨hextra,hn⟩ | ⟨rfl,hn⟩
  · rw [if_neg (by omega)]
    obtain ⟨high,hhigh⟩ : ∃high,high=n / 2^(8*extra):=⟨_,rfl⟩
    have hlt : high<2^(7-extra) := by
      rw [hhigh,Nat.div_lt_iff_lt_mul (Nat.two_pow_pos _),←pow_add]
      rwa [show 7-extra+8*extra=7*(extra+1) by omega]
    obtain ⟨hfirst,hones,hmod⟩:=firstByte_eq hextra hlt
    rw [←hhigh]
    obtain ⟨first,hdef⟩ : ∃first,first=256 - 2^(8 - extra)+high:=⟨_,rfl⟩
    rw [←hdef] at hfirst hones hmod ⊢
    have hnat : (UInt8.ofNat first).toNat=first:=UInt8.toNat_ofNat_of_lt' (by simp only [UInt8.size]; omega)
    have hff : UInt8.ofNat first≠0xff := by
      intro heq
      rw [heq] at hnat
      have hval : (0xff : UInt8).toNat=255:=rfl
      omega
    refine (reads_byte _).bind (k := _) ?_
    rw [if_neg hff,hnat,hones]
    dsimp only
    split_ifs with hzero hseven
    · subst hzero
      have heq : first=n := by
        rw [hdef,hhigh]
        norm_num
      rw [heq]
      exact Reads.pure n
    · refine (reads_le extra n).bind_nil ?_
      have hvalue : ofLe (Bytes.le extra n) ||| high <<< (8*extra)=n := by
        have hlow : n % 2^(8*extra)<2^(8*extra):=Nat.mod_lt _ (Nat.two_pow_pos _)
        rw [ofLe_le,show 256^extra=2^(8*extra) by rw [Nat.pow_mul],Nat.or_comm,
          ← Nat.shiftLeft_add_eq_or_of_lt hlow,Nat.shiftLeft_eq,hhigh]
        exact Nat.div_add_mod' n _
      rw [hmod,hvalue]
      exact Reads.pure n
    · refine (reads_le extra n).bind_nil ?_
      obtain rfl : extra=7 := by omega
      rw [ofLe_le_of_lt (by exact hn)]
      exact Reads.pure n
  · rw [if_pos rfl]
    refine (reads_byte 0xff).bind (k := _) ?_
    refine (reads_le 8 n).bind_nil ?_
    rw [ofLe_le_of_lt (by exact hn)]
    exact Reads.pure n

theorem reads_number (h : IsU64 n) : Reads readUint64 (writeNumber n) n := by
  apply reads_numberIn
  cases hfind : (List.range 8).find? fun extra => n<2^(7*(extra+1)) with
  | none => exact .inr ⟨rfl,h⟩
  | some extra =>
    have hextra:=mem_range.mp (mem_of_find?_eq_some hfind)
    have hfits:=find?_some hfind
    rw [Option.getD_some]
    exact .inl ⟨by omega,of_decide_eq_true hfits⟩

theorem reads_numbers {ns : List ℕ} (h : ∀n∈ns,IsU64 n) :
    Reads (times ns.length readUint64) (ns.flatMap writeNumber) ns := by
  have htimes : Reads (times ns.length readUint64) (ns.flatMap writeNumber) (ns.map id) :=
    times fun n hn => reads_number (h n hn)
  rwa [map_id] at htimes

/-- The bits left of the last byte come first. -/
theorem reads_bits_left {left : List Bool} {n : ℕ} {xs : Bytes} {bits : List Bool} (h : Reads (readBits n []) xs bits) :
    Reads (readBits (left.length+n) left) xs (left++bits) := by
  induction left with
  | nil =>
    rw [length_nil,zero_add]
    exact h
  | cons bit left ih =>
    rw [length_cons,add_right_comm]
    exact ih.bind_nil (Reads.pure _)

theorem reads_bits_within {left : List Bool} {n : ℕ} (h : n≤left.length) : Reads (readBits n left) [] (left.take n) := by
  induction n generalizing left with
  | zero => exact Reads.pure []
  | succ n ih =>
    cases left with
    | nil =>
      rw [length_nil] at h
      omega
    | cons bit left =>
      rw [length_cons] at h
      exact (ih (by omega)).bind_nil (Reads.pure _)

theorem reads_bits (bits : List Bool) : Reads (readBits bits.length []) (Bits.pack bits) bits := by
  have hrun : ∀(turns : ℕ) (bits : List Bool),bits.length≤turns →
      Reads (readBits bits.length []) (Bits.packFrom turns bits) bits := by
    intro turns
    induction turns with
    | zero =>
      intro bits hle
      obtain rfl : bits=[]:=length_eq_zero_iff.mp (Nat.le_zero.mp hle)
      exact Reads.pure []
    | succ turns ih =>
      intro bits hle
      cases bits with
      | nil => exact Reads.pure []
      | cons bit bits =>
        obtain ⟨w,hw⟩ : ∃w,w=((bit::bits)++List.replicate 7 false).take 8:=⟨_,rfl⟩
        have hlen : w.length=8 := by
          rw [hw,length_take,length_append,length_replicate,length_cons]
          omega
        have hcons : w=bit::(bits++List.replicate 7 false).take 7 := by
          rw [hw,cons_append,take_succ_cons]
        rw [Bits.packFrom,←hw]
        refine (reads_byte _).bind (k := _) ?_
        rw [Bits.ofByte_value hlen,hcons,headD_cons]
        rw [length_cons] at hle
        by_cases hlong : 7≤bits.length
        · have htake : (bits++List.replicate 7 false).take 7=bits.take 7:=take_append_of_le_length hlong
          have hdrop:=ih (bits.drop 7) (by rw [length_drop]; omega)
          have hleft:=@reads_bits_left (bits.take 7) _ _ _ hdrop
          rw [take_append_drop,length_take,length_drop,min_eq_left hlong,Nat.add_sub_cancel' hlong] at hleft
          rw [htake]
          exact hleft.bind_nil (Reads.pure _)
        · have hshort:=@reads_bits_within ((bits++List.replicate 7 false).take 7) bits.length (by
            rw [length_take,length_append]
            omega)
          rw [take_take,min_eq_left (by omega),take_left' rfl] at hshort
          have hnil : Bits.packFrom turns ((bit::bits).drop 8)=[] := by
            rw [drop_eq_nil_of_le (by rw [length_cons]; omega)]
            cases turns <;> rfl
          rw [hnil]
          exact hshort.bind_nil (Reads.pure _)
  exact hrun bits.length bits le_rfl

theorem reads_bools (hn : n=values.length) :
    Reads (readBools n true) (writeDefined values) (values.map Option.isSome) := by
  subst hn
  rw [readBools,if_pos rfl,writeDefined]
  split_ifs with hall
  · refine (reads_byte 1).bind_nil ?_
    have htrue : List.replicate values.length true=values.map Option.isSome := by
      symm
      apply eq_replicate_iff.mpr
      refine ⟨length_map _,?_⟩
      intro b hb
      obtain ⟨value,hvalue,rfl⟩:=mem_map.mp hb
      exact all_eq_true.mp hall value hvalue
    rw [htrue]
    exact Reads.pure _
  · refine (reads_byte 0).bind ?_
    have hbits:=reads_bits (values.map Option.isSome)
    rw [length_map] at hbits
    exact hbits

theorem reads_defined {width : ℕ} (h : ∀value,some value∈values → value<256^width) :
    Reads (readDefined width (values.map Option.isSome)) (writeValues width values) values := by
  induction values with
  | nil => exact Reads.pure []
  | cons value values ih =>
    have hrest:=ih fun v hv => h v (mem_cons_of_mem _ hv)
    cases value with
    | none => exact (Reads.pure (none : Option ℕ)).bind (hrest.bind_nil (Reads.pure _))
    | some v =>
      have hv : Reads (readExact width >>= fun bytes => pure (some (ofLe bytes))) (Bytes.le width v) (some v) := by
        refine (reads_le width v).bind_nil ?_
        rw [ofLe_le_of_lt (h v mem_cons_self)]
        exact Reads.pure _
      exact hv.bind (hrest.bind_nil (Reads.pure _))

theorem reads_crcs {crcs : List (Option ℕ)} (hn : n=crcs.length) (h : ∀crc,some crc∈crcs → IsU32 crc) :
    Reads (readCrcs n) (writeCrcs crcs) crcs :=
  (reads_bools hn).bind (reads_defined h)

/-- The id that stands where the section would begin. -/
def sectionId (written : Bool) (id next : UInt8) : UInt8 := if written = true then id else next

/-- What is left of the section behind that id, with the next one. -/
def sectionBody (written : Bool) (body : Bytes) (next : UInt8) : Bytes := if written = true then body ++ [next] else []

theorem writeSection_append (written : Bool) (id next : UInt8) (body rest : Bytes) :
    writeSection written id body++([next]++rest)=[sectionId written id next]++(sectionBody written body next++rest) := by
  cases written
  · rfl
  · exact congrArg (id::·) (append_assoc body [next] rest).symm

section Optional

variable {c : Prop} {written : Bool} {id next : UInt8} {p : Parser α} {body : Bytes} {a : α}

theorem readsIf_optional (hp : written=true → ReadsIf c p body a) (hnext : next≠id) :
    ReadsIf (written=true → c) (optional id p (sectionId written id next)) (sectionBody written body next)
      (if written=true then some a else none,next) := by
  cases written with
  | false =>
    rw [optional,sectionId,if_neg Bool.false_ne_true,if_neg hnext]
    exact (Reads.pure _).always.of_iff (iff_true_intro nofun)
  | true =>
    rw [optional,sectionId,if_pos rfl,if_pos rfl]
    exact ReadsIf.of_iff ((hp rfl).andThen ((reads_byte next).bind_nil (Reads.pure _))) (forall_prop_of_true rfl)

theorem reads_optional (hp : written=true → Reads p body a) (hnext : next≠id) :
    Reads (optional id p (sectionId written id next)) (sectionBody written body next)
      (if written=true then some a else none,next) :=
  (readsIf_optional (fun hwritten => (hp hwritten).always) hnext).reads fun _ => trivial

end Optional

theorem reads_end (a : α) : Reads (expectEnd 0x00 a) [] a := Reads.pure a

end Fields

section Streams

variable {spec : Spec}

def Spec.packInfo (spec : Spec) : PackInfo :=
  ⟨spec.packPos,spec.packSizes,spec.packCrcs.getD (List.replicate spec.packSizes.length none)⟩

theorem writeSection_end (written : Bool) (id : UInt8) (body : Bytes) :
    writeSection written id body++[0x00]=[sectionId written id 0x00]++sectionBody written body 0x00 := by
  have happend:=writeSection_append written id 0x00 body []
  rwa [append_nil,append_nil] at happend

variable {size : ℕ} {folder : FolderSpec}

theorem flags_eq (h : size<16) (complex attrs : Prop) [Decidable complex] [Decidable attrs] :
    let flags := (UInt8.ofNat (size+(if complex then 16 else 0)+(if attrs then 32 else 0))).toNat
    flags % 16=size ∧ flags.testBit 7=false ∧ flags.testBit 4=decide complex ∧ flags.testBit 5=decide attrs := by
  have hall : ∀size<16,∀complex attrs : Bool,
      let flags := (UInt8.ofNat (size+(if complex=true then 16 else 0)+(if attrs=true then 32 else 0))).toNat
      flags % 16=size ∧ flags.testBit 7=false ∧ flags.testBit 4=complex ∧ flags.testBit 5=attrs := by
    decide +kernel
  have hbools:=hall size h (decide complex) (decide attrs)
  simpa only [decide_eq_true_eq] using hbools

theorem reads_coder {coder : Coder} (h : CoderOk coder) : Reads parseCoder (encodeCoder coder) coder := by
  obtain ⟨hsize,hbit,hcomplex,hattrs⟩:=flags_eq h.method.2 (coder.numInStreams≠1 ∨ coder.numOutStreams≠1)
    (coder.properties.isSome=true)
  refine (reads_byte _).bind ?_
  rw [hsize,hbit,hcomplex,hattrs,if_neg Bool.false_ne_true,if_neg (ne_of_gt h.method.1)]
  refine (reads_exact coder.method).bind (Reads.bind (a := (coder.numInStreams,coder.numOutStreams)) ?_
    (bind_nil (a := coder.properties) ?_ (Reads.pure _)))
  · rw [parseStreamCounts]
    simp only [decide_eq_true_eq]
    split_ifs with hmany
    · exact (reads_number h.streams.1).bind ((reads_number h.streams.2).bind_nil (Reads.pure _))
    · obtain ⟨hin,hout⟩:=not_or.mp hmany
      rw [not_not.mp hin,not_not.mp hout]
      exact Reads.pure _
  · rw [parseProperties]
    cases hproperties : coder.properties with
    | none => exact Reads.pure none
    | some properties =>
      have hlen:=h.properties properties hproperties
      exact (reads_number hlen).bind ((reads_exact properties).bind_nil (Reads.pure _))

theorem reads_pair {pair : ℕ × ℕ} (h : IsU64 pair.1 ∧ IsU64 pair.2) : Reads readPair (encodePair pair) pair :=
  (reads_number h.1).bind ((reads_number h.2).bind_nil (Reads.pure _))

/-- A folder before its sizes and its checksum are read. -/
def bareFolder (folder : Folder) : Folder := { folder with unpackSizes := [], crc := none }

theorem reads_folder (h : FolderOk folder) :
    ReadsIf (folder.coders.length≤64) parseFolder (encodeFolder folder.toFolder) (bareFolder folder.toFolder) := by
  have hcoders : Reads (times folder.coders.length parseCoder) (folder.coders.flatMap encodeCoder) folder.coders := by
    have htimes : Reads (times folder.coders.length parseCoder) (folder.coders.flatMap encodeCoder) (folder.coders.map id) :=
      times fun coder hcoder => reads_coder (h.coders coder hcoder)
    rwa [map_id] at htimes
  have hpairs : Reads (times (folder.totalOutStreams-1) readPair) (folder.bindPairs.flatMap encodePair)
      folder.bindPairs := by
    have htimes : Reads (times folder.bindPairs.length readPair) (folder.bindPairs.flatMap encodePair)
        (folder.bindPairs.map id) :=
      times fun pair hpair => reads_pair (h.pairs pair hpair)
    rwa [map_id,h.bindPairs] at htimes
  have hpacked : Reads (parsePacked folder.totalInStreams folder.bindPairs)
      (if folder.packedIndices.length=1 then [] else folder.packedIndices.flatMap writeNumber) folder.packedIndices := by
    rw [parsePacked,←h.packed.2]
    split_ifs with hone
    · rw [←h.single hone]
      exact Reads.pure _
    · exact reads_numbers h.packedIndices
  refine ReadsIf.of_iff ((reads_number h.counted.1).bindIf (ReadsIf.limit (always ?_))) ?_
  · exact hcoders.bind (hpairs.bind (hpacked.bind_nil (Reads.pure _)))
  · have hsome:=length_pos_iff.mpr h.someCoder
    rw [and_true]
    omega

def Spec.parsedFolders (spec : Spec) : List Folder := spec.folders.map toFolder

structure FolderLimits (spec : Spec) : Prop where
  folders : spec.folders.length ≤ 1000000
  coders : ∀ folder ∈ spec.folders, folder.coders.length ≤ 64

theorem reads_unpackSizes (h : FolderOk folder) :
    Reads (readUnpackSizes (bareFolder folder.toFolder)) (folder.unpackSizes.flatMap writeNumber)
      { folder.toFolder with crc := none } := by
  have hsizes:=reads_numbers h.unpackSizes.2
  rw [h.unpackSizes.1] at hsizes
  exact hsizes.bind_nil (Reads.pure _)

def FolderSpec.readSizes (folder : FolderSpec) : List ℕ :=
  folder.sizes.dropLast ++ [folder.getUnpackSize - folder.sizes.dropLast.sum]

def Spec.counted (spec : Spec) : List (Folder × ℕ) := spec.folders.map fun folder => (folder.toFolder,folder.substreams.length)

def Spec.readDigests (spec : Spec) : List (Option ℕ) :=
  if spec.digestsWritten = true then spec.folders.flatMap fun folder => folder.substreams.map Substream.crc
  else List.replicate (spec.counted.map Prod.snd).sum none

def Spec.substreamsRead (spec : Spec) : SubstreamsInfo :=
  ⟨spec.counted.map Prod.snd,(spec.folders.map readSizes).flatten,spec.readDigests⟩

/-- Without sizes no folder has to be without substreams. -/
def SizesThere (spec : Spec) : Prop := spec.sizesWritten = false → ∀ folder ∈ spec.folders, folder.substreams.length = 1

theorem numDigests_counted (spec : Spec) : numDigests spec.counted=(spec.folders.flatMap digests).length := by
  rw [numDigests,Spec.counted,map_map,length_flatMap]
  congr 1
  apply map_congr_left
  intro folder _
  simp only [Function.comp_apply,hasOwnDigest,digests,decide_eq_true_eq]
  split_ifs
  · rfl
  · rw [length_map]

theorem spreadDigests_eq {folders : List FolderSpec} (h : ∀folder∈folders,FolderOk folder) :
    spreadDigests (folders.map fun folder => (folder.toFolder,folder.substreams.length))
      (folders.flatMap digests)=folders.flatMap fun folder => folder.substreams.map Substream.crc := by
  induction folders with
  | nil => rfl
  | cons folder folders ih =>
    have hrest:=ih fun f hf => h f (mem_cons_of_mem _ hf)
    have hok:=h folder mem_cons_self
    rw [map_cons,spreadDigests,flatMap_cons,flatMap_cons]
    simp only [hasOwnDigest,decide_eq_true_eq]
    split_ifs with hown
    · obtain ⟨substream,hone⟩:=length_eq_one_iff.mp hown.1
      rw [digests,if_pos hown,nil_append,hrest,hone,map_singleton,hok.ownCrc substream hone hown.2]
      rfl
    · rw [digests,if_neg hown,take_left' (length_map _),drop_left' (length_map _),hrest]

theorem isU64_folderSize (h : FolderOk folder) : IsU64 folder.size := by
  rw [size]
  cases hsize : folder.unbound.head?.bind fun i => folder.unpackSizes[i]? with
  | none => exact Nat.two_pow_pos 64
  | some size =>
    obtain ⟨i,-,hi⟩:=Option.bind_eq_some_iff.mp hsize
    exact h.unpackSizes.2 size (mem_of_getElem? hi)

theorem isU64_size (h : FolderOk folder) (hsize : size∈folder.sizes) : IsU64 size := by
  have hsome : folder.substreams≠[] := by
    rintro hnil
    rw [sizes,hnil] at hsize
    cases hsize
  have hle:=le_sum_of_mem hsize
  rw [h.sizes hsome] at hle
  exact lt_of_le_of_lt hle (isU64_folderSize h)

theorem sum_dropLast_sizes (h : FolderOk folder) : folder.sizes.dropLast.sum % 2^64=folder.sizes.dropLast.sum := by
  apply Nat.mod_eq_of_lt
  by_cases hnil : folder.substreams=[]
  · rw [sizes,hnil]
    exact Nat.two_pow_pos 64
  · have hle : folder.sizes.dropLast.sum≤folder.sizes.sum:=(dropLast_sublist _).sum_le_sum (fun _ _ => Nat.zero_le _)
    rw [h.sizes hnil] at hle
    exact lt_of_le_of_lt hle (isU64_folderSize h)

theorem reads_substreamSizes (h : FolderOk folder) :
    Reads (readSubstreamSizes (folder.toFolder,folder.substreams.length)) (folder.sizes.dropLast.flatMap writeNumber)
      folder.readSizes := by
  have hsizes:=reads_numbers fun size hsize => isU64_size h ((dropLast_sublist folder.sizes).subset hsize)
  rw [length_dropLast,sizes,length_map] at hsizes
  rw [readSizes,←sum_dropLast_sizes h]
  exact hsizes.bind_nil (Reads.pure _)

theorem readSizes_single (h : folder.substreams.length=1) : folder.readSizes=[folder.getUnpackSize] := by
  have hnil : folder.sizes.dropLast=[] := by
    apply length_eq_zero_iff.mp
    rw [length_dropLast,sizes,length_map,h]
  rw [readSizes,hnil]
  rfl

theorem reads_wholeFolder (folder : FolderSpec) :
    ReadsIf (folder.substreams.length=1) (wholeFolder (folder.toFolder,folder.substreams.length)) [] folder.readSizes := by
  rw [wholeFolder]
  split_ifs with h
  · rw [readSizes_single h]
    exact (Reads.pure _).always.of_iff (iff_true_intro h)
  · exact ⟨fun hone => absurd hone h,fun _ => Fails.throw _⟩

theorem counted_eq (spec : Spec) :
    spec.parsedFolders.zip (spec.folders.map fun folder => folder.substreams.length)=spec.counted := by
  rw [Spec.parsedFolders,zip_map',Spec.counted]

def digestsId (spec : Spec) : UInt8 := sectionId spec.digestsWritten 0x0a 0x00

def sizesId (spec : Spec) : UInt8 := sectionId spec.sizesWritten 0x09 (digestsId spec)

theorem digestsId_ne (spec : Spec) : digestsId spec≠0x09 := by
  rw [digestsId]
  cases spec.digestsWritten <;> decide

theorem sizesId_ne (spec : Spec) : sizesId spec≠0x0d := by
  rw [sizesId,digestsId]
  cases spec.sizesWritten <;> cases spec.digestsWritten <;> decide

theorem encodeSubstreamsInfo_eq (spec : Spec) : spec.encodeSubstreamsInfo =
    [sectionId spec.countsWritten 0x0d (sizesId spec)] ++
      (sectionBody spec.countsWritten (spec.folders.flatMap fun folder => writeNumber folder.substreams.length) (sizesId spec) ++
        (sectionBody spec.sizesWritten (spec.folders.flatMap fun folder => folder.sizes.dropLast.flatMap writeNumber)
            (digestsId spec) ++
          sectionBody spec.digestsWritten (writeCrcs (spec.folders.flatMap digests)) 0x00)) := by
  rw [Spec.encodeSubstreamsInfo,writeSection_end,writeSection_append,writeSection_append]
  rfl

/-- The parser's limits on the streams, and the sizes it does not do without. -/
structure StreamsReadable (spec : Spec) : Prop where
  packSizes : spec.packSizes.length ≤ 1000000
  folders : FolderLimits spec
  sizes : spec.substreamsWritten = true → SizesThere spec

def Spec.parsedSubstreams (spec : Spec) : Option SubstreamsInfo :=
  if spec.substreamsWritten = true then some spec.substreamsRead else wholeFolders spec.parsedFolders

def substreamsId (spec : Spec) : UInt8 := sectionId spec.substreamsWritten 0x08 0x00

theorem substreamsId_ne (spec : Spec) : substreamsId spec≠0x07 := by
  rw [substreamsId]
  cases spec.substreamsWritten <;> decide

theorem encodeStreamsInfo_eq (spec : Spec) : spec.encodeStreamsInfo =
    [0x06]++(sectionBody true spec.encodePackInfo 0x07++(sectionBody true spec.encodeUnpackInfo (substreamsId spec) ++
      sectionBody spec.substreamsWritten spec.encodeSubstreamsInfo 0x00)) := by
  rw [Spec.encodeStreamsInfo,writeSection_end]
  simp only [sectionBody,if_true,append_assoc]
  rfl

variable (h : WellFormed spec)
include h

theorem reads_packInfo : ReadsIf (spec.packSizes.length≤1000000) parsePackInfo spec.encodePackInfo spec.packInfo := by
  have hcrcs : Reads (optional 0x0a (readCrcs spec.packSizes.length) (sectionId spec.packCrcs.isSome 0x0a 0x00))
      (sectionBody spec.packCrcs.isSome (writeCrcs (spec.packCrcs.getD [])) 0x00) (spec.packCrcs,0x00) := by
    have hsection:=@reads_optional _ spec.packCrcs.isSome 0x0a 0x00 (readCrcs spec.packSizes.length)
      (writeCrcs (spec.packCrcs.getD [])) (spec.packCrcs.getD []) ?_ (by decide)
    · cases hsome : spec.packCrcs with
      | none =>
        rw [hsome] at hsection
        exact hsection
      | some crcs =>
        rw [hsome] at hsection
        exact hsection
    · intro hsome
      obtain ⟨crcs,hsome⟩:=Option.isSome_iff_exists.mp hsome
      obtain ⟨hlen,hu32⟩:=h.packCrcs crcs hsome
      rw [hsome]
      exact reads_crcs hlen.symm hu32
  have hsizes : Reads (parsePackSizes spec.packSizes.length)
      ([0x09]++(spec.packSizes.flatMap writeNumber++([sectionId spec.packCrcs.isSome 0x0a 0x00] ++
        sectionBody spec.packCrcs.isSome (writeCrcs (spec.packCrcs.getD [])) 0x00)))
      (spec.packSizes,spec.packCrcs.getD (List.replicate spec.packSizes.length none),0x00) := by
    refine (reads_byte 0x09).bind ?_
    exact (reads_numbers h.packSizes.2).bind ((reads_byte _).bind (hcrcs.bind_nil (Reads.pure _)))
  refine ReadsIf.of_iff ((reads_number h.packPos).bindIf
    ((reads_number h.packSizes.1).bindIf (ReadsIf.limit (always ?_)))) (by rw [and_true,not_lt])
  rw [writeSection_end]
  exact hsizes.bind_nil (reads_end _)

theorem reads_unpackInfo : ReadsIf (FolderLimits spec) parseUnpackInfo spec.encodeUnpackInfo spec.parsedFolders := by
  have hfolders:=ReadsIf.times fun folder hfolder => reads_folder (h.folders.2 folder hfolder)
  have hsizes : Reads (each readUnpackSizes (spec.folders.map fun folder => bareFolder folder.toFolder))
      (spec.folders.flatMap fun folder => folder.unpackSizes.flatMap writeNumber)
      (spec.folders.map fun folder => { folder.toFolder with crc := none }) := by
    rw [each_map]
    exact each fun folder hfolder => reads_unpackSizes (h.folders.2 folder hfolder)
  have hcrcs : Reads (optional 0x0a (readCrcs spec.folders.length) (sectionId spec.folderCrcsWritten 0x0a 0x00))
      (sectionBody spec.folderCrcsWritten (writeCrcs (spec.folders.map fun folder => folder.crc)) 0x00)
      (if spec.folderCrcsWritten=true then some (spec.folders.map fun folder => folder.crc) else none,0x00) := by
    apply reads_optional
    · intro _
      apply reads_crcs
      · rw [length_map]
      · intro crc hcrc
        obtain ⟨folder,hfolder,heq⟩:=mem_map.mp hcrc
        exact (h.folders.2 folder hfolder).crc crc heq
    · decide
  have hdefault : (if spec.folderCrcsWritten=true then some (spec.folders.map fun folder => folder.crc) else none).getD
      (List.replicate spec.folders.length none)=spec.folders.map fun folder => folder.crc := by
    cases hwritten : spec.folderCrcsWritten with
    | true => rfl
    | false =>
      symm
      apply eq_replicate_iff.mpr
      refine ⟨length_map _,?_⟩
      intro crc hcrc
      obtain ⟨folder,hfolder,rfl⟩:=mem_map.mp hcrc
      exact h.noFolderCrcs hwritten folder hfolder
  have hresult : (spec.folders.map fun folder => { folder.toFolder with crc:=none }).zipWith
      (fun folder crc => { folder with crc := crc }) (spec.folders.map fun folder => folder.crc)=spec.parsedFolders := by
    rw [zipWith_map,zipWith_self]
    rfl
  have hlimits : FolderLimits spec ↔
      ¬spec.folders.length > 1000000 ∧ ∀folder∈spec.folders,folder.coders.length≤64 :=
    ⟨fun h => ⟨not_lt.mpr h.folders,h.coders⟩,fun h => ⟨not_lt.mp h.1,h.2⟩⟩
  rw [hlimits]
  refine (reads_byte 0x0b).bindIf ?_
  refine (reads_number h.folders.1).bindIf (ReadsIf.limit ((reads_byte 0x00).bindIf ?_))
  refine hfolders.andThen ((reads_byte 0x0c).bind ?_)
  rw [writeSection_end]
  refine hsizes.bind ((reads_byte _).bind (hcrcs.bind_nil ?_))
  dsimp only
  rw [hdefault,hresult]
  exact reads_end _

theorem reads_sizesSection {next : UInt8} (hnext : next≠0x09) :
    ReadsIf (SizesThere spec) (parseSubstreamSizes spec.counted (sectionId spec.sizesWritten 0x09 next))
      (sectionBody spec.sizesWritten (spec.folders.flatMap fun folder => folder.sizes.dropLast.flatMap writeNumber) next)
      ((spec.folders.map readSizes).flatten,next) := by
  cases hwritten : spec.sizesWritten with
  | true =>
    have hsizes : Reads (each readSubstreamSizes spec.counted)
        (spec.folders.flatMap fun folder => folder.sizes.dropLast.flatMap writeNumber)
        (spec.folders.map readSizes) := by
      rw [Spec.counted,each_map]
      exact each fun folder hfolder => reads_substreamSizes (h.folders.2 folder hfolder)
    refine ReadsIf.of_iff (always ?_) (iff_true_intro fun hnot => absurd (hwritten.symm.trans hnot) (by decide))
    exact hsizes.bind ((reads_byte next).bind_nil (Reads.pure _))
  | false =>
    have hsizes : ReadsIf (∀folder∈spec.folders,folder.substreams.length=1) (each wholeFolder spec.counted)
        (spec.folders.flatMap fun _ => []) (spec.folders.map readSizes) := by
      rw [Spec.counted,each_map]
      exact ReadsIf.each fun folder _ => reads_wholeFolder folder
    have hnone : (spec.folders.flatMap fun _ => ([] : Bytes))=[]:=flatMap_eq_nil_iff.mpr fun _ _ => rfl
    rw [hnone] at hsizes
    have hid : sectionId false 0x09 next=next:=rfl
    rw [hid,parseSubstreamSizes,if_neg hnext]
    exact ReadsIf.of_iff (hsizes.last (Reads.pure _)) ⟨fun hthere => hthere hwritten,fun hall _ => hall⟩

theorem reads_counts :
    Reads (optional 0x0d (times spec.parsedFolders.length readUint64) (sectionId spec.countsWritten 0x0d (sizesId spec)))
      (sectionBody spec.countsWritten (spec.folders.flatMap fun folder => writeNumber folder.substreams.length) (sizesId spec))
      (if spec.countsWritten=true then some (spec.folders.map fun folder => folder.substreams.length) else none,
        sizesId spec) := by
  apply reads_optional
  · intro _
    rw [Spec.parsedFolders,length_map]
    exact times fun folder hfolder => reads_number (h.folders.2 folder hfolder).counted.2
  · exact sizesId_ne spec

theorem counts_getD :
    (if spec.countsWritten=true then some (spec.folders.map fun folder => folder.substreams.length) else none).getD
      (List.replicate spec.parsedFolders.length 1)=spec.folders.map fun folder => folder.substreams.length := by
  cases hwritten : spec.countsWritten with
  | true => rfl
  | false =>
    symm
    apply eq_replicate_iff.mpr
    refine ⟨by rw [Spec.parsedFolders,length_map,length_map],?_⟩
    intro count hcount
    obtain ⟨folder,hfolder,rfl⟩:=mem_map.mp hcount
    exact h.noCounts hwritten folder hfolder

theorem reads_digests : Reads (optional 0x0a (readCrcs (numDigests spec.counted)) (digestsId spec))
      (sectionBody spec.digestsWritten (writeCrcs (spec.folders.flatMap digests)) 0x00)
      (if spec.digestsWritten=true then some (spec.folders.flatMap digests) else none,0x00) := by
  apply reads_optional
  · intro _
    apply reads_crcs (numDigests_counted spec)
    intro crc hcrc
    obtain ⟨folder,hfolder,hmem⟩:=mem_flatMap.mp hcrc
    rw [digests] at hmem
    split_ifs at hmem
    · cases hmem
    · obtain ⟨substream,hsubstream,heq⟩:=mem_map.mp hmem
      exact (h.folders.2 folder hfolder).digests substream hsubstream crc heq
  · decide

theorem reads_substreamsInfo :
    ReadsIf (SizesThere spec) (parseSubstreamsInfo spec.parsedFolders) spec.encodeSubstreamsInfo spec.substreamsRead := by
  rw [encodeSubstreamsInfo_eq]
  refine (reads_byte _).bindIf ((reads_counts h).bindIf ?_)
  dsimp only
  rw [counts_getD h,counted_eq]
  refine (reads_sizesSection h (digestsId_ne spec)).andThen ((reads_digests h).bind_nil ?_)
  have hdigests : substreamDigests spec.counted
      (if spec.digestsWritten=true then some (spec.folders.flatMap digests) else none) =
      spec.readDigests := by
    rw [Spec.readDigests]
    split_ifs
    · exact spreadDigests_eq h.folders.2
    · rfl
  rw [hdigests]
  exact reads_end _

theorem reads_streamsInfo : ReadsIf (StreamsReadable spec) parseStreamsInfo spec.encodeStreamsInfo
      ⟨some spec.packInfo,spec.parsedFolders,spec.parsedSubstreams⟩ := by
  have hpack:=@readsIf_optional _ _ true 0x06 0x07 _ _ _ (fun _ => reads_packInfo h) (by decide)
  have hunpack:=@readsIf_optional _ _ true 0x07 (substreamsId spec) _ _ _ (fun _ => reads_unpackInfo h) (substreamsId_ne spec)
  have hsubstreams:=@readsIf_optional _ _ spec.substreamsWritten 0x08 0x00 _ _ _ (fun _ => reads_substreamsInfo h) (by decide)
  have hor : (if spec.substreamsWritten=true then some spec.substreamsRead else none).or (wholeFolders spec.parsedFolders) =
      spec.parsedSubstreams := by
    rw [Spec.parsedSubstreams]
    split_ifs <;> rfl
  rw [encodeStreamsInfo_eq,←hor]
  refine ReadsIf.of_iff ((reads_byte 0x06).bindIf (hpack.bind (hunpack.bind (hsubstreams.last (reads_end _))))) ?_
  exact ⟨fun h => ⟨fun _ => h.packSizes,fun _ => h.folders,h.sizes⟩,fun h => ⟨h.1 rfl,h.2.1 rfl,h.2.2⟩⟩

end Streams

end Ratarmount.SevenZip
