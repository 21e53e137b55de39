import Ratarmount.TarTape

/-!
# The records of a written member

What `write_ustar_members` puts on the tape for one member is a well-formed item:
at most one PAX helper with the member's own records, and a header in front of
the payload.
-/

namespace Ratarmount.Tar

open List Bytes ArchivePath UstarMember Item Utf8

namespace UstarMember

variable (m : UstarMember)

def content : Bytes :=
  match m.payload with
  | .file bytes => bytes
  | .fileOnDisk content size => content.take size
  | .directory | .symlink _ => []

/-- All records of the PAX helper, in order. -/
def paxPairs : List (Str × Bytes) :=
  m.fixedRecords ++ m.xattrs.map (fun x => (schilyXattr ++ x.1,x.2))

variable {m}

theorem mapM_encodeXattr {xs : Xattrs} {records : List Bytes} (h : xs.mapM encodeXattr = .ok records) :
    (xs.map (fun x => (schilyXattr++x.1,x.2))).mapM (fun kv => encodePaxRecord kv.1 kv.2) = .ok records ∧
      ∀x∈xs, '=' ∉ x.1 := by
  induction xs generalizing records with
  | nil => exact ⟨by simpa using h,by simp⟩
  | cons x xs ih =>
    obtain ⟨record,hrecord,rest,hrest,rfl⟩:=mapM_cons_ok h
    obtain ⟨hih,hnames⟩:=ih hrest
    rw [encodeXattr] at hrecord
    split_ifs at hrecord with hbad
    constructor
    · rw [map_cons,mapM_cons,hrecord,hih]
      rfl
    · intro y hy
      rcases mem_cons.mp hy with rfl | hy
      · exact fun hmem => hbad (Or.inl hmem)
      · exact hnames y hy

/-- The keys of a record list that `parse_pax_records` reads back. -/
def ReadableKeys (pairs : List (Str × Bytes)) : Prop := ∀ kv ∈ pairs, kv.1 ≠ [] ∧ '=' ∉ kv.1

def fixedKeys : List Str :=
  [PaxKey.path,PaxKey.linkpath,PaxKey.size,PaxKey.uid,PaxKey.gid,PaxKey.mtime]

theorem fixedKeys_plain : ∀k∈fixedKeys,(k≠[] ∧ '=' ∉ k) ∧ PlainKey k := by decide +kernel

theorem fixedRecords_keys : ∀kv∈m.fixedRecords,kv.1∈fixedKeys := by
  intro kv hkv
  simp only [fixedRecords,mem_append,mem_ite_nil_right,mem_singleton] at hkv
  rcases hkv with ((((⟨-,rfl⟩ | ⟨-,rfl⟩) | ⟨-,rfl⟩) | ⟨-,rfl⟩) | ⟨-,rfl⟩) | ⟨-,rfl⟩ <;> simp [fixedKeys]

variable {name key : Str} {body value : Bytes} {pairs : List (Str × Bytes)}

theorem schily_readable (h : '=' ∉ name) : schilyXattr++name≠[] ∧ '=' ∉ schilyXattr++name := by
  have hs : schilyXattr≠[] ∧ '=' ∉ schilyXattr := by decide +kernel
  refine ⟨fun e => hs.1 (append_eq_nil_iff.mp e).1,fun e => ?_⟩
  rcases mem_append.mp e with e | e
  · exact hs.2 e
  · exact h e

theorem paxBody_ok (h : m.paxBody = .ok body) : ReadableKeys m.paxPairs ∧ ∃records,
      m.paxPairs.mapM (fun kv => encodePaxRecord kv.1 kv.2) = .ok records ∧ body=records.flatten := by
  obtain ⟨fixed,hfixed,hrest⟩:=bind_ok h
  obtain ⟨xattrs,hxattrs,hbody⟩:=bind_ok hrest
  obtain ⟨henc,hnames⟩:=mapM_encodeXattr hxattrs
  injection hbody with hbody
  constructor
  · intro kv hkv
    rcases mem_append.mp hkv with hkv | hkv
    · exact (fixedKeys_plain _ (fixedRecords_keys kv hkv)).1
    · obtain ⟨x,hx,rfl⟩:=mem_map.mp hkv
      exact schily_readable (hnames x hx)
  · refine ⟨fixed++xattrs,?_,by rw [←hbody,flatten_append]⟩
    rw [paxPairs,mapM_append,hfixed,henc]
    rfl

def paxState (m : UstarMember) : PaxState := m.paxPairs.foldl (fun st kv => PaxState.record st kv.1 kv.2) {}

theorem parsePaxRecords_paxBody (h : m.paxBody = .ok body) (hlen : body.length<2^64) :
    parsePaxRecords body = .ok { map := m.paxState.map, sparsePairs := m.paxState.sparsePairs,
                                 fsXattrs := fsXattrsFromPaxEntries m.paxState.schily m.paxState.libarchive } := by
  obtain ⟨hkeys,records,hrecords,rfl⟩:=paxBody_ok h
  rw [parsePaxRecords,parsePaxLoop_records hrecords hkeys (Nat.le_refl _) (by omega)]
  rfl

theorem foldl_record_map (pairs : List (Str × Bytes)) (st : PaxState) :
    (pairs.foldl (fun st kv => PaxState.record st kv.1 kv.2) st).map =
      pairs.foldl (fun map kv => map.insert kv.1 (Utf8.decodeLossy kv.2)) st.map := by
  induction pairs generalizing st with
  | nil => rfl
  | cons kv pairs ih => rw [foldl_cons,ih,record_map,foldl_cons]

theorem foldl_insert_of_not_mem (h : ∀kv∈pairs,kv.1≠key) (map : PaxMap) :
    pairs.foldl (fun map kv => PaxMap.insert map kv.1 (Utf8.decodeLossy kv.2)) map key=map key := by
  induction pairs generalizing map with
  | nil => rfl
  | cons kv pairs ih =>
    rw [foldl_cons,ih (fun kv hkv => h kv (mem_cons_of_mem _ hkv)),PaxMap.insert,
      Function.update_of_ne (h kv mem_cons_self).symm]

/-- The value of a key is that of its only record. -/
theorem foldl_insert_of_mem (hmem : (key,value)∈pairs) (hnodup : (pairs.map Prod.fst).Nodup) (map : PaxMap) :
    pairs.foldl (fun map kv => PaxMap.insert map kv.1 (Utf8.decodeLossy kv.2)) map key =
      some (Utf8.decodeLossy value) := by
  induction pairs generalizing map with
  | nil => cases hmem
  | cons kv pairs ih =>
    rw [map_cons,nodup_cons] at hnodup
    rw [foldl_cons]
    rcases mem_cons.mp hmem with rfl | hmem
    · rw [foldl_insert_of_not_mem,PaxMap.insert,Function.update_self]
      rintro kv hkv rfl
      exact hnodup.1 (mem_map.mpr ⟨kv,hkv,rfl⟩)
    · exact ih hmem hnodup.2 _

theorem fixedRecords_nodup : (m.fixedRecords.map Prod.fst).Nodup := by
  have hsub : (m.fixedRecords.map Prod.fst).Sublist fixedKeys := by
    have hif : ∀(b : Bool) (k : Str) (v : Bytes),((if b then [(k,v)] else []).map Prod.fst).Sublist [k] := by
      intro b k v
      cases b <;> simp
    have happ:=fun {as bs cs ds : List Str} (h1 : as.Sublist bs) (h2 : cs.Sublist ds) => h1.append h2
    rw [fixedRecords]
    simp only [map_append]
    exact happ (happ (happ (happ (happ (hif _ _ _) (hif _ _ _)) (hif _ _ _)) (hif _ _ _)) (hif _ _ _)) (hif _ _ _)
  exact hsub.nodup (by decide +kernel)

theorem schily_ne_fixed (h : key.head?≠some 'S') : schilyXattr++name≠key := by
  rintro rfl
  apply h
  rw [show schilyXattr = 'S' :: schilyXattr.tail by decide +kernel]
  rfl

/-- What the helper says for a key that is no attribute. -/
theorem paxState_map (hkey : key.head?≠some 'S') : m.paxState.map key =
      m.fixedRecords.foldl (fun map kv => PaxMap.insert map kv.1 (Utf8.decodeLossy kv.2)) PaxMap.empty key := by
  rw [paxState,foldl_record_map,paxPairs,foldl_append,foldl_insert_of_not_mem]
  intro kv hkv
  obtain ⟨x,-,rfl⟩:=mem_map.mp hkv
  exact schily_ne_fixed hkey

theorem paxState_fixed (hkey : key.head?≠some 'S') (hmem : (key,value)∈m.fixedRecords) :
    m.paxState.map key=some (Utf8.decodeLossy value) := by
  rw [paxState_map hkey,foldl_insert_of_mem hmem fixedRecords_nodup]

theorem paxState_none (hkey : key.head?≠some 'S') (hmem : ∀kv∈m.fixedRecords,kv.1≠key) : m.paxState.map key=none := by
  rw [paxState_map hkey,foldl_insert_of_not_mem hmem]
  rfl

/-- A record for a key that is no attribute is there exactly where the member needs it. -/
theorem paxState_need {need : Bool} {text : Str} (hkey : key.head?≠some 'S')
    (hmem : need=true→(key,Utf8.encode text)∈m.fixedRecords) (honly : ∀kv∈m.fixedRecords,kv.1=key → need=true) :
    m.paxState.map key=if need then some text else none := by
  split_ifs with h
  · rw [paxState_fixed hkey (hmem h),decodeLossy_encode]
  · exact paxState_none hkey fun kv hkv e => h (honly kv hkv e)

theorem need_of_mem_fixedRecords {kv : Str × Bytes} (h : kv∈m.fixedRecords) :
    (kv.1=PaxKey.path → m.needPaxPath=true) ∧ (kv.1=PaxKey.linkpath → m.needPaxLink=true) ∧
      (kv.1=PaxKey.size → m.needPaxSize=true) := by
  simp only [fixedRecords,mem_append,mem_ite_nil_right,mem_singleton] at h
  rcases h with ((((⟨h,rfl⟩ | ⟨h,rfl⟩) | ⟨h,rfl⟩) | ⟨-,rfl⟩) | ⟨-,rfl⟩) | ⟨-,rfl⟩
  all_goals
    dsimp only
    refine ⟨fun e => ?_,fun e => ?_,fun e => ?_⟩
    all_goals first | exact h | exact absurd e (by decide +kernel)

theorem paxState_path : m.paxState.map PaxKey.path=if m.needPaxPath then some m.relPath else none :=
  paxState_need (by decide +kernel) (fun h => by simp [fixedRecords,h]) fun _ hkv => (need_of_mem_fixedRecords hkv).1

theorem paxState_size :
    m.paxState.map PaxKey.size=if m.needPaxSize then some (Numeral.text 10 m.bodySize) else none :=
  paxState_need (by decide +kernel) (fun h => by simp [fixedRecords,h]) fun _ hkv => (need_of_mem_fixedRecords hkv).2.2

theorem paxState_other (hhead : key.head?≠some 'S') (hkey : key∉fixedKeys) : m.paxState.map key=none := by
  apply paxState_none hhead
  rintro kv hkv rfl
  exact hkey (fixedRecords_keys kv hkv)

end UstarMember

/-! ## The item on the tape -/

variable {m : UstarMember}

/-- A helper and a header that hold what the writer wrote for the member. -/
structure Written (m : UstarMember) (helpers : List Helper) (main : MainRec) : Prop where
  header : WrittenHeader m.headerFields main.header
  body : main.body = m.content
  size : m.content.length = m.bodySize
  size_lt : m.bodySize < 2 ^ 64
  ext : main.ext = []
  pax : (m.needPax = false ∧ helpers = []) ∨
    (m.needPax = true ∧ ∃ h, helpers = [h] ∧ typeflag h.header = 120 ∧ m.paxBody = .ok h.body)
  short : ∀ h ∈ helpers, h.body.length < 2 ^ 64

theorem length_padding (n : ℕ) : n+(padding n).length=(n+511) / 512*512 := by
  rw [padding,length_zeros]
  omega

theorem writeMemberBody_ok {body : Bytes} (h : m.writeMemberBody = .ok body) :
    body=m.content++padding m.content.length ∧ m.content.length=m.bodySize := by
  rw [UstarMember.writeMemberBody] at h
  rw [UstarMember.content,UstarMember.bodySize]
  cases hp : m.payload with
  | file bytes =>
    rw [hp] at h
    exact ⟨(Except.ok.inj h).symm,rfl⟩
  | fileOnDisk content size =>
    simp only [hp] at h
    split_ifs at h with hlen
    refine ⟨?_,hlen⟩
    rw [hlen]
    exact (Except.ok.inj h).symm
  | directory | symlink =>
    rw [hp] at h
    refine ⟨?_,rfl⟩
    rw [←Except.ok.inj h]
    simp [padding,zeros]

theorem typeflag_cases : m.typeflag=53 ∨ m.typeflag=50 ∨ m.typeflag=48 := by
  rw [UstarMember.typeflag]
  cases m.payload <;> simp

def recOf {f : UstarHeaderFields} {header : Bytes} (h : WrittenHeader f header) (body : Bytes) : Rec where
  header := header
  body := body
  pad := padding body.length
  header_length := h.length
  nonzero := h.nonzero
  checksum := h.checksum
  padded := length_padding _

theorem write_item {bytes : Bytes} (hw : m.write = .ok bytes) (hlen : bytes.length<2^63) :
    ∃helpers main,(member helpers main).bytes=bytes ∧ Written m helpers main := by
  obtain ⟨headers,hheaders,hrest⟩:=bind_ok hw
  obtain ⟨body,hbody,hbytes⟩:=bind_ok hrest
  obtain ⟨pax,hpax,hrest⟩:=bind_ok hheaders
  obtain ⟨header,hheader,hheaders⟩:=bind_ok hrest
  have facts:=writeRawUstarHeader_ok hheader
  obtain ⟨rfl,hsize⟩:=writeMemberBody_ok hbody
  injection hheaders with hheaders
  injection hbytes with hbytes
  have hsizeLt : m.bodySize<2^64 := by
    have hle : m.content.length≤bytes.length := by
      simp only [←hbytes,length_append]
      omega
    omega
  have hflag : typeflag header≠103 ∧ typeflag header≠120 ∧ typeflag header≠76 ∧ typeflag header≠75 := by
    rw [facts.flag]
    change m.typeflag≠_ ∧ m.typeflag≠_ ∧ m.typeflag≠_ ∧ m.typeflag≠_
    rcases @typeflag_cases m with e | e | e <;> rw [e] <;> decide
  let main : MainRec := { recOf facts m.content with ext := [], flag := hflag, ext_blocks := rfl }
  have hmain : main.bytes=header++(m.content++padding m.content.length):=rfl
  rw [UstarMember.writePaxHeader] at hpax
  split_ifs at hpax with hneed
  · obtain ⟨paxBody,hpaxBody,hrest⟩:=bind_ok hpax
    obtain ⟨paxHeader,hpaxHeader,hpax⟩:=bind_ok hrest
    have paxFacts:=writeRawUstarHeader_ok hpaxHeader
    injection hpax with hpax
    have hshort : paxBody.length<2^64 := by
      have hle : paxBody.length≤bytes.length := by
        simp only [←hbytes,←hheaders,←hpax,length_append]
        omega
      omega
    let h : Helper := { recOf paxFacts paxBody with
      flag := Or.inl paxFacts.flag,
      size := by simp only [recOf,sizeField,paxFacts.size hshort,Option.getD_some] }
    have hhelper : helperBytes [h]=pax := by
      simp only [helperBytes,flatMap_cons,flatMap_nil,append_nil,←hpax]
      rfl
    have hw : Written m [h] main :=
      ⟨facts,rfl,hsize,hsizeLt,rfl,Or.inr ⟨hneed,h,rfl,paxFacts.flag,hpaxBody⟩,
        fun h' hh' => by rw [mem_singleton.mp hh']; exact hshort⟩
    refine ⟨[h],main,?_,hw⟩
    rw [Item.bytes,hhelper,hmain,←hbytes,←hheaders,append_assoc]
  · injection hpax with hpax
    have hw : Written m [] main :=
      ⟨facts,rfl,hsize,hsizeLt,rfl,Or.inl ⟨by simpa using hneed,rfl⟩,fun h' hh' => by cases hh'⟩
    refine ⟨[],main,?_,hw⟩
    rw [←hbytes,←hheaders,←hpax]
    rfl

theorem helpersMap_written {helpers : List Helper} {main : MainRec} {enc : Encoding} (hw : Written m helpers main) :
    helpersMap enc helpers=m.paxState.map := by
  have hlen:=hw.short
  rcases hw.pax with ⟨hneed,rfl⟩ | ⟨-,h,rfl,hflag,hbody⟩
  · simp only [UstarMember.needPax,Bool.or_eq_false_iff] at hneed
    obtain ⟨⟨⟨⟨⟨⟨h1,h2⟩,h3⟩,h4⟩,h5⟩,h6⟩,h7⟩:=hneed
    have hx : m.xattrs=[] := by simpa using h7
    simp [helpersMap,UstarMember.paxState,UstarMember.paxPairs,UstarMember.fixedRecords,h1,h2,h3,h4,h5,h6,hx]
  · have hparse:=UstarMember.parsePaxRecords_paxBody hbody (hlen h (by simp))
    funext key
    simp [helpersMap,Helper.apply,hflag,paxOf,hparse,PaxMap.extend,PaxMap.empty]

variable {helpers : List Helper} {main : MainRec} {enc : Encoding} {g : PaxMap} {ms : List UstarMember}
  {items : List Item}

theorem sizeField_written (hw : Written m helpers main) :
    sizeField main.header=if m.needPaxSize then 0 else m.bodySize := by
  have hlen:=hw.size_lt
  have hlt : m.headerFields.size<2^64 := by
    simp only [UstarMember.headerFields]
    split_ifs <;> omega
  rw [sizeField,hw.header.size hlt]
  rfl

/-- The size that the records of a written member give is that of its payload. -/
theorem onTapeSize_written (hw : Written m helpers main) (hg : g PaxKey.size=none) :
    Cursor.onTapeSize (memberPax enc g helpers) main.header=m.bodySize := by
  have hparse : parseU64 (Numeral.text 10 m.bodySize)=some m.bodySize :=
    Numeral.parse_text (by decide) (by decide) 0 hw.size_lt
  rw [Cursor.onTapeSize,memberPax,PaxMap.extend,helpersMap_written hw,UstarMember.paxState_size,hg,
    sizeField_written hw]
  cases m.needPaxSize <;> simp [hparse]

theorem takeWhile_fixedField {bs : Bytes} (hle : bs.length≤100) (h0 : (0 : UInt8)∉bs) :
    cstr (fixedField 100 bs)=bs := by
  rw [cstr,fixedField,take_of_length_le hle,takeWhile_append_of_pos]
  · cases h : 100 - bs.length with
    | zero => simp [zeros]
    | succ n => simp [zeros,replicate_succ]
  · intro b hb
    have : b≠0 := by
      rintro rfl
      exact h0 hb
    simpa using this

theorem zero_not_mem_ustarName (h0 : Char.ofNat 0∉m.path) : (0 : UInt8)∉m.ustarName := by
  have hrel : (0 : UInt8)∉Utf8.encode m.relPath := by
    apply not_mem_encode (by decide)
    intro hmem
    exact h0 ((dropWhile_sublist _).subset hmem)
  rw [ustarName]
  cases m.payload with
  | directory =>
    rw [dirUstarName]
    split_ifs
    · exact hrel
    · simpa using hrel
  | file | fileOnDisk | symlink => exact hrel

/-- The name that a reader of UTF-8 names finds; that of a directory may end in a slash. -/
theorem memberName_written (hw : Written m helpers main) (h0 : Char.ofNat 0∉m.path)
    (hg : g PaxKey.path=none ∧ g PaxKey.sparseName=none) :
    memberName Utf8.decodeLossy (memberPax Utf8.decodeLossy g helpers) main.header =
      if m.needPaxPath then m.relPath else Utf8.decodeLossy m.ustarName := by
  have hsparse : m.paxState.map PaxKey.sparseName=none :=
    UstarMember.paxState_other (by decide +kernel) (by decide +kernel)
  rw [memberName,memberPax,PaxMap.extend,PaxMap.extend,helpersMap_written hw,UstarMember.paxState_path,
    hsparse,hg.1,hg.2]
  split_ifs with hneed
  · rfl
  · have hle : m.ustarName.length≤100 := by
      simpa [UstarMember.needPaxPath] using hneed
    have hname : m.headerFields.name=m.ustarName:=if_neg hneed
    have hfront : cstr (zeros 155)=[] := by simp [cstr,zeros,replicate_succ]
    simp only [parseName,hw.header.front,hw.header.name,hname,hfront,
      takeWhile_fixedField hle (zero_not_mem_ustarName h0)]
    rfl

theorem name_written (hw : Written m helpers main) (h0 : Char.ofNat 0∉m.path) :
    (member helpers main).name Utf8.decodeLossy PaxMap.empty=normalizeArchiveRelPath m.relPath := by
  rw [name,memberName_written hw h0 ⟨rfl,rfl⟩]
  split_ifs with hneed
  · rfl
  · rw [ustarName]
    cases m.payload with
    | directory =>
      rw [dirUstarName]
      split_ifs
      · rw [decodeLossy_encode]
      · -- the slash that marks a directory goes again
        rw [show ([47] : Bytes)=Utf8.encode ['/'] by decide,←encode_append,decodeLossy_encode,
          normalize_append_slash]
    | file | fileOnDisk | symlink => simp only [decodeLossy_encode]

/-- The members and their items on the tape, one by one. -/
def WrittenItems : List UstarMember → List Item → Prop :=
  List.Forall₂ (fun m i => ∃ helpers main, i = .member helpers main ∧ Written m helpers main)

theorem mapM_write_items {written : List Bytes} (h : ms.mapM UstarMember.write = .ok written)
    (hlen : written.flatten.length<2^63) : ∃items,items.map Item.bytes=written ∧ WrittenItems ms items := by
  induction ms generalizing written with
  | nil =>
    cases h
    exact ⟨[],rfl,.nil⟩
  | cons m ms ih =>
    obtain ⟨bytes,hbytes,rest,hrest,rfl⟩:=mapM_cons_ok h
    rw [flatten_cons,length_append] at hlen
    obtain ⟨helpers,main,hitem,hw⟩:=write_item hbytes (by omega)
    obtain ⟨items,hitems,hws⟩:=ih hrest (by omega)
    exact ⟨.member helpers main::items,by rw [map_cons,hitem,hitems],.cons ⟨helpers,main,rfl,hw⟩ hws⟩

theorem not_mem_written (h : WrittenItems ms items) (r : GlobalPax) : Item.globalPax r∉items := by
  induction h with
  | nil => simp
  | cons hhead _ ih =>
    obtain ⟨helpers,main,rfl,-⟩:=hhead
    simpa using ih

theorem fits_written (h : WrittenItems ms items) : Fits enc PaxMap.empty items := by
  induction h with
  | nil => trivial
  | cons hhead _ ih =>
    obtain ⟨helpers,main,rfl,hw⟩:=hhead
    exact ⟨by rw [hw.body,hw.size,onTapeSize_written hw rfl],ih⟩

theorem names_written (h : WrittenItems ms items) (h0 : ∀m∈ms,Char.ofNat 0∉m.path) :
    items.map (name Utf8.decodeLossy PaxMap.empty) = ms.map (fun m => normalizeArchiveRelPath m.relPath) := by
  induction h with
  | nil => rfl
  | cons hhead _ ih =>
    obtain ⟨helpers,main,rfl,hw⟩:=hhead
    rw [map_cons,map_cons,name_written hw (h0 _ mem_cons_self),ih (fun m hm => h0 m (mem_cons_of_mem _ hm))]

/-! ## Small streams -/

def sampleFile (path : Str) (bytes : Bytes) : UstarMember :=
  { path, payload := .file bytes, mode := 0o644, uid := 0, gid := 0, mtime := 0, xattrs := [] }

def sampleDir (path : Str) : UstarMember :=
  { path, payload := .directory, mode := 0o700, uid := 0, gid := 0, mtime := 0, xattrs := [] }

def sampleHeader (flag : UInt8) (size : ℕ) : Bytes :=
  (writeRawUstarHeader { name := [97], size, typeflag := flag, mode := 0o644 }).toOption.getD []

def sampleTar (members : List UstarMember) : Bytes := (writeUstarMembers members).toOption.getD [] ++ tarEof

end Ratarmount.Tar
