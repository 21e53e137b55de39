import Ratarmount.TarRegionWalk

/-!
# The rows of a nested archive

`flatten_nested_tars` gives the members of a nested archive rows under the path of
the archive. They are the rows that the archive has when it is indexed alone, put
below that path, exactly if no member name leaves the archive, none of them is
empty, and what the walk reads of each member lies inside the archive.
-/

namespace Ratarmount.Tar

open ArchivePath List

/-! ## Names below the path of the archive -/

theorem memberPath_eq (name : Str) : memberPath name = '/' :: join (collapseOnto [] name).reverse := by
  rw [memberPath,normpath,collapsePath,collapseParts_eq,collapseOnto_slash,collapseOnto_trimStartSlash,
    collapseOnto_stripDotSlash,collapseOnto_trimEndSlash]

/-- The path of a member of the archive at `ps`. -/
def nestedName (ps : List Str) (f : Found) : Str := joinPathPrefix (absolute ps) f.name

/-- What is left of a name without the dots and slashes in front. -/
def innerName (name : Str) : Str := trimStartSlash (stripDotSlash name)

section Names

variable {ps : List Str} (hps : ∀ p ∈ ps, Proper p) (hne : ps ≠ [])

theorem absolute_ne_nil (hne : ps≠[]) : absolute ps≠[] := by
  obtain ⟨p,ps,rfl⟩:=exists_cons_of_ne_nil hne
  simp

include hne in
theorem nestedName_eq (f : Found) : nestedName ps f=if innerName f.name=[] then trimEndSlash (absolute ps)
      else trimEndSlash (absolute ps) ++ '/' :: innerName f.name := by
  rw [nestedName,joinPathPrefix,if_neg (absolute_ne_nil hne)]
  rfl

include hps hne in
theorem collapseOnto_nestedName (f : Found) : collapseOnto [] (nestedName ps f)=collapseOnto ps.reverse f.name := by
  have hinner : collapseOnto ps.reverse f.name=collapseOnto ps.reverse (innerName f.name) := by
    rw [innerName,collapseOnto_trimStartSlash,collapseOnto_stripDotSlash]
  have hfront : collapseOnto [] (trimEndSlash (absolute ps))=ps.reverse := by
    rw [collapseOnto_trimEndSlash,collapseOnto_absolute hps,append_nil]
  rw [nestedName_eq hne,hinner]
  split_ifs with hnil
  · rw [hfront,hnil,collapseOnto_nil]
  · rw [collapseOnto_append,hfront]

theorem getLast?_trimEndSlash (s : Str) : (trimEndSlash s).getLast?≠some '/' := by
  rw [trimEndSlash,trimEndWhile,getLast?_reverse]
  intro h
  have hne : s.reverse.dropWhile (fun c => decide (c = '/'))≠[] := by
    intro hnil
    rw [hnil] at h
    cases h
  have hhead:=head_dropWhile_not (fun c => decide (c = '/')) hne
  rw [head?_eq_some_head hne,Option.some.injEq] at h
  simp [h] at hhead

theorem mem_trimEndSlash {s : Str} {c : Char} (hc : c∈s) (hslash : c ≠ '/') : c∈trimEndSlash s := by
  have hsplit:=takeWhile_append_dropWhile (p:=fun c => decide (c = '/')) (l := s.reverse)
  have hmem:=mem_reverse.mpr hc
  rw [←hsplit] at hmem
  rcases mem_append.mp hmem with hmem | hmem
  · exact absurd (by simpa using mem_takeWhile_imp hmem) hslash
  · exact mem_reverse.mpr hmem

include hps hne in
theorem trimEndSlash_nestedName (f : Found) : trimEndSlash (nestedName ps f)≠[] := by
  obtain ⟨p,rest,rfl⟩:=exists_cons_of_ne_nil hne
  have hp:=hps p mem_cons_self
  obtain ⟨c,t,rfl⟩:=exists_cons_of_ne_nil hp.ne_nil
  have hc : c ≠ '/' := by
    rintro rfl
    exact hp.no_slash mem_cons_self
  have hfront : c∈trimEndSlash (absolute ((c::t)::rest)):=mem_trimEndSlash (by simp) hc
  have hname : c∈nestedName ((c::t)::rest) f := by
    rw [nestedName_eq (by simp)]
    split_ifs
    · exact hfront
    · exact mem_append_left _ hfront
  exact ne_nil_of_mem (mem_trimEndSlash hname hc)

theorem stripDotSlash_suffix (name : Str) :
    ∃dots,name=dots++stripDotSlash name ∧ (dots=[] ∨ dots.getLast?=some '/') := by
  fun_induction stripDotSlash name with
  | case1 rest ih =>
    obtain ⟨dots,heq,hlast⟩:=ih
    refine ⟨'.' :: '/' :: dots,by rw [cons_append,cons_append,←heq],.inr ?_⟩
    rcases hlast with rfl | hlast
    · rfl
    · rw [getLast?_cons_cons]
      cases dots with
      | nil => cases hlast
      | cons d dots => rw [getLast?_cons_cons,hlast]
  | case2 name => exact ⟨[],rfl,.inl rfl⟩

/-- A name of dots and slashes alone ends in a slash; any other ends as its inner name does. -/
theorem getLast?_innerName {name : Str} (hname : name≠[]) : (innerName name=[] → name.getLast?=some '/') ∧
      (innerName name≠[] → name.getLast?=(innerName name).getLast?) := by
  obtain ⟨dots,heq,hlast⟩:=stripDotSlash_suffix name
  constructor
  · intro hnil
    rw [innerName,trimStartSlash,dropWhile_eq_nil_iff] at hnil
    by_cases hstrip : stripDotSlash name=[]
    · rw [hstrip,append_nil] at heq
      rw [heq] at hname ⊢
      exact hlast.resolve_left hname
    · rw [heq,getLast?_append_of_ne_nil _ hstrip,getLast?_eq_some_getLast hstrip]
      exact congrArg some (by simpa using hnil _ (getLast_mem hstrip))
  · intro hne
    have hne' : stripDotSlash name≠[] := by
      intro hnil
      rw [innerName,hnil] at hne
      exact hne rfl
    have hstrip : (stripDotSlash name).getLast?=(innerName name).getLast? := by
      obtain ⟨slashes,hslashes⟩ : innerName name <:+ stripDotSlash name:=dropWhile_suffix _
      rw [←hslashes,getLast?_append_of_ne_nil _ hne]
    rw [heq,getLast?_append_of_ne_nil _ hne',hstrip,←heq]

include hne in
/-- A member whose name is dots and slashes alone loses its slash; any other keeps what makes it a directory. -/
theorem endsWithSlash_nestedName {f : Found} (hname : f.name≠[]) :
    (innerName f.name=[] → endsWithSlash (nestedName ps f)=false ∧ endsWithSlash f.name=true) ∧
      (innerName f.name≠[] → endsWithSlash (nestedName ps f)=endsWithSlash f.name) := by
  obtain ⟨hnil,hinner⟩:=getLast?_innerName hname
  rw [nestedName_eq hne]
  constructor
  · intro h
    rw [if_pos h,endsWithSlash,endsWithSlash,hnil h]
    exact ⟨by simpa using getLast?_trimEndSlash _,by simp⟩
  · intro h
    rw [if_neg h,endsWithSlash,endsWithSlash,hinner h,getLast?_append_of_ne_nil _ (by simp)]
    obtain ⟨c,rest,hc⟩:=exists_cons_of_ne_nil h
    rw [hc,getLast?_cons_cons]

end Names

/-! ## Rows below the path of the archive -/

/-- The row of an archive that is indexed alone, below `ps` and with its offsets behind `d`. -/
def Row.under (ps : List Str) (d depth : ℕ) (r : Row) : Row :=
  { r with
    path := (rsplitSlash ('/' :: join (ps ++ collapseParts r.full))).1,
    name := (rsplitSlash ('/' :: join (ps ++ collapseParts r.full))).2,
    offsetheader := d + r.offsetheader, offset := d + r.offset, recursiondepth := r.recursiondepth + depth }

/-- What lets a member have the same row below the path of its archive. -/
structure RowKept (archive : Bytes) (f : Found) : Prop where
  stays : staysBelow 0 (f.name.splitOn '/') = true
  root : innerName f.name = [] → f.typeflag = 53
  istar : f.istar = true → f.dataOff + blockSize ≤ archive.length

section Rows

variable {ps : List Str} (hps : ∀ p ∈ ps, Proper p) (hne : ps ≠ []) {front archive : Bytes} {depth off : ℕ} {f : Found}

theorem full_entryRow (name : Str) (depth : ℕ) (f : Found) : (entryRow name depth f).full=memberPath name :=
  rsplitSlash_full mem_cons_self

theorem collapseOnto_proper (name : Str) : ∀p∈(collapseOnto [] name).reverse, Proper p := by
  exact collapseParts_proper name

include hps hne in
/-- The nested member has the path of its row below `ps` exactly if its name stays below where it starts. -/
theorem memberPath_nestedName_iff : memberPath (nestedName ps f) = '/' :: join (ps++collapseParts (topRow f).full) ↔
      staysBelow 0 (f.name.splitOn '/')=true := by
  rw [←collapseOnto_eq_iff (by simpa using hne : ps.reverse≠[]),memberPath_eq,topRow,full_entryRow,memberPath_eq,
    collapseParts_join (collapseOnto_proper _)]
  have hproper : ∀p∈ps++(collapseOnto [] f.name).reverse, Proper p := by
    intro p hp
    rcases mem_append.mp hp with hp | hp
    · exact hps p hp
    · exact collapseOnto_proper _ p hp
  have hnested:=collapseOnto_nestedName hps hne f
  constructor
  · intro h
    have hparts:=congrArg collapseParts h
    rw [collapseParts_join (collapseOnto_proper _),collapseParts_join hproper,hnested] at hparts
    rw [←reverse_inj,hparts]
    simp
  · intro h
    rw [hnested,h]
    simp

include hps hne in
theorem entryRow_under_iff (hname : f.name≠[]) :
    entryRow (nestedName ps f) depth (f.nested front archive off)=(topRow f).under ps front.length depth ↔
      RowKept archive f ∧ off=front.length+f.dataOff := by
  obtain ⟨hroot,hinner⟩:=@endsWithSlash_nestedName ps hne f hname
  constructor
  · intro h
    refine ⟨⟨?_,?_,?_⟩,congrArg Row.offset h⟩
    · have hfull:=congrArg Row.full h
      rw [full_entryRow] at hfull
      rw [←memberPath_nestedName_iff hps hne,hfull]
      exact rsplitSlash_full mem_cons_self
    · intro hnil
      by_contra hflag
      have hmode:=congrArg Row.mode h
      simp only [entryRow,topRow,Row.under,Found.nested,(hroot hnil).1,(hroot hnil).2,hflag,false_or,or_true,
        if_true,Bool.false_eq_true,if_false] at hmode
      have hformat : (if f.typeflag=50 then sIflnk else sIfreg)=sIfdir:=Nat.add_left_cancel hmode
      split_ifs at hformat <;> exact absurd hformat (by decide)
    · intro histar
      have hboth : (f.istar && decide (f.dataOff+blockSize≤archive.length))=f.istar:=congrArg Row.istar h
      simpa [histar] using hboth
  · rintro ⟨hkept,rfl⟩
    have hpath:=(memberPath_nestedName_iff hps hne).mpr hkept.stays
    have hdir : (f.typeflag=53 ∨ endsWithSlash (nestedName ps f)=true) ↔
        (f.typeflag=53 ∨ endsWithSlash f.name=true) := by
      by_cases hnil : innerName f.name=[]
      · simp [hkept.root hnil]
      · rw [hinner hnil]
    have histar : (f.istar && decide (f.dataOff+blockSize≤archive.length))=f.istar := by
      cases hf : f.istar with
      | false => rfl
      | true => simpa using hkept.istar hf
    rw [Row.under,←hpath]
    simp [topRow,entryRow,Found.nested,hdir,histar]

end Rows

/-! ## Flattening one archive -/

/-- The archive is a member at the path `ps` of the stream. -/
structure Stored (ps : List Str) (front archive : Bytes) (p : NestedPending) : Prop where
  proper : ∀ part ∈ ps, Proper part
  ne_nil : ps ≠ []
  path : p.path = absolute ps
  offset : p.offset = front.length
  size : p.size = archive.length

/-- The rows of other regions: their headers lie outside of the archive, and their generated directories are known. -/
structure RowsApart (b : Batch) (p : NestedPending) : Prop where
  header : ∀ r ∈ b.rows, r.offsetheader < p.offset ∨ p.offset + p.size ≤ r.offsetheader
  dir : ∀ r ∈ b.rows, r.offsetheader ≠ p.offsetheader + 1
  name : ∀ r ∈ b.rows, '/' ∉ r.name
  generated : ∀ r ∈ b.rows, r.isgenerated = true → r.offsetheader = 0 → r.full ∈ b.generatedDirs

/-- The members of the archive alone, each with the walk at its header. -/
def aloneMembers (opts : IndexOptions) (archive : Bytes) (gnu : Bool) : List (Walk × Found) :=
  memberWalks opts archive (archive.length / blockSize + 2) { pos := 0, gnu }

theorem aloneMembers_found (opts : IndexOptions) (archive : Bytes) (gnu : Bool) :
    (topFound opts archive gnu).1=(aloneMembers opts archive gnu).map Prod.snd :=
  memberWalks_members opts archive _ _

section Flatten

variable {opts : IndexOptions} {front archive back : Bytes} {start depth : ℕ} {ps : List Str} {st : Flatten}
  {p : NestedPending}

def openBatch (st : Flatten) (p : NestedPending) : Batch :=
  { st.batch with generatedDirs := p.path :: st.batch.generatedDirs }

theorem pushNestedMemberAsDirectory_adds (p : NestedPending) (depth : ℕ) (b : Batch) :
    ∃dir,(pushNestedMemberAsDirectory p depth b).rows=b.rows++dir ∧
      (pushNestedMemberAsDirectory p depth b).xattrs=b.xattrs ∧
      ∀r∈dir,r.isgenerated=true ∧ r.offsetheader=p.offsetheader+1 := by
  rw [pushNestedMemberAsDirectory]
  dsimp only
  split_ifs
  · exact ⟨[],by simp,rfl,by simp⟩
  · refine ⟨[_],rfl,rfl,?_⟩
    intro r hr
    rw [mem_singleton.mp hr]
    exact ⟨rfl,rfl⟩

/-- Flattening pushes the members that the nested walk finds, and at most the row of the archive as a directory. -/
theorem flattenOne_adds (hstored : Stored ps front archive p) (hflat : shouldFlattenNested opts p.size depth=true)
    {data : Bytes} {walk : List Found × WalkEnd} (hwalk : nestedWalk opts data start p st.gnu=walk)
    (hdump : ∀f∈walk.1,f.typeflag≠68) : ∃mid new dir,Adds (nestedName ps) depth walk.1 (openBatch st p) mid new ∧
      (flattenOne opts data start depth st p).batch.rows=st.batch.rows++(new++dir) ∧
      (flattenOne opts data start depth st p).batch.xattrs=mid.xattrs ∧
      (∀r∈dir,r.isgenerated=true ∧ r.offsetheader=p.offsetheader+1) ∧ (walk.1=[] → dir=[]) := by
  obtain ⟨new,hnew⟩:=@foldl_pushAs_adds (nestedName ps) depth walk.1 (openBatch st p)
  have hfold : walk.1.foldl (pushNested p.path depth) (openBatch st p) =
      walk.1.foldl (pushAs (nestedName ps) depth) (openBatch st p) := by
    apply foldl_ext
    intro b f hf
    rw [pushNested,if_neg (hdump f hf),hstored.path]
    rfl
  have hbatch : (flattenOne opts data start depth st p).batch =
      if walk.2.error=none ∧ walk.1≠[] then
        pushNestedMemberAsDirectory p depth (walk.1.foldl (pushNested p.path depth) (openBatch st p))
      else walk.1.foldl (pushNested p.path depth) (openBatch st p) := by
    rw [flattenOne,if_pos hflat,←hwalk]
    rfl
  rw [hbatch,hfold]
  split_ifs with hany
  · obtain ⟨dir,hrows,hxattrs,hdir⟩:=pushNestedMemberAsDirectory_adds p depth
      (walk.1.foldl (pushAs (nestedName ps) depth) (openBatch st p))
    refine ⟨_,new,dir,hnew,?_,hxattrs,hdir,fun hnil => absurd hnil hany.2⟩
    rw [hrows,hnew.rows,append_assoc]
    rfl
  · exact ⟨_,new,[],hnew,by rw [hnew.rows,append_nil]; rfl,rfl,by simp,fun _ => rfl⟩

theorem nestedWalk_small (hstored : Stored ps front archive p) (hsmall : archive.length≤blockSize) (data : Bytes)
    (gnu : Bool) : (nestedWalk opts data start p gnu).1=[] := by
  have hend : min (p.offset+p.size) (2^64-1)≤p.offset+blockSize := by
    rw [hstored.size]
    omega
  rw [nestedWalk,if_pos hend]

theorem nestedWalk_region (hemb : Embedded front archive back start) (hstored : Stored ps front archive p)
    (hlarge : blockSize<archive.length) (gnu : Bool) : nestedWalk opts (front++archive++back) start p gnu =
      walkMembers opts (front++archive++back) (regionOf front archive start)
        ((front++archive++back).length / blockSize+2) (Walk.shift front.length { pos := 0, gnu }) := by
  have hlen:=hemb.short
  rw [length_append,length_append] at hlen
  have hend : min (p.offset+p.size) (2^64-1)=front.length+archive.length := by
    rw [hstored.offset,hstored.size]
    omega
  rw [nestedWalk,hend,if_neg (by rw [hstored.offset]; omega),hstored.offset]
  rfl

variable {gnu : Bool} {fs : List Found} {ms : List (Walk × Found)}

theorem nestedWalk_members (hemb : Embedded front archive back start) (hstored : Stored ps front archive p)
    (hlarge : blockSize<archive.length) (hok : (topFound opts archive gnu).2.error=none)
    (hdump : ∀f∈(topFound opts archive gnu).1,f.typeflag≠68) :
    List.Forall₂ (Moved opts front archive back) (aloneMembers opts archive gnu)
      (nestedWalk opts (front++archive++back) start p gnu).1 := by
  have hfuel : archive.length / blockSize+2≤(front++archive++back).length / blockSize+2 := by
    rw [length_append,length_append]
    simp only [blockSize]
    omega
  rw [nestedWalk_region hemb hstored hlarge]
  exact (walkMembers_region hemb hfuel hok hdump).2

theorem topBatch_members (hdump : ∀f∈(topFound opts archive gnu).1,f.typeflag≠68) :
    (topBatch opts archive gnu).rows.filter isMemberRow =
        ((topFound opts archive gnu).1.filter fun f => trimEndSlash f.name≠[]).map topRow ∧
      (topBatch opts archive gnu).xattrs=(topFound opts archive gnu).1.flatMap xattrRows := by
  obtain ⟨new,hnew⟩:=@foldl_pushAs_adds Found.name 0 (topFound opts archive gnu).1 {}
  rw [topBatch,foldl_pushTop_eq hdump,hnew.rows,hnew.xattrs]
  refine ⟨?_,rfl⟩
  rw [filter_append,filter_congr hnew.isMemberRow,hnew.members]
  rfl

/-- No row at header offset 0 stands where the members of the archive need a directory that has no row yet. -/
def DirsApart (opts : IndexOptions) (archive : Bytes) (ps : List Str) (st : Flatten) (p : NestedPending) : Prop :=
  ∀ r ∈ table st.batch.rows, r.offsetheader = 0 → r.full ∉ p.path :: st.batch.generatedDirs →
    ∀ x ∈ aloneMembers opts archive st.gnu, r.full ∉ entryDirs (nestedName ps x.2)

/-- Rows of other regions stay exactly if none stands where a directory is generated. -/
theorem others_iff {mid : Batch} {new dir : List Row} (hapart : RowsApart st.batch p)
    (hnew : Adds (nestedName ps) depth fs (openBatch st p) mid new)
    (hdir : ∀r∈dir,r.isgenerated=true ∧ r.offsetheader=p.offsetheader+1)
    (hinside : ∀f∈fs,p.offset≤f.headerStart ∧ f.headerStart<p.offset+p.size)
    (hnamed : ∀f,trimEndSlash (nestedName ps f)≠[]) : (∀r∈table st.batch.rows,r∈table (st.batch.rows++(new++dir))) ↔
      ∀r∈table st.batch.rows,r.offsetheader=0 → r.full∉p.path::st.batch.generatedDirs →
        ∀f∈fs,r.full∉entryDirs (nestedName ps f) := by
  have hold : ∀r∈table st.batch.rows,r∈st.batch.rows:=fun r hr => (KeyedLog.latest_sublist _).subset hr
  -- a pushed row that is not generated has its header inside the archive
  have hmember : ∀r∈new,r.isgenerated=false → p.offset ≤ r.offsetheader ∧ r.offsetheader<p.offset+p.size := by
    intro r hr hgen
    have hmem : r∈new.filter (fun r => !r.isgenerated):=mem_filter.mpr ⟨hr,by simp [hgen]⟩
    rw [hnew.members] at hmem
    obtain ⟨f,hf,rfl⟩:=mem_map.mp hmem
    exact hinside f (mem_of_mem_filter hf)
  constructor
  · intro hkeep r hr hzero hfresh f hf hdirs
    obtain ⟨r',hr',hgen',hfull⟩:=hnew.full f hf (hnamed f) r.full hdirs hfresh
    obtain ⟨-,g,-,-,hrow,hname,-⟩:=hnew.parents r' hr' hgen'
    have hkey : r'.key=r.key := by
      apply key_eq_of_full hname (hapart.name r (hold r hr)) hfull
      rw [hrow,hzero]
      rfl
    rcases KeyedLog.mem_latest_append.mp (hkeep r hr) with hlatest | ⟨-,hnone⟩
    · have hgen : r.isgenerated=true := by
        rcases mem_append.mp ((KeyedLog.latest_sublist _).subset hlatest) with hmem | hmem
        · by_contra hgen
          have := hmember r hmem (by simpa using hgen)
          have := hapart.header r (hold r hr)
          omega
        · exact (hdir r hmem).1
      exact hfresh (mem_cons_of_mem _ (hapart.generated r (hold r hr) hgen hzero))
    · exact hnone r' (mem_append_left _ hr') hkey
  · intro hdirs r hr
    refine KeyedLog.mem_latest_append.mpr (.inr ⟨hr,?_⟩)
    intro r' hr' hkey
    obtain ⟨hpath,hname,hoff⟩:=key_eq_iff.mp hkey
    rcases mem_append.mp hr' with hr' | hr'
    · cases hgen' : r'.isgenerated with
      | false =>
        have := hmember r' hr' hgen'
        have := hapart.header r (hold r hr)
        omega
      | true =>
        obtain ⟨hfresh,f,hf,-,hrow,-,hmem⟩:=hnew.parents r' hr' hgen'
        have hfull : r'.full=r.full := by rw [Row.full,Row.full,hpath,hname]
        have hzero : r.offsetheader=0 := by
          rw [←hoff,hrow]
          rfl
        rw [hfull] at hfresh hmem
        exact hdirs r hr hzero hfresh f hf hmem
    · have := hapart.dir r (hold r hr)
      have := (hdir r' hr').2
      omega

/-- The rows and attributes that flattening adds for the archive are those of the archive alone, below its path and
behind its offset, and every other row stays. -/
def FlattensAlike (opts : IndexOptions) (front archive back : Bytes) (start depth : ℕ) (ps : List Str) (st : Flatten)
    (p : NestedPending) : Prop :=
  ∃ ix, parseTarFrom opts archive 0 st.gnu = .ok ix ∧
    ((flattenOne opts (front ++ archive ++ back) start depth st p).batch.rows.drop st.batch.rows.length).filter
        (fun r => !r.isgenerated) = (ix.rows.filter isMemberRow).map (Row.under ps front.length depth) ∧
    (flattenOne opts (front ++ archive ++ back) start depth st p).batch.xattrs.drop st.batch.xattrs.length =
      (topBatch opts archive st.gnu).xattrs.map (fun x => (front.length + x.1,x.2)) ∧
    ∀ r ∈ table st.batch.rows, r ∈ table (flattenOne opts (front ++ archive ++ back) start depth st p).batch.rows

/-- A member of the archive that has the same row below its path. -/
structure MemberKept (opts : IndexOptions) (archive back : Bytes) (x : Walk × Found) : Prop where
  named : trimEndSlash x.2.name ≠ []
  row : RowKept archive x.2
  map : MapKept opts archive back x.1 x.2.dataOff

/-- The rows of all members are kept exactly if every member has one and it is kept. -/
theorem rows_kept_iff (hstored : Stored ps front archive p) (hall : List.Forall₂ (Moved opts front archive back) ms fs) :
    fs.map (fun f => entryRow (nestedName ps f) depth f) =
        (((ms.map Prod.snd).filter fun f => trimEndSlash f.name≠[]).map topRow).map (Row.under ps front.length depth) ↔
      ∀x∈ms,MemberKept opts archive back x := by
  by_cases hnamed : ∀x∈ms,trimEndSlash x.2.name≠[]
  · have hfilter : (ms.map Prod.snd).filter (fun f => trimEndSlash f.name≠[])=ms.map Prod.snd := by
      rw [filter_eq_self]
      intro f hf
      obtain ⟨x,hx,rfl⟩:=mem_map.mp hf
      simpa using hnamed x hx
    rw [hfilter,map_map,map_map]
    apply PairedLists.map_eq_iff hall
    rintro x hx f' ⟨off,rfl,hoff⟩
    have hname : x.2.name≠[] := by
      intro hnil
      apply hnamed x hx
      rw [hnil]
      rfl
    have hrow : entryRow (nestedName ps (Found.nested front archive off x.2)) depth (Found.nested front archive off x.2) =
        entryRow (nestedName ps x.2) depth (Found.nested front archive off x.2) := rfl
    rw [hrow,Function.comp_apply,Function.comp_apply,entryRow_under_iff hstored.proper hstored.ne_nil hname,hoff]
    exact ⟨fun h => ⟨hnamed x hx,h.1,h.2⟩,fun h => ⟨h.row,h.map⟩⟩
  · constructor
    · intro heq
      -- a member without a name has no row in the archive alone
      have hlen:=congrArg List.length heq
      rw [length_map,length_map,length_map,←hall.length_eq] at hlen
      have hfilter:=filter_sublist.eq_of_length (by rw [←hlen,length_map])
      refine absurd (fun x hx => ?_) hnamed
      simpa using filter_eq_self.mp hfilter x.2 (mem_map.mpr ⟨x,hx,rfl⟩)
    · intro hkept
      exact absurd (fun x hx => (hkept x hx).named) hnamed

theorem flatMap_xattrRows_nested (hall : List.Forall₂ (Moved opts front archive back) ms fs) :
    fs.flatMap xattrRows=((ms.map Prod.snd).flatMap xattrRows).map fun x => (front.length+x.1,x.2) := by
  induction hall with
  | nil => rfl
  | cons hx _ ih =>
    obtain ⟨off,rfl,-⟩:=hx
    rw [flatMap_cons,ih]
    simp [xattrRows,Found.nested]

/-- An archive of one block is not walked at all. -/
theorem flattenOne_small (hstored : Stored ps front archive p) (hflat : shouldFlattenNested opts p.size depth=true)
    (hsmall : archive.length≤blockSize) (data : Bytes) :
    (flattenOne opts data start depth st p).batch.rows=st.batch.rows ∧
      (flattenOne opts data start depth st p).batch.xattrs=st.batch.xattrs := by
  have hnone:=@nestedWalk_small opts front archive start ps p hstored hsmall data st.gnu
  obtain ⟨mid,new,dir,hnew,hrows,hxattrs,-,hdir⟩:=flattenOne_adds hstored hflat rfl (by rw [hnone]; simp)
  rw [hnone] at hnew hdir
  have hempty : new=[] := by
    rw [eq_nil_iff_forall_not_mem]
    intro r hr
    cases hgen : r.isgenerated with
    | true =>
      obtain ⟨-,f,hf,-⟩:=hnew.parents r hr hgen
      cases hf
    | false =>
      have hmem : r∈new.filter (fun r => !r.isgenerated):=mem_filter.mpr ⟨hr,by simp [hgen]⟩
      rw [hnew.members] at hmem
      cases hmem
  rw [hrows,hxattrs,hnew.xattrs,hempty,hdir rfl]
  exact ⟨by simp,by simp [openBatch]⟩

/-- A larger archive has the rows of its members added, and no other that is not generated. -/
theorem flattenOne_large (hemb : Embedded front archive back start) (hstored : Stored ps front archive p)
    (hflat : shouldFlattenNested opts p.size depth=true) (hapart : RowsApart st.batch p)
    (hlarge : blockSize<archive.length) (hok : (topFound opts archive st.gnu).2.error=none)
    (hdump : ∀f∈(topFound opts archive st.gnu).1,f.typeflag≠68) :
    ∃fs new xattrs,List.Forall₂ (Moved opts front archive back) (aloneMembers opts archive st.gnu) fs ∧
      (flattenOne opts (front++archive++back) start depth st p).batch.rows=st.batch.rows++new ∧
      (flattenOne opts (front++archive++back) start depth st p).batch.xattrs=st.batch.xattrs++xattrs ∧
      new.filter (fun r => !r.isgenerated)=fs.map (fun f => entryRow (nestedName ps f) depth f) ∧
      xattrs=fs.flatMap xattrRows ∧
      ((∀r∈table st.batch.rows,r∈table (st.batch.rows++new)) ↔ DirsApart opts archive ps st p) := by
  have hall:=nestedWalk_members hemb hstored hlarge hok hdump
  have hmember : ∀f'∈(nestedWalk opts (front++archive++back) start p st.gnu).1,
      ∃x∈aloneMembers opts archive st.gnu,∃off,f'=Found.nested front archive off x.2 := by
    intro f' hf'
    obtain ⟨x,hx,off,hoff,-⟩:=PairedLists.exists_left hall hf'
    exact ⟨x,hx,off,hoff⟩
  have hinside : ∀f'∈(nestedWalk opts (front++archive++back) start p st.gnu).1,
      p.offset≤f'.headerStart ∧ f'.headerStart<p.offset+p.size := by
    intro f' hf'
    obtain ⟨x,hx,off,rfl⟩:=hmember f' hf'
    have hlt:=headerStart_lt (fun n hn => by cases hn) x hx
    rw [hstored.offset,hstored.size]
    exact ⟨Nat.le_add_right _ _,Nat.add_lt_add_left hlt _⟩
  obtain ⟨mid,new,dir,hnew,hrows,hxattrs,hdir,-⟩:=flattenOne_adds hstored hflat rfl (by
    intro f' hf'
    obtain ⟨x,hx,off,rfl⟩:=hmember f' hf'
    exact hdump x.2 (aloneMembers_found opts archive st.gnu ▸ mem_map.mpr ⟨x,hx,rfl⟩))
  have hnamed:=trimEndSlash_nestedName hstored.proper hstored.ne_nil
  refine ⟨_,new++dir,_,hall,hrows,hxattrs.trans hnew.xattrs,?_,rfl,?_⟩
  · have hnone : dir.filter (fun r => !r.isgenerated)=[] := by
      rw [filter_eq_nil_iff]
      intro r hr
      simp [(hdir r hr).1]
    rw [filter_append,hnone,append_nil,hnew.members,filter_eq_self.mpr fun f _ => by simpa using hnamed f]
  · rw [others_iff hapart hnew hdir hinside hnamed]
    refine forall₂_congr fun r hr => forall₂_congr fun hzero hfresh => ?_
    constructor
    · intro h x hx
      obtain ⟨f',hf',off,rfl,-⟩:=PairedLists.exists_right hall hx
      exact h (Found.nested front archive off x.2) hf'
    · intro h f' hf'
      obtain ⟨x,hx,off,rfl⟩:=hmember f' hf'
      exact h x hx

theorem no_rows_iff :
    []=(((ms.map Prod.snd).filter fun f => trimEndSlash f.name≠[]).map topRow).map (Row.under ps front.length depth) ↔
      ∀x∈ms,trimEndSlash x.2.name=[] := by
  rw [eq_comm,map_eq_nil_iff,map_eq_nil_iff,filter_eq_nil_iff,forall_mem_map]
  simp

theorem no_xattrs_iff :
    []=((ms.map Prod.snd).flatMap xattrRows).map (fun x => (front.length+x.1,x.2)) ↔ ∀x∈ms,x.2.xattrs=[] := by
  rw [eq_comm,map_eq_nil_iff,flatMap_eq_nil_iff,forall_mem_map]
  simp [xattrRows]

/-- Flattening an archive gives it the rows that it has alone exactly if every member keeps its row. -/
theorem flattens_alike_iff (hemb : Embedded front archive back start) (hstored : Stored ps front archive p)
    (hflat : shouldFlattenNested opts p.size depth = true) (hapart : RowsApart st.batch p)
    (hdump : ∀ f ∈ (topFound opts archive st.gnu).1, f.typeflag ≠ 68) :
    FlattensAlike opts front archive back start depth ps st p ↔
      (∃ ix, parseTarFrom opts archive 0 st.gnu = .ok ix) ∧
        ((archive.length ≤ blockSize ∧
            ∀ x ∈ aloneMembers opts archive st.gnu, trimEndSlash x.2.name = [] ∧ x.2.xattrs = []) ∨
          (blockSize < archive.length ∧ (∀ x ∈ aloneMembers opts archive st.gnu, MemberKept opts archive back x) ∧
            DirsApart opts archive ps st p)) := by
  rw [FlattensAlike]
  cases hix : parseTarFrom opts archive 0 st.gnu with
  | error e => simp
  | ok ix =>
    obtain ⟨hrows,hxattrs⟩ := topBatch_members hdump
    have hok := error_of_parseTarFrom hix
    simp only [Except.ok.injEq,exists_eq_left',exists_eq',true_and]
    rw [filter_rows_parseTarFrom hix,hrows,hxattrs,aloneMembers_found]
    by_cases hsmall : archive.length ≤ blockSize
    · obtain ⟨hrows',hxattrs'⟩ := @flattenOne_small opts front archive start depth ps st p hstored hflat hsmall
        (front ++ archive ++ back)
      rw [hrows',hxattrs',drop_length,drop_length]
      rw [filter_nil,no_rows_iff,no_xattrs_iff]
      constructor
      · rintro ⟨hname,hx,-⟩
        exact .inl ⟨hsmall,fun x hmem => ⟨hname x hmem,hx x hmem⟩⟩
      · rintro (⟨-,h⟩ | ⟨hlt,-⟩)
        · exact ⟨fun x hx => (h x hx).1,fun x hx => (h x hx).2,fun r hr => hr⟩
        · omega
    · obtain ⟨fs,new,xattrs,hall,hrows',hxattrs',hfilter,rfl,hothers⟩ :=
        flattenOne_large hemb hstored hflat hapart (by omega) hok hdump
      rw [hrows',hxattrs',drop_left,drop_left,hfilter,rows_kept_iff hstored hall,
        flatMap_xattrRows_nested hall,hothers]
      constructor
      · rintro ⟨hkept,-,hdirs⟩
        exact .inr ⟨by omega,hkept,hdirs⟩
      · rintro (⟨hle,-⟩ | ⟨-,hkept,hdirs⟩)
        · exact absurd hle hsmall
        · exact ⟨hkept,rfl,hdirs⟩

end Flatten

/-- A regular member `name` without data behind its header. -/
def namedHeader (name : Str) (size : ℕ) : Bytes :=
  (writeRawUstarHeader { name := Utf8.encode name, size, typeflag := 48, mode := 0o644 }).toOption.getD []

/-- The archive at `/p.tar`, behind one header. -/
def pendingAt (archive : Bytes) : NestedPending where
  path := "/p.tar".toList
  offset := 512
  size := archive.length
  offsetheader := 0
  modeBits := 0o644
  uid := 0
  gid := 0

theorem mem_rows_of_table {rows : List Row} {r : Row} (h : r∈table rows) : r∈rows := (KeyedLog.latest_sublist rows).subset h

/-- The rows of the stream that has the archive at `/p.tar` as its only member. -/
def outerBatch (archive : Bytes) : Batch :=
  topBatch scanOptions (namedHeader "p.tar".toList archive.length ++ archive ++ tarEof) false

/-- A file `a` in an archive is the same row below it, and the row of the archive stays. -/
theorem flattens_alike_file :
    (outerBatch (sampleTar [sampleFile ['a'] [7]])).rows.map Row.full = ["/p.tar".toList] ∧
      FlattensAlike scanOptions (namedHeader "p.tar".toList 2048) (sampleTar [sampleFile ['a'] [7]]) tarEof 0 1
        ["p.tar".toList] { batch := outerBatch (sampleTar [sampleFile ['a'] [7]]), gnu := false }
        (pendingAt (sampleTar [sampleFile ['a'] [7]])) := by
  have hemb : Embedded (namedHeader "p.tar".toList 2048) (sampleTar [sampleFile ['a'] [7]]) tarEof 0 :=
    ⟨by decide +kernel,Nat.zero_le _⟩
  have hstored : Stored ["p.tar".toList] (namedHeader "p.tar".toList 2048) (sampleTar [sampleFile ['a'] [7]])
      (pendingAt (sampleTar [sampleFile ['a'] [7]])) := by
    refine ⟨?_,by simp,by decide +kernel,by decide +kernel,rfl⟩
    intro part hpart
    rw [mem_singleton.mp hpart]
    exact ⟨by decide +kernel,by decide +kernel,by decide +kernel,by decide +kernel⟩
  have hapart : RowsApart (Flatten.batch { batch := outerBatch (sampleTar [sampleFile ['a'] [7]]), gnu := false })
      (pendingAt (sampleTar [sampleFile ['a'] [7]])) :=
    ⟨by decide +kernel,by decide +kernel,by decide +kernel,by decide +kernel⟩
  have hrow : ∀ r ∈ (outerBatch (sampleTar [sampleFile ['a'] [7]])).rows, r.full = "/p.tar".toList := by decide +kernel
  have hdirs : DirsApart scanOptions (sampleTar [sampleFile ['a'] [7]]) ["p.tar".toList]
      { batch := outerBatch (sampleTar [sampleFile ['a'] [7]]), gnu := false } (pendingAt (sampleTar [sampleFile ['a'] [7]])) := by
    intro r hr _ hother
    exact absurd (mem_cons.mpr (.inl (hrow r (mem_rows_of_table hr)))) hother
  refine ⟨by decide +kernel,(flattens_alike_iff hemb hstored (by decide +kernel) hapart
    (by decide +kernel)).mpr ⟨ok_of_isOk (by decide +kernel),.inr ⟨by decide +kernel,?_,hdirs⟩⟩⟩
  have hmembers : ∀ x ∈ aloneMembers scanOptions (sampleTar [sampleFile ['a'] [7]]) false,
      x.2.name = ['a'] ∧ x.2.istar = false ∧ x.1.pax PaxKey.sparseMajor ≠ some ['1'] := by decide +kernel
  intro x hx
  obtain ⟨hname,histar,hmajor⟩ := hmembers x hx
  refine ⟨?_,⟨?_,?_,?_⟩,fun hmap => absurd hmap hmajor⟩
  · rw [hname]
    decide +kernel
  · rw [hname]
    decide +kernel
  · intro hinner
    rw [hname] at hinner
    exact absurd hinner (by decide +kernel)
  · intro h
    rw [histar] at h
    cases h

/-- An archive with the one member `../x`. -/
def escapingTar : Bytes := namedHeader "../x".toList 0 ++ tarEof

/-- An archive that ends inside its second header. -/
def truncatedTar : Bytes := namedHeader "x".toList 0 ++ (namedHeader "y".toList 0).take 100

/-- The member `../x` of `p.tar` gets the path `/x`; an archive that cannot be indexed alone has rows when it is nested. -/
theorem flattening_differs :
    ((parseTarFrom scanOptions escapingTar 0 false).toOption.map fun ix => ix.rows.map Row.full) = some ["/x".toList] ∧
      ((parseTarFrom scanOptions (namedHeader "p.tar".toList escapingTar.length ++ escapingTar ++ tarEof) 0 false).toOption.map
          fun ix => (ix.rows.filter fun r => !r.isgenerated).map fun r => (r.full,r.recursiondepth)) =
        some [("/p.tar".toList,0),("/x".toList,1)] ∧
      ¬ FlattensAlike scanOptions (namedHeader "p.tar".toList escapingTar.length) escapingTar tarEof 0 1
        ["p.tar".toList] { batch := {}, gnu := false } (pendingAt escapingTar) ∧
      (parseTarFrom scanOptions truncatedTar 0 false).isOk = false ∧
      ((flattenOne scanOptions (namedHeader "p.tar".toList truncatedTar.length ++ truncatedTar ++ tarEof) 0 1
        { batch := {}, gnu := false } (pendingAt truncatedTar)).batch.rows.filter fun r => !r.isgenerated).map Row.full =
          ["/p.tar/x".toList] := by
  refine ⟨by decide +kernel,by decide +kernel,?_,by decide +kernel,by decide +kernel⟩
  rintro ⟨ix,hix,hrows,-⟩
  have halone : ((parseTarFrom scanOptions escapingTar 0 false).toOption.map fun ix =>
      ((ix.rows.filter isMemberRow).map (Row.under ["p.tar".toList] 512 1)).map Row.full) = some ["/p.tar/x".toList] := by
    decide +kernel
  have hnested : (((flattenOne scanOptions (namedHeader "p.tar".toList escapingTar.length ++ escapingTar ++ tarEof) 0 1
      { batch := {}, gnu := false } (pendingAt escapingTar)).batch.rows.drop 0).filter fun r => !r.isgenerated).map Row.full =
        ["/x".toList] := by decide +kernel
  rw [hix] at halone
  have hfront : (namedHeader "p.tar".toList escapingTar.length).length = 512 := by decide +kernel
  have hpaths := congrArg (List.map Row.full) hrows
  rw [hfront] at hpaths
  exact absurd (hnested.symm.trans (hpaths.trans (Option.some.inj halone))) (by decide +kernel)

end Ratarmount.Tar
