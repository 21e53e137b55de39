import Mathlib.Data.List.TakeWhile
import Ratarmount.PairedLists
import Ratarmount.TarIndexRows

/-!
# Rows and their parent directories

`push_entry` adds the row of a member behind the rows of those parent directories
that have none yet. Which directories get a row depends only on the paths of the
members so far.
-/

namespace Ratarmount.Tar

open ArchivePath List

def Row.full (r : Row) : Str := r.path ++ '/' :: r.name

/-- The paths of the directories `parts` below `parent`, one inside the other. -/
def chain : Str → List Str → List Str
  | _, [] => []
  | parent, part :: parts => (parent ++ '/' :: part) :: chain (parent ++ '/' :: part) parts

variable {parts : List Str} {b : Batch} {depth : ℕ} {opts : IndexOptions} {data : Bytes} {gnu : Bool}
  {ix : ParsedIndex}

/-- The directories `dirs` have rows: those without one get it. -/
structure Parents (uid gid : ℕ) (dirs : List Str) (b b' : Batch) (new : List Row) : Prop where
  rows : b'.rows = b.rows ++ new
  parent : ∀ r ∈ new, r = parentRow r.path r.name uid gid ∧ '/' ∉ r.name
  full : ∀ dir, dir ∈ new.map Row.full ↔ dir ∈ dirs ∧ dir ∉ b.generatedDirs
  generated : ∀ dir, dir ∈ b'.generatedDirs ↔ dir ∈ b.generatedDirs ∨ dir ∈ dirs
  xattrs : b'.xattrs = b.xattrs
  dumpdirState : b'.dumpdirState = b.dumpdirState

theorem ensureParts_parents (uid gid : ℕ) (h : ∀p∈parts, '/' ∉ p) (parent : Str) (b : Batch) :
    ∃new,Parents uid gid (chain parent parts) b (ensureParts uid gid parent parts b) new := by
  induction parts generalizing parent b with
  | nil => exact ⟨[],⟨by simp [ensureParts],by simp,by simp [chain],by simp [ensureParts,chain],rfl,rfl⟩⟩
  | cons part parts ih =>
    have hparts : ∀p∈parts, '/' ∉ p := fun p hp => h p (mem_cons_of_mem _ hp)
    rw [ensureParts]
    by_cases hcur : parent ++ '/' :: part∈b.generatedDirs
    · rw [if_pos hcur]
      obtain ⟨new,hrows,hparent,hfull,hgen,hx,hd⟩:=ih hparts (parent ++ '/' :: part) b
      refine ⟨new,hrows,hparent,?_,?_,hx,hd⟩
      · intro dir
        rw [hfull,chain,mem_cons]
        constructor
        · exact fun hdir => ⟨Or.inr hdir.1,hdir.2⟩
        · rintro ⟨rfl | hdir,hnew⟩
          · exact absurd hcur hnew
          · exact ⟨hdir,hnew⟩
      · intro dir
        rw [hgen,chain,mem_cons]
        constructor
        · exact fun hdir => hdir.imp_right Or.inr
        · rintro (hdir | rfl | hdir)
          · exact Or.inl hdir
          · exact Or.inl hcur
          · exact Or.inr hdir
    · rw [if_neg hcur]
      obtain ⟨new,hrows,hparent,hfull,hgen,hx,hd⟩:=ih hparts (parent ++ '/' :: part)
        { b with generatedDirs := (parent ++ '/' :: part)::b.generatedDirs,
                 rows := b.rows++[parentRow parent part uid gid] }
      refine ⟨parentRow parent part uid gid::new,?_,?_,?_,?_,hx,hd⟩
      · rw [hrows,append_assoc]
        rfl
      · intro r hr
        rcases mem_cons.mp hr with rfl | hr
        · exact ⟨rfl,h part mem_cons_self⟩
        · exact hparent r hr
      · intro dir
        rw [map_cons,mem_cons,hfull,chain]
        simp only [mem_cons,not_or]
        constructor
        · rintro (rfl | ⟨hdir,-,hnew⟩)
          · exact ⟨Or.inl rfl,hcur⟩
          · exact ⟨Or.inr hdir,hnew⟩
        · rintro ⟨rfl | hdir,hnew⟩
          · exact Or.inl rfl
          · by_cases he : dir=parent ++ '/' :: part
            · exact Or.inl he
            · exact Or.inr ⟨hdir,he,hnew⟩
      · intro dir
        rw [hgen,chain,mem_cons,mem_cons]
        tauto

def dirsAbove (path : Str) : List Str := chain [] ((path.splitOn '/').filter (· ≠ []))

theorem ensureParentDirs_parents (path : Str) (uid gid : ℕ) (b : Batch) :
    ∃new,Parents uid gid (dirsAbove path) b (ensureParentDirs path uid gid b) new :=
  ensureParts_parents uid gid (fun _ hp => not_mem_splitOn (mem_of_mem_filter hp)) [] b

/-! ## The row of a member -/

theorem rsplitSlash_append {path name : Str} (h : '/' ∉ name) : rsplitSlash (path ++ '/' :: name)=(path,name) := by
  have hpos : ∀c∈name.reverse,decide (c ≠ '/')=true := by
    intro c hc
    simp only [decide_eq_true_eq]
    rintro rfl
    exact h (mem_reverse.mp hc)
  have hrev : (path ++ '/' :: name).reverse=name.reverse ++ '/' :: path.reverse := by simp
  rw [rsplitSlash,hrev,takeWhile_append_of_pos hpos,dropWhile_append_of_pos hpos]
  simp

theorem rsplitSlash_full {s : Str} (h : '/' ∈ s) : (rsplitSlash s).1 ++ '/' :: (rsplitSlash s).2=s := by
  have hsplit:=takeWhile_append_dropWhile (p:=(· ≠ '/')) (l := s.reverse)
  have hhead : s.reverse.dropWhile (· ≠ '/') = '/' :: (s.reverse.dropWhile (· ≠ '/')).drop 1 := by
    have hne : s.reverse.dropWhile (· ≠ '/')≠[] := by
      intro hnil
      rw [dropWhile_eq_nil_iff] at hnil
      simpa using hnil '/' (mem_reverse.mpr h)
    obtain ⟨c,rest,hc⟩:=exists_cons_of_ne_nil hne
    have hslash:=head_dropWhile_not (· ≠ '/') hne
    simp only [hc,head_cons] at hslash
    rw [hc]
    simpa using hslash
  rw [hhead] at hsplit
  rw [←reverse_inj,←hsplit]
  simp [rsplitSlash]

theorem key_eq_iff {r r' : Row} :
    r.key=r'.key ↔ r.path=r'.path ∧ r.name=r'.name ∧ r.offsetheader=r'.offsetheader := by
  rw [Row.key,Row.key,Prod.mk.injEq,Prod.mk.injEq]

theorem key_eq_of_full {r r' : Row} (hname : '/' ∉ r.name) (hname' : '/' ∉ r'.name) (hfull : r.full=r'.full)
    (hoff : r.offsetheader=r'.offsetheader) : r.key=r'.key := by
  have hsplit:=congrArg rsplitSlash hfull
  rw [Row.full,Row.full,rsplitSlash_append hname,rsplitSlash_append hname',Prod.mk.injEq] at hsplit
  exact key_eq_iff.mpr ⟨hsplit.1,hsplit.2,hoff⟩

def entryRow (fullName : Str) (depth : ℕ) (f : Found) : Row :=
  let isDir := f.typeflag = 53 ∨ endsWithSlash fullName
  let ifmt := if isDir then sIfdir else if f.typeflag = 50 then sIflnk else sIfreg
  let size := if f.typeflag = 53 ∨ endsWithSlash f.name then 0 else f.logicalSize
  { path := (rsplitSlash (memberPath fullName)).1, name := (rsplitSlash (memberPath fullName)).2,
    offsetheader := f.headerStart, offset := f.dataOff, size := if isDir then 0 else asI64 size,
    mode := f.modeBits % 4096 + ifmt, type := f.typeflag, linkname := f.linkname, uid := asI64 f.uid,
    gid := asI64 f.gid, istar := f.istar, issparse := f.issparse, isgenerated := false, recursiondepth := depth }

def entryDirs (fullName : Str) : List Str := dirsAbove (rsplitSlash (memberPath fullName)).1

theorem pushEntry_parents {fullName : Str} (hname : trimEndSlash fullName≠[]) (depth : ℕ) (f : Found) (b : Batch) :
    ∃new mid,Parents f.uid f.gid (entryDirs fullName) b mid new ∧
      pushEntry fullName depth f b={ mid with rows := b.rows++(new++[entryRow fullName depth f]) } := by
  obtain ⟨new,hnew⟩:=ensureParentDirs_parents (rsplitSlash (memberPath fullName)).1 f.uid f.gid b
  refine ⟨new,_,hnew,?_⟩
  rw [pushEntry,if_neg hname,←append_assoc,←hnew.rows]
  rfl

/-! ## The rows of a list of members -/

def isMemberRow (r : Row) : Bool := !r.isgenerated && r.recursiondepth = 0

/-- A member with a row of its own that is no dumpdir. -/
def Ordinary (f : Found) : Prop := f.typeflag ≠ 68 ∧ trimEndSlash f.name ≠ []

def topRow (f : Found) : Row := entryRow f.name 0 f

def xattrRows (f : Found) : List (ℕ × Str × Bytes) := f.xattrs.map (fun x => (f.headerStart,x.1,x.2))

/-- The rows that members add: one for each, and one for each directory above them that had none. -/
structure Pushed (fs : List Found) (b b' : Batch) (new : List Row) : Prop where
  rows : b'.rows = b.rows ++ new
  members : new.filter isMemberRow = fs.map topRow
  parents : ∀ r ∈ new, isMemberRow r = false →
    ∃ f ∈ fs, r = parentRow r.path r.name f.uid f.gid ∧ '/' ∉ r.name ∧ r.full ∈ entryDirs f.name
  full : ∀ f ∈ fs, ∀ dir ∈ entryDirs f.name, dir ∉ b.generatedDirs →
    ∃ r ∈ new, isMemberRow r = false ∧ r.full = dir
  fresh : ∀ r ∈ new, isMemberRow r = false → r.full ∉ b.generatedDirs
  generated : ∀ dir, dir ∈ b'.generatedDirs ↔ dir ∈ b.generatedDirs ∨ ∃ f ∈ fs, dir ∈ entryDirs f.name
  xattrs : b'.xattrs = b.xattrs ++ fs.flatMap xattrRows

/-- A member that is no dumpdir, under the path `name` gives it. -/
def pushAs (name : Found → Str) (depth : ℕ) (b : Batch) (f : Found) : Batch := pushXattrRows f (pushEntry (name f) depth f b)

structure Adds (name : Found → Str) (depth : ℕ) (fs : List Found) (b b' : Batch) (new : List Row) : Prop where
  rows : b'.rows = b.rows ++ new
  members : new.filter (fun r => !r.isgenerated) =
    (fs.filter fun f => trimEndSlash (name f) ≠ []).map fun f => entryRow (name f) depth f
  parents : ∀ r ∈ new, r.isgenerated = true → r.full ∉ b.generatedDirs ∧
    ∃ f ∈ fs, trimEndSlash (name f) ≠ [] ∧ r = parentRow r.path r.name f.uid f.gid ∧ '/' ∉ r.name ∧
      r.full ∈ entryDirs (name f)
  full : ∀ f ∈ fs, trimEndSlash (name f) ≠ [] → ∀ dir ∈ entryDirs (name f), dir ∉ b.generatedDirs →
    ∃ r ∈ new, r.isgenerated = true ∧ r.full = dir
  generated : ∀ dir, dir ∈ b'.generatedDirs ↔
    dir ∈ b.generatedDirs ∨ ∃ f ∈ fs, trimEndSlash (name f) ≠ [] ∧ dir ∈ entryDirs (name f)
  xattrs : b'.xattrs = b.xattrs ++ fs.flatMap xattrRows

section Adds

variable {name : Found → Str} {depth : ℕ} {b c d : Batch}

theorem pushAs_adds_named {f : Found} (hname : trimEndSlash (name f)≠[]) (b : Batch) :
    ∃dirs,Adds name depth [f] b (pushAs name depth b f) (dirs++[entryRow (name f) depth f]) ∧
      ∀r∈dirs,r.isgenerated=true := by
  obtain ⟨new,mid,hnew,heq⟩:=pushEntry_parents hname depth f b
  have hgen : ∀r∈new,r.isgenerated=true := by
    intro r hr
    rw [(hnew.parent r hr).1]
    rfl
  have hnone : new.filter (fun r => !r.isgenerated)=[] := by
    rw [filter_eq_nil_iff]
    intro r hr
    simp [hgen r hr]
  have hfull : ∀r∈new,r.full∈entryDirs (name f) ∧ r.full∉b.generatedDirs :=
    fun r hr => (hnew.full r.full).mp (mem_map.mpr ⟨r,hr,rfl⟩)
  refine ⟨new,?_,hgen⟩
  rw [pushAs,heq]
  constructor
  case rows => rfl
  case members =>
    have hnamed : [f].filter (fun f => trimEndSlash (name f)≠[])=[f]:=filter_cons_of_pos (by simpa using hname)
    rw [filter_append,hnone,hnamed]
    rfl
  case parents =>
    intro r hr hm
    rcases mem_append.mp hr with hr | hr
    · exact ⟨(hfull r hr).2,f,mem_singleton.mpr rfl,hname,(hnew.parent r hr).1,(hnew.parent r hr).2,(hfull r hr).1⟩
    · rw [mem_singleton.mp hr] at hm
      cases hm
  case full =>
    intro f' hf' _ dir hdir hfresh
    rw [mem_singleton.mp hf'] at hdir
    obtain ⟨r,hr,hfull⟩:=mem_map.mp ((hnew.full dir).mpr ⟨hdir,hfresh⟩)
    exact ⟨r,mem_append_left _ hr,hgen r hr,hfull⟩
  case generated =>
    intro dir
    simp only [mem_singleton,exists_eq_left]
    exact (hnew.generated dir).trans (or_congr_right ⟨fun h => ⟨hname,h⟩,And.right⟩)
  case xattrs =>
    simp [pushXattrRows,hnew.xattrs,xattrRows]

theorem pushAs_adds (f : Found) (b : Batch) : ∃new,Adds name depth [f] b (pushAs name depth b f) new := by
  by_cases hname : trimEndSlash (name f)=[]
  · refine ⟨[],?_⟩
    rw [pushAs,pushEntry]
    constructor <;> simp [pushXattrRows,hname,xattrRows]
  · obtain ⟨dirs,hadds,-⟩:=@pushAs_adds_named name depth f hname b
    exact ⟨_,hadds⟩

theorem Adds.append {fs gs : List Found} {new new' : List Row} (h : Adds name depth fs b c new)
    (h' : Adds name depth gs c d new') : Adds name depth (fs++gs) b d (new++new') := by
  constructor
  case rows => rw [h'.rows,h.rows,append_assoc]
  case members => rw [filter_append,h.members,h'.members,filter_append,map_append]
  case parents =>
    intro r hr hm
    rcases mem_append.mp hr with hr | hr
    · obtain ⟨hfresh,f,hf,hrow⟩:=h.parents r hr hm
      exact ⟨hfresh,f,mem_append_left _ hf,hrow⟩
    · obtain ⟨hfresh,f,hf,hrow⟩:=h'.parents r hr hm
      exact ⟨fun hb => hfresh ((h.generated _).mpr (Or.inl hb)),f,mem_append_right _ hf,hrow⟩
  case full =>
    intro f hf hname dir hdir hfresh
    by_cases hc : dir∈c.generatedDirs
    · obtain ⟨f',hf',hname',hdir'⟩:=((h.generated dir).mp hc).resolve_left hfresh
      obtain ⟨r,hr,hrow⟩:=h.full f' hf' hname' dir hdir' hfresh
      exact ⟨r,mem_append_left _ hr,hrow⟩
    · rcases mem_append.mp hf with hf | hf
      · exact absurd ((h.generated dir).mpr (Or.inr ⟨f,hf,hname,hdir⟩)) hc
      · obtain ⟨r,hr,hrow⟩:=h'.full f hf hname dir hdir hc
        exact ⟨r,mem_append_right _ hr,hrow⟩
  case generated =>
    intro dir
    rw [h'.generated,h.generated]
    simp only [mem_append,or_and_right,exists_or,or_assoc]
  case xattrs => rw [h'.xattrs,h.xattrs,flatMap_append,append_assoc]

theorem foldl_pushAs_adds (fs : List Found) (b : Batch) :
    ∃new,Adds name depth fs b (fs.foldl (pushAs name depth) b) new := by
  induction fs generalizing b with
  | nil => exact ⟨[],by simp,by simp,by simp,by simp,by simp,by simp⟩
  | cons f fs ih =>
    obtain ⟨new,hnew⟩:=@pushAs_adds name depth f b
    obtain ⟨rest,hrest⟩:=ih (pushAs name depth b f)
    exact ⟨_,hnew.append hrest⟩

variable {fs : List Found} {new : List Row}

theorem foldl_pushTop_eq (h : ∀f∈fs,f.typeflag≠68) (b : Batch) :
    fs.foldl pushTop b=fs.foldl (pushAs Found.name 0) b :=
  foldl_ext _ _ b (fun b f hf => by rw [pushTop,if_neg (h f hf),pushAs])

/-- A member row is one that is not generated, among those that the members of the stream add. -/
theorem Adds.isMemberRow (h : Adds name 0 fs b c new) : ∀r∈new,isMemberRow r = !r.isgenerated := by
  intro r hr
  cases hgen : r.isgenerated with
  | true => simp [Ratarmount.Tar.isMemberRow,hgen]
  | false =>
    have hmem : r∈new.filter (fun r => !r.isgenerated):=mem_filter.mpr ⟨hr,by simp [hgen]⟩
    rw [h.members] at hmem
    obtain ⟨f,-,rfl⟩:=mem_map.mp hmem
    rfl

theorem Adds.pushed (h : Adds Found.name 0 fs b c new) (hfs : ∀f∈fs,Ordinary f) : Pushed fs b c new := by
  have hgen : ∀r∈new,Ratarmount.Tar.isMemberRow r=false ↔ r.isgenerated=true := by
    intro r hr
    simp [h.isMemberRow r hr]
  refine ⟨h.rows,?_,?_,?_,?_,?_,h.xattrs⟩
  · rw [filter_congr h.isMemberRow,h.members,filter_eq_self.mpr fun f hf => by simpa using (hfs f hf).2]
    rfl
  · intro r hr hm
    obtain ⟨-,f,hf,-,hrow⟩:=h.parents r hr ((hgen r hr).mp hm)
    exact ⟨f,hf,hrow⟩
  · intro f hf dir hdir hfresh
    obtain ⟨r,hr,hg,hfull⟩:=h.full f hf (hfs f hf).2 dir hdir hfresh
    exact ⟨r,hr,(hgen r hr).mpr hg,hfull⟩
  · exact fun r hr hm => (h.parents r hr ((hgen r hr).mp hm)).1
  · intro dir
    rw [h.generated]
    exact or_congr_right (exists_congr fun f => and_congr_right fun hf => and_iff_right (hfs f hf).2)

end Adds

theorem foldl_pushTop_pushed {fs : List Found} (hfs : ∀f∈fs,Ordinary f) (b : Batch) :
    ∃new,Pushed fs b (fs.foldl pushTop b) new := by
  obtain ⟨new,h⟩:=@foldl_pushAs_adds Found.name 0 fs b
  rw [foldl_pushTop_eq fun f hf => (hfs f hf).1]
  exact ⟨new,h.pushed hfs⟩

/-! ## Flattening only adds -/

/-- Rows behind those of `b` that are generated or lie inside a nested archive. -/
def Extends (b b' : Batch) : Prop :=
  ∃ rows xattrs, b'.rows = b.rows ++ rows ∧ b'.xattrs = b.xattrs ++ xattrs ∧
    ∀ r ∈ rows, r.isgenerated = true ∨ r.recursiondepth ≠ 0

theorem Extends.refl (b : Batch) : Extends b b := ⟨[],[],by simp,by simp,by simp⟩

theorem Extends.trans {a c : Batch} (hab : Extends a b) (hbc : Extends b c) : Extends a c := by
  obtain ⟨rows,xattrs,hrows,hx,hdeep⟩:=hab
  obtain ⟨rows',xattrs',hrows',hx',hdeep'⟩:=hbc
  refine ⟨rows++rows',xattrs++xattrs',by simp [hrows',hrows],by simp [hx',hx],?_⟩
  intro r hr
  rcases mem_append.mp hr with hr | hr
  · exact hdeep r hr
  · exact hdeep' r hr

theorem extends_foldl {α : Type} {step : Batch → α → Batch} (h : ∀b a,Extends b (step b a)) (as : List α)
    (b : Batch) : Extends b (as.foldl step b) := by
  induction as generalizing b with
  | nil => exact .refl b
  | cons a as ih => exact (h b a).trans (ih _)

theorem Parents.extends {uid gid : ℕ} {dirs : List Str} {b' : Batch} {new : List Row}
    (h : Parents uid gid dirs b b' new) : Extends b b' := by
  refine ⟨new,[],h.rows,by simp [h.xattrs],?_⟩
  intro r hr
  rw [(h.parent r hr).1]
  exact Or.inl rfl

theorem extends_pushEntry (hdepth : depth≠0) (fullName : Str) (f : Found) (b : Batch) :
    Extends b (pushEntry fullName depth f b) := by
  by_cases hname : trimEndSlash fullName=[]
  · rw [pushEntry,if_pos hname]
    exact .refl b
  · obtain ⟨new,mid,hnew,heq⟩:=pushEntry_parents hname depth f b
    rw [heq,←append_assoc,←hnew.rows]
    refine hnew.extends.trans ⟨[entryRow fullName depth f],[],rfl,by simp,?_⟩
    intro r hr
    rw [mem_singleton.mp hr]
    exact Or.inr hdepth

theorem extends_pushDumpdirEntries (hdepth : depth≠0) (fullName : Str) (f : Found) (b : Batch) :
    Extends b (pushDumpdirEntries fullName depth f b) := by
  rw [pushDumpdirEntries]
  split_ifs
  · exact .refl b
  · obtain ⟨new,hnew⟩:=ensureParentDirs_parents (rsplitSlash (memberPath fullName)).1 f.uid f.gid b
    refine hnew.extends.trans ⟨[_,_],[],rfl,by simp,?_⟩
    intro r hr
    rcases mem_pair.mp hr with rfl | rfl <;> exact Or.inr hdepth

theorem extends_pushNested (hdepth : depth≠0) (front : Str) (b : Batch) (f : Found) :
    Extends b (pushNested front depth b f) := by
  have hrows : ∀b' : Batch,Extends b b' → Extends b (pushXattrRows f b') := by
    rintro b' ⟨rows,xattrs,hrows,hx,hdeep⟩
    exact ⟨rows,xattrs++f.xattrs.map (fun x => (f.headerStart,x.1,x.2)),hrows,by simp [pushXattrRows,hx],hdeep⟩
  apply hrows
  split_ifs
  · exact extends_pushDumpdirEntries hdepth _ f b
  · exact extends_pushEntry hdepth _ f b

theorem extends_pushNestedMemberAsDirectory (p : NestedPending) (depth : ℕ) (b : Batch) :
    Extends b (pushNestedMemberAsDirectory p depth b) := by
  rw [pushNestedMemberAsDirectory]
  dsimp only
  split_ifs
  · exact .refl b
  · refine ⟨[_],[],rfl,by simp,?_⟩
    intro r hr
    rw [mem_singleton.mp hr]
    exact Or.inl rfl

section Flatten

variable (opts : IndexOptions) (data : Bytes) (start : ℕ)

variable {depth : ℕ}

theorem extends_flattenOne (hdepth : depth≠0) (st : Flatten) (p : NestedPending) :
    Extends st.batch (flattenOne opts data start depth st p).batch := by
  rw [flattenOne]
  split_ifs with hflat
  · have hdir : Extends st.batch { st.batch with generatedDirs:=p.path::st.batch.generatedDirs } :=
      ⟨[],[],by simp,by simp,by simp⟩
    have hfound:=hdir.trans (extends_foldl (fun b f => extends_pushNested hdepth p.path b f)
      (nestedWalk opts data start p st.gnu).1 _)
    dsimp only
    split_ifs
    · exact hfound.trans (extends_pushNestedMemberAsDirectory p depth _)
    · exact hfound
  · exact .refl _

theorem extends_flattenNestedTars (layers : ℕ) (hdepth : depth≠0) (nested : List NestedPending) (b : Batch)
    (gnu : Bool) : Extends b (flattenNestedTars opts data start layers depth nested b gnu).1 := by
  induction layers generalizing depth nested b gnu with
  | zero => exact .refl b
  | succ layers ih =>
    have hlayer : ∀st : Flatten,Extends st.batch (nested.foldl (flattenOne opts data start depth) st).batch := by
      induction nested with
      | nil => exact fun st => .refl _
      | cons p nested ihn => exact fun st => (extends_flattenOne opts data start hdepth st p).trans (ihn _)
    rw [flattenNestedTars]
    split_ifs
    · exact .refl b
    · exact (hlayer { batch := b, gnu }).trans (ih (by omega) _ _ _)

end Flatten

/-! ## The two phases of the indexer -/

def topFound (opts : IndexOptions) (data : Bytes) (gnu : Bool) : List Found × WalkEnd :=
  walkMembers opts data { start := 0, regionEnd := none } (data.length / blockSize + 2) { pos := 0, gnu }

/-- What the members of the stream itself have written. -/
def topBatch (opts : IndexOptions) (data : Bytes) (gnu : Bool) : Batch :=
  (topFound opts data gnu).1.foldl pushTop {}

def fullBatch (opts : IndexOptions) (data : Bytes) (gnu : Bool) : Batch :=
  (flattenNestedTars opts data 0 64 1
    (((topFound opts data gnu).1.filter Found.istar).map (fun f => nestedPending f.name f))
    (topBatch opts data gnu) (topFound opts data gnu).2.gnu).1

theorem parseTarFrom_ok (h : (topFound opts data gnu).2.error=none) :
    ∃ix,parseTarFrom opts data 0 gnu = .ok ix ∧ ix.rows=(fullBatch opts data gnu).rows ∧
      ix.xattrs=(fullBatch opts data gnu).xattrs := by
  cases hrun : parseTarFrom opts data 0 gnu with
  | error e =>
    rw [topFound] at h
    simp [parseTarFrom,h] at hrun
  | ok ix =>
    rw [topFound] at h
    simp only [parseTarFrom,h] at hrun
    rw [←hrun]
    exact ⟨_,rfl,rfl,rfl⟩

theorem parseTarFrom_error {e : TarError} (h : (topFound opts data gnu).2.error=some e) : parseTarFrom opts data 0 gnu = .error e := by
  rw [topFound] at h
  rw [parseTarFrom]
  simp [h]

theorem error_of_parseTarFrom (h : parseTarFrom opts data 0 gnu = .ok ix) : (topFound opts data gnu).2.error=none := by
  cases herr : (topFound opts data gnu).2.error with
  | none => rfl
  | some e =>
    rw [parseTarFrom_error herr] at h
    cases h

theorem filter_rows_parseTarFrom (h : parseTarFrom opts data 0 gnu = .ok ix) :
    ix.rows.filter isMemberRow=(topBatch opts data gnu).rows.filter isMemberRow := by
  obtain ⟨ix',hix',hrows,-⟩:=parseTarFrom_ok (error_of_parseTarFrom h)
  rw [h] at hix'
  obtain ⟨rows,-,hnested,-,hinner⟩:=extends_flattenNestedTars opts data 0 64 one_ne_zero
    (((topFound opts data gnu).1.filter Found.istar).map fun f => nestedPending f.name f) (topBatch opts data gnu)
    (topFound opts data gnu).2.gnu
  have hnone : rows.filter isMemberRow=[] := by
    rw [filter_eq_nil_iff]
    intro r hr
    rcases hinner r hr with h | h <;> simp [isMemberRow,h]
  rw [Except.ok.inj hix',hrows,fullBatch,hnested,filter_append,hnone,append_nil]

end Ratarmount.Tar
