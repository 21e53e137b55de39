import Ratarmount.KeysetPaging
import Ratarmount.Utf8Text
import Mathlib.Data.Char
import Mathlib.Data.List.Dedup
import Mathlib.Data.List.Lex
import Mathlib.Data.List.Sort

/-!
# Payload pages of the catalog

`list_extract_payload_page`: the payload rows of the `files` table, the newest of
each path, in pages by path. Rows that are not payload are filtered out before
the newest one is chosen, so a path whose newest row is a directory or a
tombstone comes back with an older row.
-/

namespace Ratarmount.Catalog

open List

structure FilesRow where
  path : Str
  name : Str
  offsetheader : Option ℤ
  mode : Option ℤ
  linkname : Option Str
  isgenerated : Option ℤ

structure ExtractPayloadRow where
  fullpath : Str
  offsetheader : ℤ
  deriving DecidableEq

def maxDirPage : ℕ := 10000

def dumpdirDeleteLinkname : Str := Char.ofNat 0 :: "GNU.dumpdir.delete".toList

def sIfdir : ℤ := 0o040000

namespace FilesRow

def fullpath (r : FilesRow) : Str :=
  if r.path = [] ∨ r.path = ['/'] then '/' :: r.name else r.path ++ '/' :: r.name

/-- `COALESCE(offsetheader, -1)`. -/
def version (r : FilesRow) : ℤ := r.offsetheader.getD (-1)

/-- `COALESCE(mode, 0) & S_IFMT = S_IFDIR`, where `S_IFMT` is the mask `0xF000`. -/
def isDirectory (r : FilesRow) : Bool :=
  r.mode.getD 0 % 0x10000 - r.mode.getD 0 % 0x1000 = sIfdir

def isTombstone (r : FilesRow) : Bool := r.linkname.getD [] = dumpdirDeleteLinkname

def isGenerated (r : FilesRow) : Bool := r.isgenerated.getD 0 ≠ 0

def isPayload (r : FilesRow) : Bool := !r.isDirectory && !r.isGenerated && !r.isTombstone

def selected (r : FilesRow) : Bool := r.isPayload && r.name ≠ []

end FilesRow

section Query

variable (rows : List FilesRow)

/-- The version of the row with `rn = 1` in the partition of a path. -/
def newestSelected (fullpath : Str) : ℤ :=
  (((rows.filter (fun r => r.selected && r.fullpath = fullpath)).map FilesRow.version).max?).getD (-1)

/-- All rows of the outer query, `ORDER BY fullpath`. -/
def payloadRows : List ExtractPayloadRow :=
  ((((rows.filter FilesRow.selected).map FilesRow.fullpath).dedup).insertionSort (· ≤ ·)).map
    (fun fullpath => { fullpath, offsetheader := newestSelected rows fullpath })

def listExtractPayloadPage (compactOnly : Bool) (afterPath : Option Str) (limit : ℕ) : List ExtractPayloadRow :=
  if compactOnly ∨ limit = 0 then []
  else Keyset.page ExtractPayloadRow.fullpath (payloadRows rows) (min limit maxDirPage) (afterPath.getD [])

/-- The rows of all pages: each call starts behind the last path of the one before, until a page is empty. -/
def extractAll (compactOnly : Bool) (limit : ℕ) : ℕ → Option Str → List ExtractPayloadRow
  | 0, _ => []
  | fuel + 1, after =>
    match (listExtractPayloadPage rows compactOnly after limit).getLast? with
    | none => []
    | some last =>
      listExtractPayloadPage rows compactOnly after limit ++ extractAll compactOnly limit fuel (some last.fullpath)

def IsNewestPayload (p : ExtractPayloadRow) : Prop :=
  ∃ r ∈ rows, r.fullpath = p.fullpath ∧ r.version = p.offsetheader ∧ r.isPayload = true ∧
    ∀ r' ∈ rows, r'.fullpath = r.fullpath → r'.version ≤ r.version

/-- The pages hold the newest payload rows and nothing else, once there is fuel for all of them. -/
def ListsNewest (compactOnly : Bool) (limit : ℕ) : Prop :=
  ∃ enough, ∀ fuel ≥ enough, ∀ p, p ∈ extractAll rows compactOnly limit fuel none ↔ IsNewestPayload rows p

/-- No row is newer than all payload rows of its path. -/
def NoneSuperseded : Prop :=
  ∀ r ∈ rows, r.selected = true → ∀ r' ∈ rows, r'.fullpath = r.fullpath →
    ∃ s ∈ rows, s.selected = true ∧ s.fullpath = r.fullpath ∧ r'.version ≤ s.version

/-- A payload row without a name is not the newest of its path. -/
def NamedPayload : Prop :=
  ∀ p, IsNewestPayload rows p → ∃ s ∈ rows, s.selected = true ∧ s.fullpath = p.fullpath

end Query

variable {rows : List FilesRow}

theorem fullpath_ne_nil (r : FilesRow) : r.fullpath≠[] := by
  rw [FilesRow.fullpath]
  split_ifs <;> simp

/-- The version that a page shows for a path is that of its newest payload row. -/
theorem newestSelected_spec {r : FilesRow} (hr : r∈rows) (hsel : r.selected=true) :
    (∃s∈rows,s.selected=true ∧ s.fullpath=r.fullpath ∧ s.version=newestSelected rows r.fullpath) ∧
    ∀s∈rows,s.selected=true → s.fullpath=r.fullpath → s.version≤newestSelected rows r.fullpath := by
  have hmem : ∀s,s∈rows.filter (fun s => s.selected && s.fullpath=r.fullpath) ↔
      s∈rows ∧ s.selected=true ∧ s.fullpath=r.fullpath := by simp
  have hne : (rows.filter (fun s => s.selected && s.fullpath=r.fullpath)).map FilesRow.version≠[] := by
    intro hnil
    rw [map_eq_nil_iff] at hnil
    have hself:=(hmem r).mpr ⟨hr,hsel,rfl⟩
    rw [hnil] at hself
    cases hself
  cases hmax : ((rows.filter (fun s => s.selected && s.fullpath=r.fullpath)).map FilesRow.version).max? with
  | none => exact absurd (max?_eq_none_iff.mp hmax) hne
  | some v =>
    have hnewest : newestSelected rows r.fullpath=v := by rw [newestSelected,hmax,Option.getD_some]
    obtain ⟨hv,hle⟩:=max?_eq_some_iff.mp hmax
    rw [hnewest]
    constructor
    · obtain ⟨s,hs,hversion⟩:=mem_map.mp hv
      obtain ⟨hs,hssel,hpath⟩:=(hmem s).mp hs
      exact ⟨s,hs,hssel,hpath,hversion⟩
    · intro s hs hssel hpath
      exact hle _ (mem_map.mpr ⟨s,(hmem s).mpr ⟨hs,hssel,hpath⟩,rfl⟩)

theorem mem_payloadRows (p : ExtractPayloadRow) : p∈payloadRows rows ↔
      (∃r∈rows,r.selected=true ∧ r.fullpath=p.fullpath) ∧ p.offsetheader=newestSelected rows p.fullpath := by
  simp only [payloadRows,mem_map,mem_insertionSort,mem_dedup,mem_filter]
  constructor
  · rintro ⟨fullpath,⟨r,⟨hr,hsel⟩,rfl⟩,rfl⟩
    exact ⟨⟨r,hr,hsel,rfl⟩,rfl⟩
  · rintro ⟨⟨r,hr,hsel,hpath⟩,hversion⟩
    refine ⟨p.fullpath,⟨r,⟨hr,hsel⟩,hpath⟩,?_⟩
    cases p
    simp_all

theorem payloadRows_sorted : (payloadRows rows).Pairwise (fun p q => p.fullpath<q.fullpath) := by
  rw [payloadRows,pairwise_map]
  have hsorted:=pairwise_insertionSort (·≤·) ((rows.filter FilesRow.selected).map FilesRow.fullpath).dedup
  have hnodup : ((((rows.filter FilesRow.selected).map FilesRow.fullpath).dedup).insertionSort (·≤·)).Nodup :=
    (perm_insertionSort _ _).nodup_iff.mpr (nodup_dedup _)
  exact (hsorted.and hnodup).imp (fun h => lt_of_le_of_ne h.1 h.2)

theorem extractAll_eq {limit : ℕ} (hlimit : limit≠0) (fuel : ℕ) (after : Option Str) :
    extractAll rows false limit fuel after =
      Keyset.pages ExtractPayloadRow.fullpath (payloadRows rows) (min limit maxDirPage) fuel (after.getD []) := by
  have hpage : ∀after,listExtractPayloadPage rows false after limit =
      Keyset.page ExtractPayloadRow.fullpath (payloadRows rows) (min limit maxDirPage) (after.getD []) := by
    intro after
    rw [listExtractPayloadPage,if_neg (by simp [hlimit])]
  induction fuel generalizing after with
  | zero => rfl
  | succ fuel ih =>
    rw [extractAll,Keyset.pages,hpage]
    cases (Keyset.page ExtractPayloadRow.fullpath (payloadRows rows) (min limit maxDirPage) (after.getD [])).getLast? with
    | none => rfl
    | some last =>
      change _++extractAll rows false limit fuel (some last.fullpath)=_
      rw [ih]
      rfl

/-- The pages together are the payload rows, whatever the page size. -/
theorem extractAll_eq_payloadRows {limit : ℕ} (hlimit : limit≠0) {fuel : ℕ}
    (hfuel : (payloadRows rows).length<fuel) : extractAll rows false limit fuel none=payloadRows rows := by
  have hbehind : ∀p∈payloadRows rows,([] : Str)<p.fullpath := by
    intro p hp
    obtain ⟨⟨r,-,-,hpath⟩,-⟩:=(mem_payloadRows p).mp hp
    obtain ⟨c,tail,hcons⟩:=exists_cons_of_ne_nil (fullpath_ne_nil r)
    rw [←hpath,hcons]
    simp
  have hpages:=@Keyset.pages_eq _ _ _ ExtractPayloadRow.fullpath (payloadRows rows) (min limit maxDirPage)
    payloadRows_sorted (by rw [maxDirPage]; omega) fuel []
  rw [filter_eq_self.mpr (fun p hp => by simpa using hbehind p hp)] at hpages
  rw [extractAll_eq hlimit]
  exact hpages hfuel

theorem extractAll_nil {compactOnly : Bool} {limit : ℕ} (h : compactOnly=true ∨ limit=0) (fuel : ℕ) (after : Option Str) :
    extractAll rows compactOnly limit fuel after=[] := by
  cases fuel with
  | zero => rfl
  | succ fuel =>
    rw [extractAll,listExtractPayloadPage,if_pos h]
    rfl

/-- The payload rows are the newest rows exactly if no payload row is superseded. -/
theorem payloadRows_newest_iff :
    (∀p,p∈payloadRows rows ↔ IsNewestPayload rows p) ↔ NoneSuperseded rows ∧ NamedPayload rows := by
  constructor
  · intro h
    constructor
    · intro r hr hsel r' hr' hpath
      obtain ⟨⟨s,hs,hssel,hspath,hsversion⟩,-⟩:=newestSelected_spec hr hsel
      have hmem : { fullpath:=r.fullpath, offsetheader:=newestSelected rows r.fullpath }∈payloadRows rows :=
        (mem_payloadRows _).mpr ⟨⟨r,hr,hsel,rfl⟩,rfl⟩
      obtain ⟨t,-,htpath,htversion,-,hnewest⟩:=(h _).mp hmem
      refine ⟨s,hs,hssel,hspath,?_⟩
      rw [hsversion]
      exact (hnewest r' hr' (hpath.trans htpath.symm)).trans htversion.le
    · intro p hp
      exact ((mem_payloadRows p).mp ((h p).mpr hp)).1
  · rintro ⟨hnone,hnamed⟩ p
    rw [mem_payloadRows]
    constructor
    · rintro ⟨⟨r,hr,hsel,hpath⟩,hversion⟩
      obtain ⟨⟨s,hs,hssel,hspath,hsversion⟩,hle⟩:=newestSelected_spec hr hsel
      have hpayload : s.isPayload=true := by
        rw [FilesRow.selected,Bool.and_eq_true] at hssel
        exact hssel.1
      refine ⟨s,hs,hspath.trans hpath,by rw [hsversion,hversion,hpath],hpayload,?_⟩
      intro r' hr' hpath'
      obtain ⟨t,ht,htsel,htpath,hnewer⟩:=hnone r hr hsel r' hr' (hpath'.trans hspath)
      rw [hsversion]
      exact hnewer.trans (hle t ht htsel htpath)
    · intro hp
      obtain ⟨s,hs,hssel,hspath⟩:=hnamed p hp
      obtain ⟨r,hr,hpath,hversion,-,hnewest⟩:=hp
      refine ⟨⟨s,hs,hssel,hspath⟩,?_⟩
      obtain ⟨⟨t,ht,htsel,htpath,htversion⟩,hle⟩:=newestSelected_spec hs hssel
      obtain ⟨u,hu,husel,hupath,hnewer⟩:=hnone s hs hssel r hr (hpath.trans hspath.symm)
      rw [←hspath,←hversion]
      apply le_antisymm
      · exact hnewer.trans (hle u hu husel hupath)
      · rw [←htversion]
        exact hnewest t ht (htpath.trans (hspath.trans hpath.symm))

/-- The pages hold exactly the newest payload rows if and only if no payload row has a newer row that is not payload. -/
theorem listsNewest_iff (compactOnly : Bool) (limit : ℕ) :
    ListsNewest rows compactOnly limit ↔
      if compactOnly = true ∨ limit = 0 then ∀ p, ¬ IsNewestPayload rows p
      else NoneSuperseded rows ∧ NamedPayload rows := by
  split_ifs with h
  · constructor
    · rintro ⟨enough,hall⟩ p hp
      have hmem := (hall enough (Nat.le_refl _) p).mpr hp
      rw [extractAll_nil h] at hmem
      cases hmem
    · intro hnone
      refine ⟨0,fun fuel _ p => ?_⟩
      rw [extractAll_nil h]
      simp [hnone p]
  · obtain ⟨hcompact,hlimit⟩ := not_or.mp h
    have hfalse : compactOnly = false := by simpa using hcompact
    subst hfalse
    rw [← payloadRows_newest_iff]
    constructor
    · rintro ⟨enough,hall⟩ p
      have hfuel : (payloadRows rows).length < max enough ((payloadRows rows).length + 1) := by omega
      rw [← extractAll_eq_payloadRows hlimit hfuel]
      exact hall _ (Nat.le_max_left _ _) p
    · intro hall
      refine ⟨(payloadRows rows).length + 1,fun fuel hfuel p => ?_⟩
      rw [extractAll_eq_payloadRows hlimit (by omega)]
      exact hall p

def deletedFile : List FilesRow :=
  [{ path := [], name := "a".toList, offsetheader := some 0, mode := some 0o100644, linkname := some [], isgenerated := some 0 },
   { path := [], name := "a".toList, offsetheader := some 1024, mode := some 0, linkname := some dumpdirDeleteLinkname,
     isgenerated := some 1 }]

/-- A file and the tombstone that a later snapshot wrote for it: extract-all brings the file back. -/
theorem extractAll_resurrects_deleted_file :
    extractAll deletedFile false 100 3 none = [{ fullpath := "/a".toList, offsetheader := 0 }] ∧
    ¬ IsNewestPayload deletedFile { fullpath := "/a".toList, offsetheader := 0 } := by
  constructor
  · decide +kernel
  · rintro ⟨r,hr,hpath,hversion,-,hnewest⟩
    have hlast := hnewest _ (mem_cons_of_mem _ mem_cons_self) (by rw [hpath]; decide +kernel)
    rw [hversion] at hlast
    revert hlast
    decide

theorem length_payloadRows_le : (payloadRows rows).length ≤ rows.length := by
  rw [payloadRows,length_map,length_insertionSort]
  exact (dedup_sublist _).length_le.trans ((length_map _).trans_le (length_filter_le _ _))

/-- The pages together name every path with payload once, in order, with its newest payload row, whatever their size. -/
theorem pages_list_once (rows : List FilesRow) (limit spare : ℕ) :
    (extractAll rows false (limit + 1) (rows.length + 1 + spare) none).Pairwise (fun p q => p.fullpath < q.fullpath) ∧
      ∀ p, p ∈ extractAll rows false (limit + 1) (rows.length + 1 + spare) none ↔
        (∃ r ∈ rows, r.selected = true ∧ r.fullpath = p.fullpath ∧ r.version = p.offsetheader) ∧
          ∀ r ∈ rows, r.selected = true → r.fullpath = p.fullpath → r.version ≤ p.offsetheader := by
  have hlen := @length_payloadRows_le rows
  rw [extractAll_eq_payloadRows (Nat.succ_ne_zero limit) (by omega)]
  refine ⟨payloadRows_sorted,fun p => ?_⟩
  rw [mem_payloadRows]
  constructor
  · rintro ⟨⟨r,hr,hsel,hpath⟩,hversion⟩
    have hspec := newestSelected_spec hr hsel
    rw [hpath,← hversion] at hspec
    exact hspec
  · rintro ⟨⟨r,hr,hsel,hpath,hversion⟩,hle⟩
    obtain ⟨⟨s,hs,hssel,hspath,hsversion⟩,hmax⟩ := newestSelected_spec hr hsel
    rw [hpath] at hspath hsversion hmax
    refine ⟨⟨r,hr,hsel,hpath⟩,le_antisymm ?_ ?_⟩
    · exact hversion ▸ hmax r hr hsel hpath
    · exact hsversion ▸ hle s hs hssel hspath

end Ratarmount.Catalog
