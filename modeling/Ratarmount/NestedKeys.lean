import Ratarmount.TarPax

/-!
# Storage keys of nested indexes

The index of a nested archive is cached under a text made of the member's path,
header offset and size. A suffix patch reads the header offset back from that
text to find the cached indexes that it has to drop.
-/

namespace Ratarmount.Nested

open List Numeral
open scoped Str

structure NestedMemberKey where
  memberPath : Str
  offsetheader : Option Int64
  bodySize : UInt64
  deriving DecidableEq

def intText (n : Int64) : Str :=
  if n.toInt < 0 then '-' :: Numeral.text 10 n.toInt.natAbs else Numeral.text 10 n.toInt.natAbs

/-- `parse::<i64>`: behind a minus there is no second sign. -/
def parseI64 : Str → Option Int64
  | '-' :: s =>
    if s.head? = some '+' then none
    else (Numeral.parse 10 (2 ^ 63 + 1) s).map (fun n : ℕ => Int64.ofInt (-n))
  | s => (Numeral.parse 10 (2 ^ 63) s).map (fun n : ℕ => Int64.ofInt n)

def NestedMemberKey.storageKey (k : NestedMemberKey) : Str :=
  match k.offsetheader with
  | some oh => k.memberPath ++ "|oh=".toList ++ intText oh ++ "|sz=".toList ++ Numeral.text 10 k.bodySize.toNat
  | none => k.memberPath ++ "|sz=".toList ++ Numeral.text 10 k.bodySize.toNat

def ohOfPart (part : Str) : Option Int64 := (Tar.stripped "oh=".toList part).bind parseI64

/-- The header offset in the first part between bars that has one. -/
def parseOhFromNestedStorageKey (memberKey : Str) : Option Int64 := (memberKey.splitOn '|').findSome? ohOfPart

/-- `offsetheader IS NOT NULL AND offsetheader >= window_start`. -/
def inSuffix (windowStart : Int64) (oh : Option Int64) : Bool := oh.any (fun n => windowStart ≤ n)

/-- The tables of an index that a patch touches; of the catalog's rows, their headers. -/
structure Index (β : Type) where
  readOnly : Bool
  compactOnly : Bool
  files : List (Option Int64)
  xattrsdata : List (Option Int64)
  fileunions : List (Option Int64)
  nestedindexes : List (Str × β)

variable {β : Type}

def deleteNestedindexesSuffix (rows : List (Str × β)) (windowStart : Int64) : List (Str × β) :=
  let toDelete := (rows.map Prod.fst).filter (fun key => inSuffix windowStart (parseOhFromNestedStorageKey key))
  rows.filter (fun row => row.1 ∉ toDelete)

def Index.deleteFromOffsetheader (idx : Index β) (windowStart : Int64) : Except String (ℕ × Index β) :=
  if idx.readOnly then .error "index is read-only"
  else if idx.compactOnly then .ok (0,idx)
  else
    let kept := List.filter (fun oh => !inSuffix windowStart oh)
    .ok (idx.files.countP (inSuffix windowStart),
      { idx with files := kept idx.files, xattrsdata := kept idx.xattrsdata, fileunions := kept idx.fileunions,
                 nestedindexes := deleteNestedindexesSuffix idx.nestedindexes windowStart })

def Index.cached (idx : Index β) (k : NestedMemberKey) : Option β :=
  (idx.nestedindexes.find? (fun row => row.1 = k.storageKey)).map Prod.snd

/-- The storage keys of `members` tell them apart, their headers included. -/
structure KeysIdentify (β : Type) (members : Set NestedMemberKey) : Prop where
  injective : Set.InjOn NestedMemberKey.storageKey members
  header : ∀ k ∈ members, parseOhFromNestedStorageKey k.storageKey = k.offsetheader
  dropped : ∀ k ∈ members, ∀ (idx patched : Index β) (windowStart : Int64) (n : ℕ), idx.compactOnly = false →
    idx.deleteFromOffsetheader windowStart = .ok (n,patched) →
    patched.cached k = if inSuffix windowStart k.offsetheader then none else idx.cached k

/-! ## Reading a key back -/

theorem parse_natText {n bound : ℕ} (h : n<bound) : Numeral.parse 10 bound (Numeral.text 10 n)=some n :=
  parse_text (by decide) (by decide) 0 h

theorem head_natText (n : ℕ) {c : Char} (hc : c.toNat<48) : (Numeral.text 10 n).head?≠some c := by
  intro h
  have hmem:=mem_text (by decide) (by decide) (mem_of_head? h)
  omega

theorem parseI64_intText (n : Int64) : parseI64 (intText n)=some n := by
  have hlo:=Int64.le_toInt n
  have hhi:=Int64.toInt_lt n
  rw [intText]
  split_ifs with hneg
  · have habs : -(n.toInt.natAbs : ℤ)=n.toInt := by omega
    rw [parseI64,if_neg (head_natText _ (by decide)),parse_natText (by omega),Option.map_some,habs,
      Int64.ofInt_toInt]
  · have habs : (n.toInt.natAbs : ℤ)=n.toInt := by omega
    rw [parseI64,parse_natText (by omega),Option.map_some,habs,Int64.ofInt_toInt]
    intro s hs
    exact head_natText (c := '-') n.toInt.natAbs (by decide) (by rw [hs]; rfl)

theorem bar_not_mem_natText (n : ℕ) : '|' ∉ Numeral.text 10 n := by
  intro h
  have hmem:=mem_text (by decide) (by decide) h
  revert hmem
  decide

theorem bar_not_mem_intText (n : Int64) : '|' ∉ intText n := by
  rw [intText]
  split_ifs <;> simp [bar_not_mem_natText]

theorem splitOn_append_bar {pre : Str} (path : Str) (h : '|' ∉ pre) :
    (path ++ '|' :: pre).splitOn '|' = path.splitOn '|' ++ [pre] := by
  have hone : pre.splitOn '|' = [pre] := by
    apply splitOnP_eq_singleton
    intro c hc
    simpa using fun e : c = '|' => h (e ▸ hc)
  rw [←hone]
  exact splitOnP_append_cons path pre (by simp)

def ohParts (oh : Option Int64) : List Str := oh.toList.map (fun n => "oh=".toList ++ intText n)

theorem splitOn_storageKey (k : NestedMemberKey) : k.storageKey.splitOn '|' =
    k.memberPath.splitOn '|' ++ ohParts k.offsetheader++["sz=".toList++Numeral.text 10 k.bodySize.toNat] := by
  have hsz : '|' ∉ "sz=".toList++Numeral.text 10 k.bodySize.toNat := by simp [bar_not_mem_natText]
  cases hoh : k.offsetheader with
  | none =>
    have hkey : k.storageKey=k.memberPath ++ '|' :: ("sz=".toList++Numeral.text 10 k.bodySize.toNat) := by
      simp [NestedMemberKey.storageKey,hoh]
    rw [hkey,splitOn_append_bar _ hsz]
    simp [ohParts]
  | some n =>
    have htag : '|' ∉ "oh=".toList++intText n := by simp [bar_not_mem_intText]
    have hkey : k.storageKey=(k.memberPath ++ '|' :: ("oh=".toList++intText n)) ++
        '|' :: ("sz=".toList++Numeral.text 10 k.bodySize.toNat) := by
      simp [NestedMemberKey.storageKey,hoh]
    rw [hkey,splitOn_append_bar _ hsz,splitOn_append_bar _ htag]
    rfl

theorem ohOfPart_tag (n : Int64) : ohOfPart ("oh=".toList++intText n)=some n := by
  rw [ohOfPart,Tar.stripped,if_pos (prefix_append _ _),drop_left]
  exact parseI64_intText n

/-- A header that the path itself spells is found before the member's own. -/
theorem parseOh_storageKey (k : NestedMemberKey) : parseOhFromNestedStorageKey k.storageKey =
    (parseOhFromNestedStorageKey k.memberPath).or k.offsetheader := by
  have hsz : ohOfPart ("sz=".toList++Numeral.text 10 k.bodySize.toNat)=none := by
    simp [ohOfPart,Tar.stripped]
  have hown : (ohParts k.offsetheader).findSome? ohOfPart=k.offsetheader := by
    cases k.offsetheader with
    | none => rfl
    | some n => rw [ohParts,Option.toList_some,map_singleton,findSome?_singleton,ohOfPart_tag]
  rw [parseOhFromNestedStorageKey,splitOn_storageKey,findSome?_append,findSome?_append,hown,
    findSome?_singleton,hsz,Option.or_none]
  rfl

/-- Keys with the same header and the same text are of the same member. -/
theorem eq_of_storageKey_eq {k k' : NestedMemberKey} (h : k.storageKey=k'.storageKey)
    (hoh : k.offsetheader=k'.offsetheader) : k=k' := by
  have hparts:=congrArg (List.splitOn '|') h
  rw [splitOn_storageKey,splitOn_storageKey] at hparts
  have hsz:=congrArg (Numeral.parse 10 (2^64)) (append_cancel_left
    (List.singleton_inj.mp (append_inj_right' hparts rfl)))
  rw [parse_natText (UInt64.toNat_lt _),parse_natText (UInt64.toNat_lt _),Option.some_inj] at hsz
  have hpath : k.memberPath=k'.memberPath := by
    rw [NestedMemberKey.storageKey,NestedMemberKey.storageKey,hoh,hsz] at h
    cases hoh' : k'.offsetheader <;> simpa [hoh'] using h
  cases k
  cases k'
  simp_all [UInt64.toNat_inj]

theorem deleteNestedindexesSuffix_eq (rows : List (Str × β)) (windowStart : Int64) :
    deleteNestedindexesSuffix rows windowStart =
      rows.filter (fun row => !inSuffix windowStart (parseOhFromNestedStorageKey row.1)) := by
  apply filter_congr
  intro row hrow
  have hkey : row.1∈rows.map Prod.fst:=mem_map_of_mem hrow
  simp [hkey]

theorem cached_deleteFromOffsetheader {idx patched : Index β} {windowStart : Int64} {n : ℕ}
    (hfull : idx.compactOnly=false) (h : idx.deleteFromOffsetheader windowStart = .ok (n,patched))
    (k : NestedMemberKey) : patched.cached k =
      if inSuffix windowStart (parseOhFromNestedStorageKey k.storageKey) then none else idx.cached k := by
  have hrows : patched.nestedindexes=deleteNestedindexesSuffix idx.nestedindexes windowStart := by
    rw [Index.deleteFromOffsetheader,hfull] at h
    split_ifs at h
    · contradiction
    · cases h
      rfl
  rw [Index.cached,hrows,deleteNestedindexesSuffix_eq,find?_filter]
  split_ifs with hin
  · rw [Option.map_eq_none_iff,find?_eq_none]
    intro row _
    by_cases hkey : row.1=k.storageKey <;> simp_all
  · congr 2
    funext row
    by_cases hkey : row.1=k.storageKey <;> simp_all

/-- The keys of a catalog identify its members unless some path spells a header that is not the member's. -/
theorem keys_identify_iff (members : Set NestedMemberKey) : KeysIdentify β members ↔
    ∀ k ∈ members, ∀ n, parseOhFromNestedStorageKey k.memberPath = some n → k.offsetheader = some n := by
  constructor
  · intro h k hk n hn
    rw [← h.header k hk,parseOh_storageKey,hn]
    rfl
  · intro h
    have hheader : ∀ k ∈ members, parseOhFromNestedStorageKey k.storageKey = k.offsetheader := by
      intro k hk
      rw [parseOh_storageKey]
      cases hn : parseOhFromNestedStorageKey k.memberPath with
      | none => rfl
      | some n => exact (h k hk n hn).symm
    refine ⟨fun k hk k' hk' heq => eq_of_storageKey_eq heq ?_,hheader,?_⟩
    · rw [← hheader k hk,← hheader k' hk',heq]
    · intro k hk idx patched windowStart n hfull hdel
      rw [cached_deleteFromOffsetheader hfull hdel,hheader k hk]

/-- A path that ends like a tag takes the key of another member, and its cached index is dropped although it
has no header. -/
theorem tagged_path_collides :
    (⟨"a|oh=5".toList,none,3⟩ : NestedMemberKey).storageKey = (⟨"a".toList,some 5,3⟩ : NestedMemberKey).storageKey ∧
      parseOhFromNestedStorageKey (⟨"a|oh=5".toList,none,3⟩ : NestedMemberKey).storageKey = some 5 ∧
      ¬ KeysIdentify Unit Set.univ := by
  refine ⟨by decide +kernel,by decide +kernel,fun h => ?_⟩
  exact absurd (h.header ⟨"a|oh=5".toList,none,3⟩ trivial) (by decide +kernel)

end Ratarmount.Nested
