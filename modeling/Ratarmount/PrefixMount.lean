import Ratarmount.MountSource

/-!
# A source below a prefix

`PrefixMountSource`: the prefix is a chain of directories down to the root of the
inner source. Lookups and listings are relocated, the hits of a search are not.
-/

namespace Ratarmount.Prefixed

open Mount List

structure SearchHit (κ : Type) where
  path : Path
  rest : κ

/-- A source that can be searched. An `fts:` pattern is for SQL only. -/
structure Searchable (ι κ : Type) extends MountSource ι where
  searchCheap : Str → Option (List (SearchHit κ))
  no_fts : ∀ pattern, "fts:".toList <+: pattern → searchCheap pattern = none

structure PrefixMountSource (ι κ : Type) where
  prefixPath : Path
  inner : Searchable ι κ

variable {ι κ : Type}

def new (prefixPath : Str) (inner : Searchable ι κ) : PrefixMountSource ι κ := ⟨components prefixPath,inner⟩

variable (m : PrefixMountSource ι κ) (root dir : FileInfo ι)

def nextComponent (path : Path) : Option Str :=
  if path <+: m.prefixPath then (m.prefixPath.drop path.length).head? else none

def strip (path : Path) : Option Path :=
  if m.prefixPath <+: path then some (path.drop m.prefixPath.length) else none

def list (path : Path) : Option (ListResult ι) :=
  if m.prefixPath = [] then m.inner.list path
  else
    match nextComponent m path with
    | some name => some (.infos [(name,root)])
    | none => (strip m path).bind m.inner.list

def listDirents (path : Path) : Option (List (Str × ℕ)) :=
  if m.prefixPath = [] then (m.inner.listDirents path).map fun ds => ds.map fun d => (d.name,d.mode)
  else
    match nextComponent m path with
    | some name => some [(name,dir.mode)]
    | none => (strip m path).bind fun x => (m.inner.listDirents x).map fun ds => ds.map fun d => (d.name,d.mode)

def searchCheap (pattern : Str) : Option (List (SearchHit κ)) :=
  if "fts:".toList <+: pattern then none else m.inner.searchCheap pattern

def lookup (path : Path) (fileVersion : ℤ) : Option (FileInfo ι) :=
  if path = [] then some root
  else if m.prefixPath = [] then m.inner.lookup path fileVersion
  else if path = m.prefixPath ∨ (nextComponent m path).isSome then some dir
  else (strip m path).bind fun x => m.inner.lookup x fileVersion

def versions (path : Path) : ℕ :=
  if (nextComponent m path).isSome then 1
  else
    match strip m path with
    | some x => m.inner.versions x
    | none => 0

variable {m root dir} {P x q : Path} {name : Str}

theorem strip_below (x : Path) : strip m (m.prefixPath++x)=some x := by
  rw [strip,if_pos (prefix_append _ _),drop_left]

theorem nextComponent_below (x : Path) : nextComponent m (m.prefixPath++x)=none := by
  rw [nextComponent]
  split_ifs with h
  · rw [drop_of_length_le (by simp)]
    rfl
  · rfl

theorem nextComponent_above (h : m.prefixPath=q++name::x) : nextComponent m q=some name := by
  rw [nextComponent,h,if_pos (prefix_append _ _),drop_left]
  rfl

/-- A path on neither side of the prefix leads nowhere. -/
theorem elsewhere (h : ¬m.prefixPath <+: q) (h' : ¬q <+: m.prefixPath) : nextComponent m q=none ∧ strip m q=none :=
  ⟨if_neg h',if_neg h⟩

/-- Where a hit of the inner source belongs. -/
def SearchHit.relocate (P : Path) (h : SearchHit κ) : SearchHit κ := { h with path := P ++ h.path }

/-- The mount shows the inner source below the prefix, the prefix as a chain of directories, and nothing else. -/
structure Relocates (m : PrefixMountSource ι κ) (root dir : FileInfo ι) : Prop where
  lookup : ∀ x k, x ≠ [] → lookup m root dir (m.prefixPath ++ x) k = m.inner.lookup x k
  list : ∀ x, list m root (m.prefixPath ++ x) = m.inner.list x
  listDirents : ∀ x, listDirents m dir (m.prefixPath ++ x) =
    (m.inner.listDirents x).map fun ds => ds.map fun d => (d.name,d.mode)
  versions : ∀ x, versions m (m.prefixPath ++ x) = m.inner.versions x
  ancestors : ∀ q name x, m.prefixPath = q ++ name :: x → (∀ k, ∃ fi, Prefixed.lookup m root dir q k = some fi ∧ isDirMode fi.mode = true) ∧
    Prefixed.list m root q = some (.infos [(name,root)]) ∧ Prefixed.listDirents m dir q = some [(name,dir.mode)] ∧
      Prefixed.versions m q = 1
  absent : ∀ q, ¬m.prefixPath <+: q → ¬q <+: m.prefixPath → (∀ k, Prefixed.lookup m root dir q k = none) ∧
    Prefixed.list m root q = none ∧ Prefixed.listDirents m dir q = none ∧ Prefixed.versions m q = 0

/-- The hits of a search are those of the inner source below the prefix, and are found there if the inner source finds its own. -/
structure RelocatesHits (m : PrefixMountSource ι κ) (root dir : FileInfo ι) : Prop where
  search : ∀ pattern, searchCheap m pattern = (m.inner.searchCheap pattern).map fun hits => hits.map (·.relocate m.prefixPath)
  found : (∀ pattern hits, m.inner.searchCheap pattern = some hits → ∀ h ∈ hits, (m.inner.lookup h.path 0).isSome) →
    ∀ pattern hits, searchCheap m pattern = some hits → ∀ h ∈ hits, (Prefixed.lookup m root dir h.path 0).isSome

theorem searchCheap_eq (pattern : Str) : searchCheap m pattern=m.inner.searchCheap pattern := by
  rw [searchCheap]
  split_ifs with h
  · exact (m.inner.no_fts pattern h).symm
  · rfl

theorem relocates_of_dirs (m : PrefixMountSource ι κ) (hroot : isDirMode root.mode=true) (hdir : isDirMode dir.mode=true) :
    Relocates m root dir := by
  have hne : ∀x : Path,x≠[] → m.prefixPath++x≠[]:=fun x hx e => hx (List.append_eq_nil_iff.mp e).2
  refine ⟨?_,?_,?_,?_,?_,?_⟩
  · intro x k hx
    rw [lookup,if_neg (hne x hx)]
    by_cases hP : m.prefixPath = []
    · rw [if_pos hP,hP,nil_append]
    · rw [if_neg hP,if_neg (by simp [nextComponent_below,hx]),strip_below]
      rfl
  · intro x
    rw [list,nextComponent_below,strip_below]
    split_ifs with hP
    · rw [hP,nil_append]
    · rfl
  · intro x
    rw [listDirents,nextComponent_below,strip_below]
    split_ifs with hP
    · rw [hP,nil_append]
    · rfl
  · intro x
    rw [versions,nextComponent_below,strip_below]
    rfl
  · intro q name x hP
    have hnext := nextComponent_above hP
    have hPne : m.prefixPath ≠ [] := by simp [hP]
    refine ⟨fun k => ?_,?_,?_,?_⟩
    · rw [lookup,if_pos (.inr (by simp [hnext]) : q = m.prefixPath ∨ (nextComponent m q).isSome = true)]
      split_ifs
      · exact ⟨root,rfl,hroot⟩
      · exact ⟨dir,rfl,hdir⟩
    · rw [list,if_neg hPne,hnext]
    · rw [listDirents,if_neg hPne,hnext]
    · rw [versions,hnext]
      rfl
  · intro q hq hq'
    obtain ⟨hnext,hstrip⟩ := elsewhere hq hq'
    have hPne : m.prefixPath ≠ [] := fun e => hq (e ▸ nil_prefix)
    have hqne : q ≠ [] := fun e => hq' (e ▸ nil_prefix)
    have hqP : q ≠ m.prefixPath := fun e => hq (e ▸ prefix_rfl)
    refine ⟨fun k => ?_,?_,?_,?_⟩
    · rw [lookup,if_neg hqne,if_neg hPne,if_neg (by simp [hqP,hnext]),hstrip]
      rfl
    · rw [list,if_neg hPne,hnext,hstrip]
      rfl
    · rw [listDirents,if_neg hPne,hnext,hstrip]
      rfl
    · rw [versions,hnext,hstrip]
      rfl

theorem relocatesHits_iff (m : PrefixMountSource ι κ) : RelocatesHits m root dir ↔
    m.prefixPath=[] ∨ ∀pattern hits,m.inner.searchCheap pattern=some hits → hits=[] := by
  constructor
  · intro h
    by_cases hP : m.prefixPath=[]
    · exact .inl hP
    right
    intro pattern hits hhits
    have hs:=h.search pattern
    rw [searchCheap_eq,hhits] at hs
    cases hits with
    | nil => rfl
    | cons hit hits =>
      -- a hit is no longer at its own path once it is moved down
      have hpath:=congrArg (fun l => (l.map SearchHit.path).headD []) (Option.some.inj hs)
      exact absurd (List.self_eq_append_left.mp hpath) hP
  · intro h
    have hsearch : ∀pattern hits,m.inner.searchCheap pattern=some hits → ∀hit∈hits,m.prefixPath=[] := by
      intro pattern hits hhits hit hmem
      rcases h with h | h
      · exact h
      · rw [h pattern hits hhits] at hmem
        cases hmem
    refine ⟨?_,?_⟩
    · intro pattern
      rw [searchCheap_eq]
      cases hhits : m.inner.searchCheap pattern with
      | none => rfl
      | some hits =>
        have hsame : hits.map (·.relocate m.prefixPath) = hits.map id :=
          map_congr_left fun hit hmem => by rw [SearchHit.relocate,hsearch pattern hits hhits hit hmem]; rfl
        rw [Option.map_some,hsame,map_id]
    · intro hall pattern hits hhits hit hmem
      rw [searchCheap_eq] at hhits
      have hP := hsearch pattern hits hhits hit hmem
      rw [lookup]
      split_ifs
      · rfl
      · exact hall pattern hits hhits hit hmem

def dirInfo : FileInfo Unit := ⟨0o40755,[],()⟩

def oneFile : Searchable Unit Unit where
  lookup p _ := if p = ["f".toList] then some ⟨0o100644,[],()⟩ else none
  versions p := if p = ["f".toList] then 1 else 0
  list p := if p = [] then some (.names ["f".toList]) else none
  listDirents p := if p = [] then some [⟨"f".toList,0o100644,by decide⟩] else none
  isImmutable := true
  searchCheap pattern := if "fts:".toList <+: pattern then none else some [⟨["f".toList],()⟩]
  no_fts pattern h := if_pos h

end Ratarmount.Prefixed
