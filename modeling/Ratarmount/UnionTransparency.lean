import Mathlib.Algebra.Order.BigOperators.Group.List
import Ratarmount.UnionFolderCache

/-!
# When the folder cache is transparent

A union asks the sources that the cache names. That changes no lookup as long as
the sources left out do not have the path: it does where one source has a folder
and another has a file of the same path.
-/

namespace Ratarmount.Union

open Mount FolderCache List Option

variable {ι : Type}

/-- `p ++ [name]` is listed as a directory; a listing without modes leaves that to `lookup`. -/
def ListedDir (s : MountSource ι) (p : Path) (name : Str) : Prop :=
  ∃ dents, s.listDirents p = some dents ∧ ∃ d ∈ dents, d.name = name ∧
    (isDirMode d.mode = true ∨ (d.mode = 0 ∧ ∃ fi, s.lookup (p ++ [name]) 0 = some fi ∧ isDirMode fi.mode = true))

/-- A source whose entries form a tree. -/
structure IsTree (s : MountSource ι) : Prop where
  present : ∀ p v, 1 ≤ v → v ≤ (s.versions p : ℤ) → (s.lookup p v).isSome = true
  absent : ∀ p v, s.versions p = 0 → s.lookup p v = none
  ancestors : ∀ p name q, q ≠ [] → s.versions (p ++ name :: q) ≠ 0 → ListedDir s p name

theorem IsTree.folder {s : MountSource ι} (h : IsTree s) (rs : Bool) {p q : Path} (hq : q≠[])
    (hex : s.versions (p++q)≠0) : Folder s rs p := by
  induction p using List.reverseRecOn generalizing q with
  | nil => exact .root
  | append_singleton p name ih =>
    rw [append_assoc] at hex
    have hp:=ih (cons_ne_nil name q) hex
    obtain ⟨dents,hlist,d,hd,rfl,hmode⟩:=h.ancestors p name q hq hex
    have hl : listDirentsFromSource s p rs=some dents := by
      rw [listDirentsFromSource,followSymlinkThen,hlist]
    apply hp.child hl hd
    rw [folderCacheShouldIncludeChild]
    rcases hmode with hdir | ⟨h0,fi,hfi,hdir⟩
    · rw [if_pos hdir]
    · rw [h0,hfi]
      exact if_pos hdir

section Walks

variable {sources : List (MountSource ι)} {rs : Bool} {path : Path}

theorem wrap32_wrap32 (n : ℤ) : wrap32 (wrap32 n)=wrap32 n := by
  simp only [wrap32]
  omega

theorem wrap32_of_lt {n : ℤ} (h1 : -2^31≤n) (h2 : n<2^31) : wrap32 n=n := by
  simp only [wrap32]
  omega

/-- The sources that `keep` leaves out do not have `path`. -/
def Skippable (sources : List (MountSource ι)) (path : Path) (keep : ℕ → Bool) : Prop :=
  ∀ i s, sources[i]? = some s → keep i = false → s.versions path = 0 ∧ ∀ v, s.lookup path v = none

variable {keep : ℕ → Bool} {ver : ℤ}

theorem pickNewest_filter (hk : Skippable sources path keep) (idxs : List ℕ)
    (any : Option (ℕ × MountSource ι × FileInfo ι)) :
    pickNewest sources path (idxs.filter keep) any=pickNewest sources path idxs any := by
  induction idxs generalizing any with
  | nil => rfl
  | cons i idxs ih =>
    cases hi : keep i with
    | true =>
      rw [filter_cons_of_pos hi,pickNewest,pickNewest]
      simp [ih]
    | false =>
      rw [filter_cons_of_neg (by simp [hi]),ih,pickNewest]
      cases hs : sources[i]? with
      | none => rfl
      | some s => simp only [(hk i s hs hi).2]

/-- A walk that counts the versions of the sources it passes, up or down. -/
theorem walk_filter {walk : List ℕ → ℤ → Option (Hit ι)} (next : ℕ → ℤ → ℤ) (stop : ℤ → Prop) [DecidablePred stop]
    (hcons : ∀i idxs ver,walk (i::idxs) ver=match sources[i]? with
      | none => walk idxs ver
      | some src => match src.lookup path ver with
        | some fi => tagged rs path i src fi
        | none => if stop (next (src.versions path) ver) then none else walk idxs (next (src.versions path) ver))
    (hnext : ∀n ver,wrap32 (next n ver)=next n ver) (hzero : ∀ver,wrap32 ver=ver → next 0 ver=ver)
    (hk : Skippable sources path keep) (idxs : List ℕ) (hver : wrap32 ver=ver) (hgo : ¬stop ver) :
    walk (idxs.filter keep) ver=walk idxs ver := by
  induction idxs generalizing ver with
  | nil => rfl
  | cons i idxs ih =>
    cases hi : keep i with
    | true =>
      rw [filter_cons_of_pos hi,hcons,hcons]
      cases sources[i]? with
      | none => exact ih hver hgo
      | some s =>
        dsimp only
        cases s.lookup path ver with
        | some fi => rfl
        | none =>
          split_ifs with hstop
          · rfl
          · exact ih (hnext _ _) hstop
    | false =>
      rw [filter_cons_of_neg (by simp [hi]),ih hver hgo,hcons]
      cases hs : sources[i]? with
      | none => rfl
      | some s =>
        obtain ⟨hn,hl⟩:=hk i s hs hi
        simp [hl,hn,hzero ver hver,hgo]

theorem lookupIn_filter (hk : Skippable sources path keep) (idxs : List ℕ) {v : ℤ} (hv : wrap32 v=v) : lookupIn sources rs path (idxs.filter keep) v=lookupIn sources rs path idxs v := by
  rw [lookupIn,lookupIn]
  split_ifs with h0 hneg
  · rw [lookupNewest,lookupNewest,←filter_reverse,pickNewest_filter hk]
  · rw [←filter_reverse]
    exact walk_filter (fun n v => wrap32 (v+n)) (0<·) (fun _ _ _ => rfl) (fun _ _ => wrap32_wrap32 _) (by simp) hk _ hv hneg.not_gt
  · exact walk_filter (fun n v => wrap32 (v-n)) (·<1) (fun _ _ _ => rfl) (fun _ _ => wrap32_wrap32 _) (by simp) hk _ hv (by omega)

def total (sources : List (MountSource ι)) (path : Path) (idxs : List ℕ) : ℕ :=
  (idxs.map (fun i => (sources[i]?.map (fun s => s.versions path)).getD 0)).sum

theorem total_range (sources : List (MountSource ι)) (path : Path) :
    total sources path (List.range sources.length)=(sources.map (fun s => s.versions path)).sum := by
  rw [total]
  congr 1
  apply ext_getElem
  · simp
  · intro i h1 h2
    have hi : i<sources.length := by simpa using h1
    simp [getElem?_eq_getElem hi]

/-- A positive version within the total is found, if the entries on the way resolve. -/
theorem walkPositive_isSome (htree : ∀s∈sources,IsTree s)
    (hres : ∀s∈sources,∀v fi,1≤v → s.lookup path v=some fi→(maybeResolveWinner s path fi rs).isSome=true)
    (idxs : List ℕ) (h1 : 1≤ver) (hle : ver≤total sources path idxs) (hlt : ver<2^31) :
    (walkPositive sources rs path idxs ver).isSome=true := by
  induction idxs generalizing ver with
  | nil =>
    simp [total] at hle
    omega
  | cons i idxs ih =>
    rw [walkPositive]
    cases hs : sources[i]? with
    | none =>
      apply ih h1 _ hlt
      simpa [total,hs] using hle
    | some s =>
      have hmem:=mem_of_getElem? hs
      dsimp only
      cases hl : s.lookup path ver with
      | some fi =>
        dsimp only
        rw [tagged,isSome_map]
        exact hres s hmem ver fi h1 hl
      | none =>
        have hgt : (s.versions path : ℤ)<ver := by
          by_contra hcon
          have := (htree s hmem).present path ver h1 (not_lt.mp hcon)
          simp [hl] at this
        have htot : ver ≤ s.versions path+total sources path idxs := by simpa [total,hs] using hle
        have hw : wrap32 (ver-s.versions path)=ver-s.versions path:=wrap32_of_lt (by omega) (by omega)
        rw [if_neg (by omega)]
        exact ih (by omega) (by omega) (by omega)

/-- Sources with no entry beyond their version count, and counts that an `i32` holds. -/
structure Exact (sources : List (MountSource ι)) : Prop where
  beyond : ∀ s ∈ sources, ∀ p v, (s.versions p : ℤ) < v → s.lookup p v = none
  small : ∀ p, (sources.map (fun s => s.versions p)).sum < 2 ^ 31

/-- With exact sources a walk over `pre` leaves what exceeds its versions to the rest. -/
theorem walkPositive_append (hex : Exact sources) (pre post : List ℕ) {ver : ℤ} (h1 : 1≤ver)
    (hlt : ver+total sources path pre<2^31) :
    walkPositive sources rs path (pre++post) (ver+total sources path pre)=walkPositive sources rs path post ver := by
  induction pre with
  | nil => simp [total]
  | cons i pre ih =>
    rw [cons_append,walkPositive]
    cases hs : sources[i]? with
    | none =>
      have heq : total sources path (i::pre)=total sources path pre := by simp [total,hs]
      rw [heq] at hlt ⊢
      exact ih hlt
    | some s =>
      have heq : total sources path (i::pre)=s.versions path+total sources path pre := by simp [total,hs]
      rw [heq,Nat.cast_add] at hlt ⊢
      have hnone:=hex.beyond s (mem_of_getElem? hs) path
        (ver+(s.versions path+total sources path pre)) (by omega)
      have hw : wrap32 (ver+(s.versions path+total sources path pre)-s.versions path) =
          ver+total sources path pre := by
        rw [wrap32_of_lt (by omega) (by omega)]
        ring
      simp only [hnone,hw]
      rw [if_neg (by omega)]
      exact ih (by omega)

end Walks

section Transparency

variable (sources : List (MountSource ι)) (rs : Bool)

/-- No limit of the cache changes a lookup. -/
def Transparent : Prop :=
  ∀ sched maxCacheDepth maxCacheEntries root path v, wrap32 v = v →
    lookup (newWithOptions sources rs sched maxCacheDepth maxCacheEntries) root path v =
      lookup (withoutCache sources rs) root path v

/-- Every version that is counted is there. -/
def AllPresent : Prop :=
  ∀ sched maxCacheDepth maxCacheEntries root path k, wrap32 k = k → 1 ≤ k →
    k ≤ versions (newWithOptions sources rs sched maxCacheDepth maxCacheEntries) path →
      (lookup (newWithOptions sources rs sched maxCacheDepth maxCacheEntries) root path k).isSome = true

/-- What is a folder in one source is a folder in each immutable source that has it. -/
def NoClash : Prop :=
  ∀ path i, Holder sources rs i (components path) → ∀ s ∈ sources, s.isImmutable = true →
    s.versions (components path) ≠ 0 → Folder s rs (components path)

/-- No link that the union resolves dangles or loops. -/
def Resolvable : Prop :=
  ∀ s ∈ sources, ∀ path v fi, components path ≠ [] → 1 ≤ v → s.lookup (components path) v = some fi →
    (maybeResolveWinner s (components path) fi rs).isSome = true

variable {sources rs}

/-- A source that the cache leaves out does not have the path, unless there is a clash. -/
theorem skippable_consults (htree : ∀s∈sources,IsTree s) (hno : NoClash sources rs) {c : Cache}
    (hc : Exactly sources rs (·≤c.depth) c.folders) {path : Str} (hpath : components path≠[]) :
    Skippable sources (components path) (consults { sources, cache := c, resolveSymlinks := rs } (components path)) := by
  intro i s hs hskip
  have hmem:=mem_of_getElem? hs
  suffices hv : s.versions (components path)=0 from ⟨hv,fun v => (htree s hmem).absent _ v hv⟩
  by_contra hex
  simp only [consults,hs,map_some,getD_some,Bool.or_eq_false_iff,Bool.not_eq_eq_eq_not,Bool.not_false] at hskip
  obtain ⟨him,hskip⟩:=hskip
  cases hcache : cachedFor { sources, cache := c, resolveSymlinks := rs } (components path) with
  | none => simp [hcache] at hskip
  | some l =>
    have hi : i∉l := by simpa [hcache] using hskip
    rcases or_eq_some_iff.mp hcache with hget | ⟨-,hpar⟩
    · have hkey:=mem_map_of_mem (f:=Prod.fst) (mem_of_get hget)
      obtain ⟨hd,hroot | ⟨j,hj⟩⟩:=hc.key _ hkey
      · exact hpath hroot
      · have hf:=hno path j hj s hmem him hex
        exact hi ((mem_get_iff hc.nodup hget i).mpr ((hc.has _ i).mpr ⟨hd,s,hs,him,hf⟩))
    · split_ifs at hpar with hdepth
      have hlen:=length_pos_iff.mpr hpath
      have hf : Folder s rs (parentAtDepth (components path) c.depth) := by
        apply (htree s hmem).folder rs (q := (components path).drop (min c.depth ((components path).length-1)))
        · rw [Ne,drop_eq_nil_iff]
          omega
        · rwa [parentAtDepth,take_append_drop]
      have hd : (parentAtDepth (components path) c.depth).length ≤ c.depth := by
        rw [parentAtDepth,length_take]
        omega
      exact hi ((mem_get_iff hc.nodup hpar i).mpr ((hc.has _ i).mpr ⟨hd,s,hs,him,hf⟩))

theorem lookup_withoutCache (root : FileInfo ι) (path : Str) (v : ℤ) :
    lookup (withoutCache sources rs) root path v=if components path=[] then some { source := none, info := root }
      else lookupIn sources rs (components path) (List.range sources.length) v := by
  rw [lookup,sourcesForPath]
  simp [withoutCache]

theorem transparent_of_noClash (htree : ∀s∈sources,IsTree s) (hno : NoClash sources rs) : Transparent sources rs := by
  intro sched maxCacheDepth maxCacheEntries root path v hv
  rw [newWithOptions]
  split_ifs with hlen
  · rw [lookup_withoutCache,lookup]
    split_ifs with hpath
    · rfl
    · rw [sourcesForPath]
      dsimp only
      split_ifs with hall hout
      · rfl
      · rfl
      · exact lookupIn_filter (skippable_consults htree hno (buildFolderCache_exactly sched _ _) hpath) _ hv
  · rfl

theorem newWithOptions_sources (sched : Schedule) (maxCacheDepth maxCacheEntries : ℕ) :
    (newWithOptions sources rs sched maxCacheDepth maxCacheEntries).sources=sources := by
  rw [newWithOptions]
  split_ifs <;> rfl

theorem allPresent_of_noClash (htree : ∀s∈sources,IsTree s) (hno : NoClash sources rs)
    (hres : Resolvable sources rs) : AllPresent sources rs := by
  intro sched maxCacheDepth maxCacheEntries root path k hk h1 hle
  rw [transparent_of_noClash htree hno sched _ _ root path k hk,lookup_withoutCache]
  split_ifs with hpath
  · rfl
  · rw [versions,newWithOptions_sources,←total_range] at hle
    have hlt : k<2^31 := by
      rw [←hk,wrap32]
      omega
    rw [lookupIn,if_neg (by omega),if_neg (by omega)]
    exact walkPositive_isSome htree (fun s hs v fi => hres s hs path v fi hpath) _ h1 (by omega) hlt

theorem total_filter_add_le {path : Path} {keep : ℕ → Bool} {idxs : List ℕ} {j : ℕ} {s : MountSource ι}
    (hs : sources[j]?=some s) (hj : j∈idxs) (hkeep : keep j=false) :
    total sources path (idxs.filter keep)+s.versions path≤total sources path idxs := by
  obtain ⟨pre,post,rfl⟩:=append_of_mem hj
  have hle (l : List ℕ) : total sources path (l.filter keep)≤total sources path l :=
    (filter_sublist.map _).sum_le_sum (fun _ _ => Nat.zero_le _)
  have hpre:=hle pre
  have hpost:=hle post
  simp only [total,filter_append,filter_cons,hkeep,map_append,sum_append,map_cons,
    sum_cons,hs,map_some,getD_some,Bool.false_eq_true,if_false] at hpre hpost ⊢
  omega

/-- Some limits let the cache reach a given folder. -/
theorem exists_cached {i : ℕ} {q : Path} (hq : Holder sources rs i q) :
    ∃sched maxCacheEntries,q.length≤(buildFolderCache sources rs sched (q.length+1) maxCacheEntries).depth := by
  have horder (n : ℕ) (c : FolderCache) : ((fun _ c => c : ℕ → FolderCache → FolderCache) n c).Perm c:=.refl c
  obtain ⟨N,hN⟩:=buildLevels_reaches (c := { folders := [([],rootIdxs sources)], depth:=0 }) horder hq q.length
    (by simp) (exactly_root fun _ => Iff.rfl)
  exact ⟨⟨N,fun _ c => c,fun _ c => .refl c⟩,N,hN N N le_rfl le_rfl⟩

/-- Where the sources count exactly, a clash hides counted versions. -/
theorem noClash_of_allPresent (htree : ∀s∈sources,IsTree s) (hex : Exact sources) (hall : AllPresent sources rs) : NoClash sources rs := by
  intro path i hi s hs him hver
  by_contra hnf
  have hpath : components path≠[]:=fun h => hnf (h ▸ .root)
  obtain ⟨j,hjlt,hj⟩:=mem_iff_getElem.mp hs
  have hj':=hj ▸ getElem?_eq_getElem hjlt
  have hilt : i<sources.length := by
    obtain ⟨si,hsi,-⟩:=hi
    exact (List.getElem?_eq_some_iff.mp hsi).1
  have hij : i≠j := by
    rintro rfl
    obtain ⟨si,hsi,-,hf⟩:=hi
    rw [hj',Option.some.injEq] at hsi
    exact hnf (hsi ▸ hf)
  obtain ⟨sched,maxCacheEntries,hreach⟩:=exists_cached hi
  have hc:=@buildFolderCache_exactly _ sources rs sched ((components path).length+1) maxCacheEntries
  have hnew : newWithOptions sources rs sched ((components path).length+1) maxCacheEntries =
      { sources, resolveSymlinks := rs,
        cache := buildFolderCache sources rs sched ((components path).length+1) maxCacheEntries } := by
    rw [newWithOptions,if_pos (by omega),max_eq_left (by omega)]
  generalize hcache : buildFolderCache sources rs sched ((components path).length+1) maxCacheEntries=c at hc hreach hnew
  -- the cache knows the path, and names the folder's holders only
  have hhas:=(hc.has _ i).mpr ⟨hreach,hi⟩
  obtain ⟨l,hl⟩:=get_of_has hhas
  have hcf : cachedFor { sources, cache:=c, resolveSymlinks:=rs } (components path)=some l := by
    rw [cachedFor,hl,some_or]
  have hil : i∈l:=(mem_get_iff hc.nodup hl i).mpr hhas
  have hjl : j∉l := by
    intro hjl
    obtain ⟨-,s',hs',-,hf⟩:=(hc.has _ j).mp ((mem_get_iff hc.nodup hl j).mp hjl)
    rw [hj',Option.some.injEq] at hs'
    exact hnf (hs' ▸ hf)
  have hki : consults { sources, cache:=c, resolveSymlinks:=rs } (components path) i=true := by
    simp [consults,hcf,hil]
  have hkj : consults { sources, cache:=c, resolveSymlinks:=rs } (components path) j=false := by
    simp [consults,hcf,hjl,hj',him]
  generalize hkeep : consults { sources, cache := c, resolveSymlinks := rs } (components path)=keep at hki hkj
  have hfor : sourcesForPath { sources, cache:=c, resolveSymlinks:=rs } (components path) =
      (List.range sources.length).filter keep := by
    have hfolders : c.folders≠[] := by
      intro h
      simp [h,Has] at hhas
    have hout:=ne_nil_of_mem (mem_filter.mpr ⟨mem_range.mpr hilt,hki⟩)
    rw [sourcesForPath]
    dsimp only
    rw [hkeep,if_neg (by simp only [not_or]; exact ⟨by omega,hfolders⟩),if_neg hout]
  -- one version more than the holders have
  have hsum:=hex.small (components path)
  rw [←total_range] at hsum
  have hle:=@total_filter_add_le _ _ (components path) _ _ _ _ hj' (mem_range.mpr hjlt) hkj
  have hnone:=@walkPositive_append _ _ rs (components path) hex ((List.range sources.length).filter keep) [] 1 le_rfl
    (by omega)
  obtain ⟨root,-⟩:=isSome_iff_exists.mp ((htree s hs).present (components path) 1 le_rfl (by omega))
  have hsome:=hall sched ((components path).length+1) maxCacheEntries root path
    (1+total sources (components path) ((List.range sources.length).filter keep)) (wrap32_of_lt (by omega) (by omega))
    (by omega) (by
      rw [versions,newWithOptions_sources,←total_range]
      omega)
  rw [hnew,lookup,if_neg hpath,hfor,lookupIn,if_neg (by omega),if_neg (by omega)] at hsome
  rw [append_nil] at hnone
  rw [hnone] at hsome
  simp [walkPositive] at hsome

theorem resolvable_of_allPresent (hex : Exact sources) (htrans : Transparent sources rs)
    (hall : AllPresent sources rs) : Resolvable sources rs := by
  intro s hs path v fi hpath h1 hfi
  obtain ⟨i,hilt,hi⟩:=mem_iff_getElem.mp hs
  have hi':=hi ▸ getElem?_eq_getElem hilt
  obtain ⟨pre,post,hrange⟩:=append_of_mem (mem_range.mpr hilt)
  have hv : v ≤ s.versions (components path) := by
    by_contra hcon
    simp [hex.beyond s hs (components path) v (not_le.mp hcon)] at hfi
  have hsum:=hex.small (components path)
  have htotal : (sources.map (fun s => s.versions (components path))).sum =
      total sources (components path) pre+(s.versions (components path)+total sources (components path) post) := by
    rw [←total_range,hrange]
    simp [total,hi']
  have hsome:=hall ⟨0,fun _ c => c,fun _ c => .refl c⟩ 0 0 fi path (v+total sources (components path) pre)
    (wrap32_of_lt (by omega) (by omega)) (by omega) (by
      rw [versions,newWithOptions_sources,Nat.mod_eq_of_lt (by omega)]
      omega)
  rw [htrans _ _ _ _ _ _ (wrap32_of_lt (by omega) (by omega)),lookup_withoutCache,if_neg hpath,lookupIn,
    if_neg (by omega),if_neg (by omega),hrange,walkPositive_append hex pre (i::post) h1 (by omega),walkPositive] at hsome
  simpa [hi',hfi,tagged] using hsome

def singleEntry (mode : ℕ) : MountSource Unit where
  lookup p v := if p = [['a']] ∧ (v = 0 ∨ v = 1) then some { mode, linkname := [], rest := () } else none
  versions p := if p = [['a']] then 1 else 0
  list p := if p = [] then some (.names [['a']]) else none
  listDirents p := if p = [] then some [{ name := ['a'], mode, proper := by decide }] else none
  isImmutable := true

theorem singleEntry_isTree (mode : ℕ) : IsTree (singleEntry mode) := by
  refine ⟨fun p v h1 hv => ?_,fun p v hv => ?_,fun p name q hq hex => ?_⟩
  · simp only [singleEntry] at hv ⊢
    split_ifs at hv with hp
    · have hv1 : v=1 := by simp at hv; omega
      simp [hp,hv1]
    · simp at hv
      omega
  · simp only [singleEntry] at hv ⊢
    split_ifs at hv with hp
    simp [hp]
  · simp only [singleEntry] at hex
    split_ifs at hex with hp
    · have hlen:=congrArg List.length hp
      have hpos:=length_pos_iff.mpr hq
      simp at hlen
      omega
    · exact absurd rfl hex

/-- A directory of one name is a folder wherever it has something. -/
theorem folder_singleEntry {mode : ℕ} {p : Path} (hdir : isDirMode mode = true) (h : (singleEntry mode).versions p≠0) :
    Folder (singleEntry mode) false p := by
  have hp : p=[['a']] := by
    by_contra hne
    exact h (if_neg hne)
  rw [hp]
  have hlist : listDirentsFromSource (singleEntry mode) [] false=some [{ name := ['a'], mode, proper := by decide }] := rfl
  exact Folder.root.child hlist mem_cons_self (by rw [folderCacheShouldIncludeChild,if_pos hdir])

/-- Without a clash between a folder and another entry of one path, no cache changes a lookup, and every counted
version is found whose link resolves. Where the sources count exactly, that is also what it takes: sources that
answer every version alike can keep a clash from showing. -/
theorem folderCache_transparent_iff (sources : List (MountSource ι)) (rs : Bool) (htree : ∀ s ∈ sources, IsTree s) :
    (NoClash sources rs → Transparent sources rs ∧ (Resolvable sources rs → AllPresent sources rs)) ∧
      (Exact sources →
        (Transparent sources rs ∧ AllPresent sources rs ↔ NoClash sources rs ∧ Resolvable sources rs)) := by
  constructor
  · intro hno
    exact ⟨transparent_of_noClash htree hno,allPresent_of_noClash htree hno⟩
  · intro hex
    constructor
    · rintro ⟨htrans,hall⟩
      exact ⟨noClash_of_allPresent htree hex hall,resolvable_of_allPresent hex htrans hall⟩
    · rintro ⟨hno,hres⟩
      exact ⟨transparent_of_noClash htree hno,allPresent_of_noClash htree hno hres⟩

theorem folderCache_transparent_directories :
    (∀ s ∈ [singleEntry 0o40755,singleEntry 0o40700], IsTree s) ∧
      NoClash [singleEntry 0o40755,singleEntry 0o40700] false ∧
      Transparent [singleEntry 0o40755,singleEntry 0o40700] false := by
  have htree : ∀ s ∈ [singleEntry 0o40755,singleEntry 0o40700], IsTree s := by
    simp [singleEntry_isTree]
  have hno : NoClash [singleEntry 0o40755,singleEntry 0o40700] false := by
    intro path i _ s hs _ hver
    simp only [mem_cons,not_mem_nil,or_false] at hs
    rcases hs with rfl | rfl
    · exact folder_singleEntry (by decide) hver
    · exact folder_singleEntry (by decide) hver
  exact ⟨htree,hno,((folderCache_transparent_iff _ false htree).1 hno).1⟩

/-- A file left of a directory of the same path: the cache leaves the file's source out. -/
theorem folderCache_hides_file :
    (∀ s ∈ [singleEntry 0o100644,singleEntry 0o40755], IsTree s ∧ s.isImmutable = true) ∧
      ¬Transparent [singleEntry 0o100644,singleEntry 0o40755] false ∧
      ¬AllPresent [singleEntry 0o100644,singleEntry 0o40755] false := by
  refine ⟨by simpa [singleEntry_isTree] using ⟨rfl,rfl⟩,fun h => ?_,fun h => ?_⟩
  · have h1 := congrArg (fun r => r.bind Hit.source)
      (h ⟨9,fun _ c => c,fun _ c => .refl c⟩ 2 9 { mode := 0o40755, linkname := [], rest := () } ['a'] 1 (by decide))
    revert h1
    decide +kernel
  · have h2 := h ⟨9,fun _ c => c,fun _ c => .refl c⟩ 2 9 { mode := 0o40755, linkname := [], rest := () } ['a'] 2
      (by decide) (by decide) (by decide +kernel)
    revert h2
    decide +kernel

end Transparency

end Ratarmount.Union
