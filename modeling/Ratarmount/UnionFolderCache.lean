import Ratarmount.UnionMount

/-!
# The folder cache of a union

However a build is cut off, its cache holds, for each folder up to the depth it
has finished, exactly the sources that have the folder. A source that the cache
leaves out may still have a file where another source has a folder.
-/

namespace Ratarmount.Union

open Mount List

variable {ι : Type}

/-- The folders of a source, as a build without limits finds them. -/
inductive Folder (s : MountSource ι) (rs : Bool) : Path → Prop
  | root : Folder s rs []
  | child {p : Path} {dents : List Dirent} {d : Dirent} (hp : Folder s rs p)
      (hlist : listDirentsFromSource s p rs = some dents) (hd : d ∈ dents)
      (hinc : folderCacheShouldIncludeChild s (p ++ [d.name]) d.mode rs = true) : Folder s rs (p ++ [d.name])

namespace FolderCache

def Has (c : FolderCache) (p : Path) (i : ℕ) : Prop := ∃ e ∈ c, e.1 = p ∧ i ∈ e.2

def keys (c : FolderCache) : List Path := c.map Prod.fst

theorem has_cons (e : Path × List ℕ) (c : FolderCache) (p : Path) (i : ℕ) :
    Has (e::c) p i ↔ (e.1=p ∧ i∈e.2) ∨ Has c p i := by
  simp [Has]

theorem has_append (c c' : FolderCache) (p : Path) (i : ℕ) : Has (c++c') p i ↔ Has c p i ∨ Has c' p i := by
  simp only [Has,mem_append]
  constructor
  · rintro ⟨e,he | he,h⟩
    · exact .inl ⟨e,he,h⟩
    · exact .inr ⟨e,he,h⟩
  · rintro (⟨e,he,h⟩ | ⟨e,he,h⟩)
    · exact ⟨e,.inl he,h⟩
    · exact ⟨e,.inr he,h⟩

theorem has_push (p : Path) (i : ℕ) (c : FolderCache) (q : Path) (j : ℕ) :
    Has (push p i c) q j ↔ Has c q j ∨ (q=p ∧ j=i) := by
  induction c with
  | nil => simp [push,Has,eq_comm]
  | cons e c ih =>
    rw [push]
    split_ifs with h
    · subst h
      simp only [has_cons]
      grind
    · simp only [has_cons]
      tauto

theorem keys_push (p : Path) (i : ℕ) (c : FolderCache) :
    keys (push p i c)=if p∈keys c then keys c else keys c++[p] := by
  induction c with
  | nil => simp [push,keys]
  | cons e c ih =>
    rw [push]
    split_ifs with h h' h'
    · rfl
    · exact absurd h (fun he => h' (by simp [FolderCache.keys,he]))
    · have hc : p∈keys c := by simpa [keys,Ne.symm h,eq_comm] using h'
      rw [if_pos hc] at ih
      exact congrArg (e.1::·) ih
    · have hc : p∉keys c:=fun hc => h' (mem_cons_of_mem _ hc)
      rw [if_neg hc] at ih
      exact congrArg (e.1::·) ih

variable {p : Path} {c : FolderCache} {l : List ℕ} {new : Path → ℕ → Prop}

theorem nodup_push {i : ℕ} (h : (keys c).Nodup) : (keys (push p i c)).Nodup := by
  rw [keys_push]
  split_ifs with hp
  · exact h
  · exact nodup_append.mpr ⟨h,nodup_singleton p,by
      intro a ha b hb
      rw [mem_singleton.mp hb]
      rintro rfl
      exact hp ha⟩

theorem mem_of_get (h : c.get p=some l) : (p,l)∈c := by
  obtain ⟨e,he,rfl⟩:=Option.map_eq_some_iff.mp h
  have hp : e.1=p := by simpa using find?_some he
  rw [←hp]
  exact mem_of_find?_eq_some he

theorem mem_get_iff (hc : (keys c).Nodup) (h : c.get p=some l) (i : ℕ) : i∈l ↔ Has c p i := by
  constructor
  · exact fun hi => ⟨(p,l),mem_of_get h,rfl,hi⟩
  · rintro ⟨e,he,rfl,hi⟩
    have heq:=inj_on_of_nodup_map hc he (mem_of_get h) rfl
    rw [heq] at hi
    exact hi

theorem get_of_has {i : ℕ} (h : Has c p i) : ∃l,c.get p=some l := by
  obtain ⟨e,he,hp,-⟩:=h
  have hsome : (c.find? (fun e => e.1=p)).isSome:=find?_isSome.mpr ⟨e,he,by simpa using hp⟩
  obtain ⟨e',he'⟩:=Option.isSome_iff_exists.mp hsome
  exact ⟨e'.2,by rw [get,he',Option.map_some]⟩

/-- `c'` is `c` with the pairs of `new`. -/
structure Grown (new : Path → ℕ → Prop) (c c' : FolderCache) : Prop where
  nodup : (keys c).Nodup → (keys c').Nodup
  key : ∀ q ∈ keys c', q ∈ keys c ∨ ∃ j, new q j
  has : ∀ q j, Has c' q j ↔ Has c q j ∨ new q j

theorem Grown.refl (hnew : ∀q j,¬new q j) (c : FolderCache) : Grown new c c :=
  ⟨id,fun _ => Or.inl,fun q j => by simp [hnew q j]⟩

theorem Grown.trans {new' new'' : Path → ℕ → Prop} {c' c'' : FolderCache} (h : Grown new c c')
    (h' : Grown new' c' c'') (hor : ∀q j,new'' q j ↔ new q j ∨ new' q j) : Grown new'' c c'' := by
  refine ⟨h'.nodup ∘ h.nodup,?_,fun q j => by rw [h'.has,h.has,hor,or_assoc]⟩
  intro q hq
  rcases h'.key q hq with hq | ⟨j,hj⟩
  · rcases h.key q hq with hq | ⟨j,hj⟩
    · exact .inl hq
    · exact .inr ⟨j,(hor q j).mpr (.inl hj)⟩
  · exact .inr ⟨j,(hor q j).mpr (.inr hj)⟩

theorem Grown.push (p : Path) (i : ℕ) (c : FolderCache) : Grown (fun q j => q=p ∧ j=i) c (push p i c) := by
  refine ⟨nodup_push,?_,has_push p i c⟩
  intro q hq
  rw [keys_push] at hq
  split_ifs at hq
  · exact .inl hq
  · rcases mem_append.mp hq with hq | hq
    · exact .inl hq
    · exact .inr ⟨i,mem_singleton.mp hq,rfl⟩

end FolderCache

open FolderCache

section Scans

variable (sources : List (MountSource ι)) (rs : Bool)

/-- Source `j` lists `q` in `folder` as a folder to cache. -/
def Child (folder q : Path) (j : ℕ) : Prop :=
  ∃ src dents d, sources[j]? = some src ∧ listDirentsFromSource src folder rs = some dents ∧ d ∈ dents ∧
    q = folder ++ [d.name] ∧ folderCacheShouldIncludeChild src q d.mode rs = true

variable {s s' : Scan} {folder : Path} {last : FolderCache} {D : ℕ → Prop} {c : Cache} {checks entriesLeft : ℕ}
  {order : ℕ → FolderCache → FolderCache}

theorem Scan.tick_newCache (h : s.tick=some s') : s'.newCache=s.newCache := by
  rw [Scan.tick] at h
  split_ifs at h
  cases h
  rfl

theorem scanDents_grown {src : MountSource ι} {si : ℕ} {dents : List Dirent}
    (h : scanDents rs src si folder dents s=some s') :
    Grown (fun q j => j=si ∧ ∃d∈dents,q=folder++[d.name] ∧ folderCacheShouldIncludeChild src q d.mode rs=true)
      s.newCache s'.newCache := by
  induction dents generalizing s with
  | nil =>
    cases h
    exact Grown.refl (by simp) _
  | cons d dents ih =>
    rw [scanDents] at h
    cases ht : s.tick with
    | none => simp [ht] at h
    | some t =>
      simp only [ht] at h
      rw [←Scan.tick_newCache ht]
      split_ifs at h with hinc
      · refine (Grown.push (folder++[d.name]) si t.newCache).trans (ih h) ?_
        intro q j
        simp only [mem_cons,exists_eq_or_imp]
        constructor
        · rintro ⟨rfl,⟨rfl,-⟩ | hrest⟩
          · exact .inl ⟨rfl,rfl⟩
          · exact .inr ⟨rfl,hrest⟩
        · rintro (⟨rfl,rfl⟩ | ⟨rfl,hrest⟩)
          · exact ⟨rfl,.inl ⟨rfl,hinc⟩⟩
          · exact ⟨rfl,.inr hrest⟩
      · refine (Grown.refl (fun _ _ => id) t.newCache).trans (ih h) ?_
        intro q j
        simp only [mem_cons,exists_eq_or_imp,false_or]
        constructor
        · rintro ⟨rfl,⟨rfl,hq⟩ | hrest⟩
          · exact absurd hq hinc
          · exact ⟨rfl,hrest⟩
        · rintro ⟨rfl,hrest⟩
          exact ⟨rfl,.inr hrest⟩

theorem scanSources_grown {idxs : List ℕ} (h : scanSources sources rs folder idxs s=some s') :
    Grown (fun q j => j∈idxs ∧ Child sources rs folder q j) s.newCache s'.newCache := by
  induction idxs generalizing s with
  | nil =>
    cases h
    exact Grown.refl (by simp) _
  | cons si idxs ih =>
    rw [scanSources] at h
    cases ht : s.tick with
    | none => simp [ht] at h
    | some t =>
      rw [←Scan.tick_newCache ht]
      -- the sources that list nothing here add nothing
      have hskip (hnone : ∀q,¬Child sources rs folder q si) (h : scanSources sources rs folder idxs t=some s') :
          Grown (fun q j => j∈si::idxs ∧ Child sources rs folder q j) t.newCache s'.newCache := by
        refine (Grown.refl (fun _ _ => id) t.newCache).trans (ih h) ?_
        intro q j
        simp only [mem_cons,false_or]
        constructor
        · rintro ⟨rfl | hj,hc⟩
          · exact absurd hc (hnone q)
          · exact ⟨hj,hc⟩
        · rintro ⟨hj,hc⟩
          exact ⟨.inr hj,hc⟩
      cases hsrc : sources[si]? with
      | none =>
        simp only [ht,hsrc] at h
        apply hskip _ h
        rintro q ⟨src,dents,d,hs,-⟩
        simp [hsrc] at hs
      | some src =>
        simp only [ht,hsrc] at h
        cases hl : listDirentsFromSource src folder rs with
        | none =>
          simp only [hl] at h
          apply hskip _ h
          rintro q ⟨src',dents,d,hs,hd,-⟩
          rw [hsrc,Option.some.injEq] at hs
          subst hs
          simp [hl] at hd
        | some dents =>
          simp only [hl] at h
          cases hd : scanDents rs src si folder dents t with
          | none => simp [hd] at h
          | some t' =>
            simp only [hd] at h
            refine (scanDents_grown rs hd).trans (ih h) ?_
            intro q j
            have hchild : Child sources rs folder q si ↔ ∃d∈dents,q=folder++[d.name] ∧
                folderCacheShouldIncludeChild src q d.mode rs=true := by
              simp [Child,hsrc,hl]
            simp only [mem_cons]
            constructor
            · rintro ⟨rfl | hj,hc⟩
              · exact .inl ⟨rfl,hchild.mp hc⟩
              · exact .inr ⟨hj,hc⟩
            · rintro (⟨rfl,hc⟩ | ⟨hj,hc⟩)
              · exact ⟨.inl rfl,hchild.mpr hc⟩
              · exact ⟨.inr hj,hc⟩

theorem scanFolders_grown (h : scanFolders sources rs last s=some s') :
    Grown (fun q j => ∃p,Has last p j ∧ Child sources rs p q j) s.newCache s'.newCache := by
  induction last generalizing s with
  | nil =>
    cases h
    exact Grown.refl (by simp [Has]) _
  | cons e last ih =>
    obtain ⟨folder,idxs⟩:=e
    rw [scanFolders] at h
    cases hs : scanSources sources rs folder idxs s with
    | none => simp [hs] at h
    | some t =>
      simp only [hs] at h
      refine (scanSources_grown sources rs hs).trans (ih h) ?_
      intro q j
      simp only [has_cons]
      constructor
      · rintro ⟨p,⟨rfl,hj⟩ | hp,hc⟩
        · exact .inl ⟨hj,hc⟩
        · exact .inr ⟨p,hp,hc⟩
      · rintro (⟨hj,hc⟩ | ⟨p,hp,hc⟩)
        · exact ⟨folder,.inl ⟨rfl,hj⟩,hc⟩
        · exact ⟨p,.inr hp,hc⟩

/-- Source `i` is cached for the folder `p`, once the build gets there. -/
def Holder (i : ℕ) (p : Path) : Prop := ∃ s, sources[i]? = some s ∧ s.isImmutable = true ∧ Folder s rs p

theorem holder_append_iff {i : ℕ} {q : Path} {k : ℕ} :
    (∃p,(p.length=k ∧ Holder sources rs i p) ∧ Child sources rs p q i) ↔ q.length=k+1 ∧ Holder sources rs i q := by
  constructor
  · rintro ⟨p,⟨rfl,s,hs,him,hp⟩,src,dents,d,hsrc,hl,hd,rfl,hinc⟩
    rw [hs,Option.some.injEq] at hsrc
    subst hsrc
    exact ⟨by simp,s,hs,him,hp.child hl hd hinc⟩
  · rintro ⟨hlen,s,hs,him,hq⟩
    cases hq with
    | root => simp at hlen
    | @child p dents d hp hl hd hinc =>
      exact ⟨p,⟨by simpa using hlen,s,hs,him,hp⟩,s,dents,d,hs,hl,hd,rfl,hinc⟩

/-- The cache holds the folders whose depth `D` allows, and no others. -/
structure Exactly (D : ℕ → Prop) (c : FolderCache) : Prop where
  nodup : (keys c).Nodup
  key : ∀ q ∈ keys c, D q.length ∧ (q = [] ∨ ∃ j, Holder sources rs j q)
  has : ∀ q j, Has c q j ↔ D q.length ∧ Holder sources rs j q

variable {sources rs}

theorem Exactly.perm {c c' : FolderCache} (h : Exactly sources rs D c) (hp : c'.Perm c) :
    Exactly sources rs D c' := by
  have hkeys:=hp.map Prod.fst
  refine ⟨hkeys.nodup_iff.mpr h.nodup,fun q hq => h.key q (hkeys.mem_iff.mp hq),fun q j => ?_⟩
  rw [←h.has q j]
  simp only [Has,hp.mem_iff]

theorem mem_rootIdxs {j : ℕ} : j∈rootIdxs sources ↔ ∃s,sources[j]?=some s ∧ s.isImmutable=true := by
  rw [rootIdxs,mem_filter,mem_range]
  constructor
  · rintro ⟨hj,him⟩
    refine ⟨sources[j],getElem?_eq_getElem hj,?_⟩
    simpa [getElem?_eq_getElem hj] using him
  · rintro ⟨s,hs,him⟩
    exact ⟨(List.getElem?_eq_some_iff.mp hs).1,by simp [hs,him]⟩

theorem exactly_root (hD : ∀n,D n ↔ n=0) : Exactly sources rs D [([],rootIdxs sources)] := by
  refine ⟨by simp [FolderCache.keys],by simp [FolderCache.keys,hD],fun q j => ?_⟩
  simp only [Has,mem_singleton,exists_eq_left,mem_rootIdxs,hD,length_eq_zero_iff]
  constructor
  · rintro ⟨rfl,s,hs,him⟩
    exact ⟨rfl,s,hs,him,.root⟩
  · rintro ⟨rfl,s,hs,him,-⟩
    exact ⟨rfl,s,hs,him⟩

/-- A finished level leads to the next. -/
theorem Exactly.scanFolders {k : ℕ} (hlast : Exactly sources rs (·=k) last)
    (h : scanFolders sources rs last { checks, entriesLeft }=some s) : Exactly sources rs (·=k+1) s.newCache := by
  have hgrown:=scanFolders_grown sources rs h
  have hnew (q : Path) (j : ℕ) : (∃p,Has last p j ∧ Child sources rs p q j) ↔
      q.length=k+1 ∧ Holder sources rs j q := by
    rw [←holder_append_iff]
    simp [hlast.has]
  refine ⟨hgrown.nodup (by simp [FolderCache.keys]),fun q hq => ?_,fun q j => ?_⟩
  · rcases hgrown.key q hq with hq | ⟨j,hj⟩
    · simp [FolderCache.keys] at hq
    · exact ⟨((hnew q j).mp hj).1,.inr ⟨j,((hnew q j).mp hj).2⟩⟩
  · rw [hgrown.has,hnew]
    simp [Has]

theorem Exactly.append {k : ℕ} {c c' : FolderCache} (hc : Exactly sources rs (·≤k) c)
    (hc' : Exactly sources rs (·=k+1) c') : Exactly sources rs (·≤k+1) (c++c') := by
  have hkeys : keys (c++c')=keys c++keys c':=map_append
  refine ⟨?_,fun q hq => ?_,fun q j => ?_⟩
  · rw [hkeys,nodup_append]
    refine ⟨hc.nodup,hc'.nodup,?_⟩
    rintro p hp q hq rfl
    have hle:=(hc.key p hp).1
    have heq:=(hc'.key p hq).1
    omega
  · rw [hkeys,mem_append] at hq
    rcases hq with hq | hq
    · exact (hc.key q hq).imp_left Nat.le_succ_of_le
    · exact (hc'.key q hq).imp_left le_of_eq
  · rw [has_append,hc.has,hc'.has,←or_and_right]
    refine and_congr_left fun _ => ?_
    omega

/-- Each level that a build finishes keeps the cache exact. -/
theorem buildLevels_exactly (horder : ∀n c,(order n c).Perm c) (n : ℕ)
    (hlast : Exactly sources rs (·=c.depth) last) (hc : Exactly sources rs (·≤c.depth) c.folders) :
    Exactly sources rs (·≤(buildLevels sources rs order n (c.depth+1) last checks entriesLeft c).depth)
      (buildLevels sources rs order n (c.depth+1) last checks entriesLeft c).folders := by
  induction n generalizing last c checks entriesLeft with
  | zero => exact hc
  | succ n ih =>
    rw [buildLevels]
    cases hs : scanFolders sources rs (order (c.depth+1) last) { checks, entriesLeft } with
    | none => exact hc
    | some s =>
      dsimp only
      split_ifs with hnew
      · exact hc
      · have hnext:=(hlast.perm (horder _ last)).scanFolders hs
        exact ih (c := { folders := c.folders++s.newCache, depth := c.depth+1 }) hnext (hc.append hnext)

theorem buildFolderCache_exactly (sched : Schedule) (maxCacheDepth maxCacheEntries : ℕ) :
    Exactly sources rs (·≤(buildFolderCache sources rs sched maxCacheDepth maxCacheEntries).depth)
      (buildFolderCache sources rs sched maxCacheDepth maxCacheEntries).folders :=
  buildLevels_exactly (c := { folders := [([],rootIdxs sources)], depth := 0 }) sched.perm _
    (exactly_root fun _ => Iff.rfl) (exactly_root fun _ => Nat.le_zero)

/-- With enough checks and entries the scan finishes, and its result does not depend on them. -/
def Ample (f : Scan → Option Scan) : Prop :=
  ∀ c, ∃ N c', ∀ checks entriesLeft, N ≤ checks → N ≤ entriesLeft →
    ∃ a b, f ⟨checks,entriesLeft,c⟩ = some ⟨a,b,c'⟩ ∧ checks ≤ a + N ∧ entriesLeft ≤ b + N

theorem ample_some : Ample some :=
  fun c => ⟨0,c,fun checks entriesLeft _ _ => ⟨checks,entriesLeft,rfl,le_rfl,le_rfl⟩⟩

theorem Ample.bind {f g : Scan → Option Scan} (hf : Ample f) (hg : Ample g) : Ample (fun s => (f s).bind g) := by
  intro c
  obtain ⟨N,c',hN⟩:=hf c
  obtain ⟨M,c'',hM⟩:=hg c'
  refine ⟨N+M,c'',fun checks entriesLeft hch hen => ?_⟩
  obtain ⟨a,b,hfs,ha,hb⟩:=hN checks entriesLeft (by omega) (by omega)
  obtain ⟨a',b',hgs,ha',hb'⟩:=hM a b (by omega) (by omega)
  exact ⟨a',b',by simp only [hfs,Option.bind_some,hgs],by omega,by omega⟩

theorem ample_tick : Ample Scan.tick := by
  intro c
  refine ⟨1,c,fun checks entriesLeft hch hen => ⟨checks-1,entriesLeft,?_,by omega,by omega⟩⟩
  rw [Scan.tick,if_neg (by simp only; omega)]

theorem ample_push (p : Path) (i : ℕ) :
    Ample (fun s => some { s with entriesLeft := s.entriesLeft - 1, newCache := s.newCache.push p i }) :=
  fun c => ⟨1,c.push p i,fun checks entriesLeft _ _ => ⟨checks,entriesLeft-1,rfl,by omega,by omega⟩⟩

theorem ample_scanDents (src : MountSource ι) (si : ℕ) (folder : Path) (dents : List Dirent) :
    Ample (scanDents rs src si folder dents) := by
  induction dents with
  | nil => exact ample_some
  | cons d dents ih =>
    by_cases hinc : folderCacheShouldIncludeChild src (folder++[d.name]) d.mode rs=true
    · have h:=ample_tick.bind ((ample_push (folder++[d.name]) si).bind ih)
      convert h using 2 with s
      rw [scanDents]
      cases s.tick <;> simp [hinc]
    · have h:=ample_tick.bind ih
      convert h using 2 with s
      rw [scanDents]
      cases s.tick <;> simp [hinc]

theorem ample_scanSources (folder : Path) (idxs : List ℕ) : Ample (scanSources sources rs folder idxs) := by
  induction idxs with
  | nil => exact ample_some
  | cons si idxs ih =>
    cases hsrc : sources[si]? with
    | none =>
      convert ample_tick.bind ih using 2 with s
      rw [scanSources]
      cases s.tick <;> simp [hsrc]
    | some src =>
      cases hl : listDirentsFromSource src folder rs with
      | none =>
        convert ample_tick.bind ih using 2 with s
        rw [scanSources]
        cases s.tick <;> simp [hsrc,hl]
      | some dents =>
        convert ample_tick.bind ((ample_scanDents src si folder dents).bind ih) using 2 with s
        rw [scanSources]
        cases s.tick with
        | none => rfl
        | some t =>
          simp only [hsrc,hl,Option.bind_some]
          cases scanDents rs src si folder dents t <;> rfl

theorem ample_scanFolders (last : FolderCache) : Ample (scanFolders sources rs last) := by
  induction last with
  | nil => exact ample_some
  | cons e last ih =>
    convert (ample_scanSources e.1 e.2).bind ih using 2 with s
    rw [scanFolders]
    cases scanSources sources rs e.1 e.2 s <;> rfl

theorem depth_le_buildLevels (order : ℕ → FolderCache → FolderCache) (n : ℕ) (last : FolderCache) (c : Cache)
    (checks entriesLeft : ℕ) : c.depth≤(buildLevels sources rs order n (c.depth+1) last checks entriesLeft c).depth := by
  induction n generalizing last c checks entriesLeft with
  | zero => exact le_rfl
  | succ n ih =>
    rw [buildLevels]
    cases scanFolders sources rs (order (c.depth+1) last) { checks, entriesLeft } with
    | none => exact le_rfl
    | some s =>
      dsimp only
      split_ifs
      · exact le_rfl
      · exact (Nat.le_succ _).trans (ih s.newCache { folders := c.folders++s.newCache, depth := c.depth+1 } _ _)

theorem Folder.take {s : MountSource ι} {q : Path} (h : Folder s rs q) (k : ℕ) : Folder s rs (q.take k) := by
  induction h with
  | root => simpa using Folder.root
  | @child p dents d hp hl hd hinc ih =>
    rcases Nat.lt_or_ge p.length k with hk | hk
    · rw [take_of_length_le (by simpa using hk)]
      exact hp.child hl hd hinc
    · rwa [take_append_of_le_length hk]

/-- A build with enough time and entries reaches every folder that its depth allows. -/
theorem buildLevels_reaches (horder : ∀n c,(order n c).Perm c) {i : ℕ} {q : Path} (hq : Holder sources rs i q)
    (n : ℕ) (hn : q.length ≤ c.depth+n) (hlast : Exactly sources rs (·=c.depth) last) :
    ∃N,∀checks entriesLeft,N ≤ checks → N≤entriesLeft →
      q.length≤(buildLevels sources rs order n (c.depth+1) last checks entriesLeft c).depth := by
  induction n generalizing last c with
  | zero => exact ⟨0,fun _ _ _ _ => hn⟩
  | succ n ih =>
    rcases Nat.lt_or_ge c.depth q.length with hlt | hge
    · obtain ⟨N,c',hN⟩:=ample_scanFolders (order (c.depth+1) last) []
      obtain ⟨a,b,hs,-⟩:=hN N N le_rfl le_rfl
      have hnext:=(hlast.perm (horder _ last)).scanFolders hs
      have hne : c'≠[] := by
        rintro rfl
        obtain ⟨s,hs,him,hf⟩:=hq
        have hhas:=(hnext.has (q.take (c.depth+1)) i).mpr
          ⟨by rw [length_take]; omega,s,hs,him,hf.take _⟩
        simp [Has] at hhas
      obtain ⟨M,hM⟩:=ih (c := { folders:=c.folders++c', depth:=c.depth+1 }) (by dsimp only; omega) hnext
      refine ⟨N+M,fun checks entriesLeft hch hen => ?_⟩
      obtain ⟨a,b,hs,ha,hb⟩:=hN checks entriesLeft (by omega) (by omega)
      rw [buildLevels,hs]
      dsimp only
      rw [if_neg hne]
      exact hM a b (by omega) (by omega)
    · exact ⟨0,fun checks entriesLeft _ _ => hge.trans (depth_le_buildLevels order (n+1) last c checks entriesLeft)⟩

/-- Wherever its build stops, the cache lists for a folder the sources that have it, down to the depth that was reached. -/
theorem cache_lists_holders (sources : List (MountSource ι)) (rs : Bool) (sched : Schedule) (maxDepth maxEntries : ℕ) (p : Path)
    (i : ℕ) : (∃ l, (buildFolderCache sources rs sched maxDepth maxEntries).folders.get p = some l ∧ i ∈ l) ↔
      p.length ≤ (buildFolderCache sources rs sched maxDepth maxEntries).depth ∧ Holder sources rs i p := by
  have h := @buildFolderCache_exactly _ sources rs sched maxDepth maxEntries
  rw [← h.has]
  constructor
  · rintro ⟨l,hl,hi⟩
    exact (mem_get_iff h.nodup hl i).mp hi
  · intro hhas
    obtain ⟨l,hl⟩ := get_of_has hhas
    exact ⟨l,hl,(mem_get_iff h.nodup hl i).mpr hhas⟩

end Scans

end Ratarmount.Union
