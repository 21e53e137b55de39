import Ratarmount.OciImage

/-!
# What a layer says about a path

The walk of one layer against what the layer removes from an image, and the
first layer from the top that decides.
-/

namespace Ratarmount.Oci

open Mount List Option

variable {ι : Type}

/-- A layer: a tree, and listings that tell its children. -/
structure IsLayer (s : MountSource ι) : Prop where
  ancestors : ∀ q r, q ≠ [] → r ≠ [] → (s.lookup (q ++ r) 0).isSome = true →
    ∃ fi, s.lookup q 0 = some fi ∧ isDirMode fi.mode = true
  list_none : ∀ p, s.list p = none → ∀ n, s.lookup (p ++ [n]) 0 = none
  list_infos : ∀ p m, s.list p = some (.infos m) → ∀ n fi, (n,fi) ∈ m ↔ s.lookup (p ++ [n]) 0 = some fi
  list_names : ∀ p names, s.list p = some (.names names) → ∀ n, n ∈ names ↔ (s.lookup (p ++ [n]) 0).isSome = true
  dirents_none : ∀ p, s.listDirents p = none → ∀ n, s.lookup (p ++ [n]) 0 = none
  dirents : ∀ p dents, s.listDirents p = some dents →
    ∀ n, (∃ d ∈ dents, d.name = n) ↔ (s.lookup (p ++ [n]) 0).isSome = true
  dirents_unique : ∀ p dents, s.listDirents p = some dents → ∀ d ∈ dents, ∀ d' ∈ dents, d.name = d'.name → d = d'

/-- The layer decides about the child `n` of `dir` in that directory: it has it, whites it out, marks the
directory opaque or has no directory there. -/
def Decides (s : MountSource ι) (dir : Path) (n : Str) : Prop :=
  (s.lookup (dir ++ [n]) 0).isSome = true ∨ (∃ m, hasMarker s dir m = true ∧ whiteoutTarget m = some n) ∨
    hasMarker s dir opaqueWhiteout = true ∨ (dir ≠ [] ∧ ∃ fi, s.lookup dir 0 = some fi ∧ isDirMode fi.mode = false)

variable {n : Str} {s : MountSource ι} {dir : Path} {layers : List (MountSource ι)}

/-! ## Decisions of a layer -/

theorem eq_of_whiteoutTarget {m : Str} (h : whiteoutTarget m=some n) : m=whiteoutPrefix++n := by
  rw [whiteoutTarget] at h
  dsimp only at h
  split_ifs at h with h1 h2
  cases h
  obtain ⟨t,rfl⟩ := List.isPrefixOf_iff_prefix.mp h2
  rw [drop_left]

theorem Decides.removes (h : Decides s dir n) (hn : s.lookup (dir++[n]) 0=none) : Removes s (dir++[n]) := by
  rcases h with h | ⟨m,hm,ht⟩ | h | ⟨hd,fi,hfi,hmode⟩
  · simp [hn] at h
  · rw [eq_of_whiteoutTarget ht] at hm
    exact .inl ⟨dir,n,[],rfl,hm⟩
  · exact .inr (.inl ⟨dir,[n],rfl,by simp,h⟩)
  · exact .inr (.inr ⟨dir,[n],fi,rfl,hd,by simp,hfi,hmode⟩)

section Walk

variable {q : Path} {c : Str} {parts : List Str} {fi : FileInfo ι}

theorem walkLayer_some (h : s.lookup (q++[c]) 0=some fi) : walkLayer s 0 q (c::parts) =
    if parts=[] then .found fi else if isDirMode fi.mode then walkLayer s 0 (q++[c]) parts else .hidden := by
  simp [walkLayer,h]

theorem walkLayer_none (h : s.lookup (q++[c]) 0=none) : walkLayer s 0 q (c::parts) =
    if hasMarker s q (whiteoutPrefix++c) || hasMarker s q opaqueWhiteout then .hidden else .miss := by
  simp [walkLayer,h]

end Walk

/-- An entry behind a directory of the layer is found through it. -/
theorem walkLayer_of_directory {s : MountSource ι} {parts : List Str} (hp : parts≠[]) (q : Path)
    {dir : Path} (hdir : ∀r,r≠[] → r <+: dir→∃fi,s.lookup (q++r) 0=some fi ∧ isDirMode fi.mode=true) :
    walkLayer s 0 q (dir++parts)=walkLayer s 0 (q++dir) parts := by
  induction dir generalizing q with
  | nil => simp
  | cons c dir ih =>
    obtain ⟨fi,hfi,hmode⟩:=hdir [c] (by simp) (by simp)
    rw [cons_append,walkLayer_some hfi,if_neg (by simp [hp]),if_pos hmode,ih (q++[c]),append_assoc,
      singleton_append]
    intro r hr hpre
    obtain ⟨fi,h⟩:=hdir (c::r) (by simp) (by simpa using hpre)
    exact ⟨fi,by simpa using h⟩

/-- Everything above an entry of a layer is a directory. -/
theorem IsLayer.directories (hs : IsLayer s) (h : (s.lookup (dir++[n]) 0).isSome=true) :
    ∀r,r≠[] → r <+: dir→∃fi,s.lookup ([]++r) 0=some fi ∧ isDirMode fi.mode=true := by
  rintro r hr ⟨t,rfl⟩
  exact hs.ancestors r (t++[n]) hr (by simp) (by simpa using h)

theorem walkLayer_behind (hs : IsLayer s) (h : (s.lookup (dir++[n]) 0).isSome=true) (m : Str) :
    walkLayer s 0 [] (dir++[m])=walkLayer s 0 dir [m] :=
  walkLayer_of_directory (by simp) [] (hs.directories h)

theorem walkLayer_found_iff (hs : IsLayer s) (dir : Path) (n : Str) (fi : FileInfo ι) :
    walkLayer s 0 [] (dir++[n]) = .found fi ↔ s.lookup (dir++[n]) 0=some fi := by
  constructor
  · have hgen (q parts : Path) (h : walkLayer s 0 q parts = .found fi) : s.lookup (q++parts) 0=some fi := by
      induction parts generalizing q with
      | nil => simp [walkLayer] at h
      | cons c parts ih =>
        cases hl : s.lookup (q++[c]) 0 with
        | some fi' =>
          rw [walkLayer_some hl] at h
          split_ifs at h with hp
          · cases h
            rw [hp,hl]
          · simpa using ih (q++[c]) h
        | none =>
          rw [walkLayer_none hl] at h
          split_ifs at h
    exact hgen [] (dir++[n])
  · intro h
    rw [walkLayer_behind hs (isSome_iff_exists.mpr ⟨fi,h⟩),walkLayer_some h,if_pos rfl]

theorem removes_of_walkLayer_hidden (q parts : Path) (h : walkLayer s 0 q parts = .hidden) :
    Removes s (q++parts) := by
  induction parts generalizing q with
  | nil => simp [walkLayer] at h
  | cons c parts ih =>
    cases hl : s.lookup (q++[c]) 0 with
    | some fi =>
      rw [walkLayer_some hl] at h
      split_ifs at h with hp hmode
      · simpa using ih (q++[c]) h
      · exact .inr (.inr ⟨q++[c],parts,fi,by simp,by simp,hp,hl,by simpa using hmode⟩)
    | none =>
      rw [walkLayer_none hl] at h
      split_ifs at h with hm
      rcases (Bool.or_eq_true _ _).mp hm with hw | ho
      · exact .inl ⟨q,c,parts,rfl,hw⟩
      · exact .inr (.inl ⟨q,c::parts,rfl,by simp,ho⟩)

theorem Decides.walkLayer_ne_miss (hs : IsLayer s) (h : Decides s dir n) : walkLayer s 0 [] (dir++[n]) ≠ .miss := by
  have hmarked {m : Str} (hm : hasMarker s dir m=true) (hor : m=whiteoutPrefix++n ∨ m=opaqueWhiteout) :
      walkLayer s 0 [] (dir++[n]) ≠ .miss := by
    have hbool : (hasMarker s dir (whiteoutPrefix++n) || hasMarker s dir opaqueWhiteout)=true := by
      rcases hor with rfl | rfl <;> simp [hm]
    rw [walkLayer_behind hs hm,walkLayer]
    cases s.lookup (dir++[n]) 0 <;> simp [hbool]
  rcases h with h | ⟨m,hm,ht⟩ | h | ⟨hd,fi,hfi,hmode⟩
  · obtain ⟨fi,hfi⟩:=isSome_iff_exists.mp h
    rw [(walkLayer_found_iff hs dir n fi).mpr hfi]
    simp
  · exact hmarked hm (.inl (eq_of_whiteoutTarget ht))
  · exact hmarked h (.inr rfl)
  · rcases eq_nil_or_concat' dir with rfl | ⟨q,c,rfl⟩
    · exact absurd rfl hd
    · have hwalk:=@walkLayer_of_directory _ s [c,n] (by simp) [] q
        (hs.directories (isSome_iff_exists.mpr ⟨fi,hfi⟩))
      rw [append_assoc,singleton_append,hwalk,nil_append,walkLayer_some hfi]
      simp [hmode]

/-! ## The first layer that decides -/

theorem firstFound_eq_some_iff {walk : MountSource ι → Walk ι} {l : List (MountSource ι × ℕ)} {hit : Hit ι} :
    firstFound walk l=some hit ↔ ∃pre s li post fi,l=pre++(s,li)::post ∧ walk s = .found fi ∧
      hit={ layer := some li, info := fi } ∧ ∀t∈pre,walk t.1 = .miss := by
  induction l with
  | nil => simp [firstFound]
  | cons x l ih =>
    obtain ⟨s,li⟩:=x
    rw [firstFound]
    constructor
    · intro h
      cases hw : walk s with
      | found fi =>
        simp only [hw,Option.some.injEq] at h
        exact ⟨[],s,li,l,fi,rfl,hw,h.symm,by simp⟩
      | hidden => simp [hw] at h
      | miss =>
        simp only [hw] at h
        obtain ⟨pre,s',li',post,fi,rfl,hf,hhit,hpre⟩:=ih.mp h
        refine ⟨(s,li)::pre,s',li',post,fi,rfl,hf,hhit,?_⟩
        simpa [hw] using hpre
    · rintro ⟨pre,s',li',post,fi,hl,hf,rfl,hpre⟩
      cases pre with
      | nil =>
        obtain ⟨⟨rfl,rfl⟩,rfl⟩:=hl
        simp [hf]
      | cons y pre =>
        obtain ⟨rfl,rfl⟩:=hl
        have hmiss : walk s = .miss:=hpre (s,li) (by simp)
        simp only [hmiss]
        exact ih.mpr ⟨pre,s',li',post,fi,rfl,hf,rfl,fun t ht => hpre t (by simp [ht])⟩

open Classical in
/-- What a layer says about a path of the image. -/
noncomputable def imageWalk (p : Path) (s : MountSource ι) : Walk ι :=
  match s.lookup p 0 with
  | some fi => if Visible p then .found fi else .hidden
  | none => if Removes s p then .hidden else .miss

theorem image_eq_firstFound (layers : List (MountSource ι)) (p : Path) :
    image layers p=firstFound (imageWalk p) (topDown layers) := by
  rw [image,foldl_eq_foldr_reverse,topDown]
  induction layers.zipIdx.reverse with
  | nil => rfl
  | cons x l ih =>
    rw [foldr_cons,applyLayer,firstFound,imageWalk]
    cases hl : x.1.lookup p 0 with
    | some fi =>
      dsimp only
      split_ifs <;> rfl
    | none =>
      dsimp only
      split_ifs
      · rfl
      · exact ih

theorem imageWalk_found_iff {p : Path} (hp : Visible p) (s : MountSource ι) (fi : FileInfo ι) :
    imageWalk p s = .found fi ↔ s.lookup p 0=some fi := by
  rw [imageWalk]
  cases s.lookup p 0 with
  | some fi' => simp [hp]
  | none => simp; split_ifs <;> simp

theorem imageWalk_miss_iff (p : Path) (s : MountSource ι) :
    imageWalk p s = .miss ↔ s.lookup p 0=none ∧ ¬Removes s p := by
  rw [imageWalk]
  cases s.lookup p 0 with
  | some fi => simp; split_ifs <;> simp
  | none => simp

theorem eq_of_topDown {pre post : List (MountSource ι × ℕ)} {li : ℕ} (h : topDown layers=pre++(s,li)::post) :
    layers=(post.map Prod.fst).reverse++s::(pre.map Prod.fst).reverse ∧ layers[li]?=some s := by
  have hz : layers.zipIdx=(pre++(s,li)::post).reverse := by rw [←h,topDown,reverse_reverse]
  constructor
  · have hmap:=congrArg (List.map Prod.fst) hz
    rw [zipIdx_map_fst] at hmap
    rw [hmap]
    simp
  · have hmem : (s,li)∈layers.zipIdx := by
      rw [hz]
      simp
    simpa using mem_zipIdx_iff_getElem?.mp hmem

theorem exists_topDown {lower upper : List (MountSource ι)} (h : layers=lower++s::upper) :
    ∃pre post,topDown layers=pre++(s,lower.length)::post ∧ pre.map Prod.fst=upper.reverse := by
  subst h
  refine ⟨(upper.zipIdx (lower.length+1)).reverse,lower.zipIdx.reverse,?_,?_⟩
  · simp [topDown,zipIdx_append]
  · simp [zipIdx_map_fst]

end Ratarmount.Oci
