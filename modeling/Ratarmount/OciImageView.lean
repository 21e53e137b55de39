import Ratarmount.OciImageListing

/-!
# The view of an OCI image

What the union of the layers shows is the image where no layer removes a path of
a lower layer without a mark right in the directory of the path: `list` looks
into that directory only, and `lookup` forgets the marks above a directory that
the layer has itself.
-/

namespace Ratarmount.Oci

open Mount List Option

variable {ι : Type}

/-- Where a layer removes an entry from below, some layer above the entry decides about it in its directory; no
entry is below a whiteout, unless a layer above decides about it. -/
def NothingRevived (layers : List (MountSource ι)) : Prop :=
  ∀ lower s upper dir n, layers = lower ++ s :: upper → (∀ c ∈ dir, ArchivePath.Proper c) → isWhiteoutName n = false →
    (s.lookup (dir ++ [n]) 0).isSome = true → (¬Visible dir ∨ ∃ t ∈ upper, Removes t (dir ++ [n])) →
      ∃ t ∈ upper, Decides t dir n

/-- Lookup and both listings show the image. -/
structure ShowsImage (layers : List (MountSource ι)) : Prop where
  lookup : ∀ root path, components path ≠ [] → lookup layers root path 0 = image layers (components path)
  list : ∀ path n hit, (∃ m, overlayList layers path = some m ∧ (n,hit) ∈ m) ↔
    image layers (components path ++ [n]) = some hit
  dirents : ∀ path d, (∃ m, overlayListDirents layers path = some m ∧ d ∈ m) ↔
    ∃ li fi s dents, image layers (components path ++ [d.name]) = some { layer := some li, info := fi } ∧
      layers[li]? = some s ∧ s.listDirents (components path) = some dents ∧ d ∈ dents

variable {layers : List (MountSource ι)} {p : Path} {hit : Hit ι} {entries : List (Path × ℕ)}

theorem image_eq_some_iff : image layers p=some hit ↔ Visible p ∧ ∃pre s li post fi,topDown layers=pre++(s,li)::post ∧
      s.lookup p 0=some fi ∧ hit={ layer := some li, info := fi } ∧
        ∀t∈pre,t.1.lookup p 0=none ∧ ¬Removes t.1 p := by
  rw [image_eq_firstFound,firstFound_eq_some_iff]
  constructor
  · rintro ⟨pre,s,li,post,fi,hl,hf,hhit,hpre⟩
    have hvis : Visible p := by
      by_contra hv
      rw [imageWalk] at hf
      cases hs : s.lookup p 0 with
      | some fi => simp [hs,hv] at hf
      | none =>
        rw [hs] at hf
        split_ifs at hf
    exact ⟨hvis,pre,s,li,post,fi,hl,(imageWalk_found_iff hvis s fi).mp hf,hhit,
      fun t ht => (imageWalk_miss_iff p t.1).mp (hpre t ht)⟩
  · rintro ⟨hvis,pre,s,li,post,fi,hl,hf,hhit,hpre⟩
    exact ⟨pre,s,li,post,fi,hl,(imageWalk_found_iff hvis s fi).mpr hf,hhit,
      fun t ht => (imageWalk_miss_iff p t.1).mpr (hpre t ht)⟩

/-- Where nothing is revived, a listing shows what the image has. -/
theorem shown_iff_image (hno : NothingRevived layers) {β : Type}
    {entriesOf : MountSource ι → ℕ → Path → Option (List (Str × Option β))} {dir : Path}
    (hdir : ∀c∈dir,ArchivePath.Proper c) (hlist : ∀s∈layers,∀li,Listed s dir (entriesOf s li dir)) (n : Str) (b : β) :
    (isWhiteoutName n=false ∧ Shown entriesOf dir n b (topDown layers)) ↔
      ∃li fi s,image layers (dir++[n])=some { layer := some li, info := fi } ∧ layers[li]?=some s ∧
        Gives entriesOf dir s li n b := by
  constructor
  · rintro ⟨hn,hshown⟩
    obtain ⟨pre,s,li,post,htop,hg,hpre⟩:=shown_iff.mp hshown
    obtain ⟨hsplit,hli⟩:=eq_of_topDown htop
    have hsome:=(hlist s (mem_of_getElem? hli) li).isSome_of_gives hg
    have hclear : Visible dir ∧ ∀t∈pre,¬Removes t.1 (dir++[n]) := by
      by_contra hcon
      have hrem : ¬Visible dir ∨ ∃t∈(pre.map Prod.fst).reverse,Removes t (dir++[n]) := by
        by_cases hv : Visible dir
        · push Not at hcon
          obtain ⟨t,ht,hrem⟩:=hcon hv
          exact .inr ⟨t.1,by simpa using ⟨t.2,ht⟩,hrem⟩
        · exact .inl hv
      obtain ⟨t,ht,hd⟩:=hno _ s _ dir n hsplit hdir hn hsome hrem
      obtain ⟨x,hx,rfl⟩:=mem_map.mp (mem_reverse.mp ht)
      exact hpre x hx hd
    obtain ⟨fi,hfi⟩:=isSome_iff_exists.mp hsome
    refine ⟨li,fi,s,image_eq_some_iff.mpr ⟨?_,pre,s,li,post,fi,htop,hfi,rfl,fun t ht => ⟨?_,hclear.2 t ht⟩⟩,hli,hg⟩
    · intro c hc
      rcases mem_append.mp hc with hc | hc
      · exact hclear.1 c hc
      · rw [mem_singleton.mp hc,hn]
    · by_contra hne
      exact hpre t ht (.inl (isSome_iff_ne_none.mpr hne))
  · rintro ⟨li,fi,s,himg,hli,hg⟩
    obtain ⟨hvis,pre,s',li',post,fi',htop,hfi,heq,hpre⟩:=image_eq_some_iff.mp himg
    obtain ⟨rfl,rfl⟩ : li=li' ∧ fi=fi' := by simpa using heq
    have hs:=(eq_of_topDown htop).2
    rw [hli,Option.some.injEq] at hs
    subst hs
    refine ⟨hvis n (by simp),shown_iff.mpr ⟨pre,s,li,post,htop,hg,fun t ht hd => ?_⟩⟩
    exact (hpre t ht).2 (hd.removes (hpre t ht).1)

/-- An entry of the image is the entry of the layer that it names. -/
theorem layer_of_image (h : image layers p=some hit) :
    ∃li s fi,hit={ layer := some li, info := fi } ∧ layers[li]?=some s ∧ s.lookup p 0=some fi := by
  obtain ⟨-,pre,s,li,post,fi,htop,hfi,rfl,-⟩:=image_eq_some_iff.mp h
  exact ⟨li,s,fi,rfl,(eq_of_topDown htop).2,hfi⟩

section View

variable {layers : List (MountSource ι)} (hlayers : ∀ s ∈ layers, IsLayer s)

include hlayers

theorem isLayer_topDown : ∀t∈topDown layers,IsLayer t.1 := by
  intro t ht
  apply hlayers
  exact mem_of_getElem? (by simpa using mem_zipIdx_iff_getElem?.mp (mem_reverse.mp ht))

variable {path : Str}

theorem mem_overlayList {n : Str} {hit : Hit ι} : (∃m,overlayList layers path=some m ∧ (n,hit)∈m) ↔
      isWhiteoutName n=false ∧ Shown infosOf (components path) n hit (topDown layers) := by
  have hloop:=@mem_overlayLoop _ _ infosOf (components path) _ (isLayer_topDown hlayers)
    (fun t ht => listed_infosOf (isLayer_topDown hlayers t ht) t.2 _) [] [] false (fun _ => rfl) n hit
  simp only [not_mem_nil,map_nil,not_false_eq_true,true_and,false_or] at hloop
  rw [←hloop,overlayList]
  simp [inNameOrder]

theorem mem_overlayListDirents {d : Dirent} : (∃m,overlayListDirents layers path=some m ∧ d∈m) ↔
      isWhiteoutName d.name=false ∧ Shown direntsOf (components path) d.name d (topDown layers) := by
  have hloop (n : Str):=@mem_overlayLoop _ _ direntsOf (components path) _ (isLayer_topDown hlayers)
    (fun t ht => listed_direntsOf (isLayer_topDown hlayers t ht) t.2 _) [] [] false (fun _ => rfl) n d
  simp only [not_mem_nil,map_nil,not_false_eq_true,true_and,false_or] at hloop
  rw [←hloop,overlayListDirents]
  constructor
  · rintro ⟨m,hm,hd⟩
    obtain ⟨m',hm',rfl⟩:=map_eq_some_iff.mp hm
    obtain ⟨⟨n,d'⟩,hn,hd'⟩:=mem_map.mp hd
    subst hd'
    rw [inNameOrder,mem_insertionSort] at hn
    have hname : n=d'.name := by
      obtain ⟨-,hshown⟩:=(hloop n).mp ⟨m',hm',hn⟩
      obtain ⟨-,s,li,-,-,hg,-⟩:=shown_iff.mp hshown
      exact name_of_gives_direntsOf hg
    exact ⟨m',hm',hname ▸ hn⟩
  · rintro ⟨m,hm,hd⟩
    refine ⟨(inNameOrder m).map Prod.snd,by rw [hm,map_some],mem_map.mpr ⟨(d.name,d),?_,rfl⟩⟩
    rw [inNameOrder,mem_insertionSort]
    exact hd

theorem lookup_eq_image (hno : NothingRevived layers) (root : FileInfo ι) (hp : components path≠[]) :
    lookup layers root path 0=image layers (components path) := by
  have hproper:=components_proper path
  rw [lookup,if_neg hp]
  rcases eq_nil_or_concat' (components path) with hnil | ⟨dir,n,hpath⟩
  · exact absurd hnil hp
  rw [hpath] at hproper ⊢
  split_ifs with hwh
  · obtain ⟨c,hc,hcw⟩:=any_eq_true.mp hwh
    symm
    rw [eq_none_iff_forall_ne_some]
    intro hit himg
    have hvis:=(image_eq_some_iff.mp himg).1 c hc
    rw [hcw] at hvis
    cases hvis
  · have hvis : Visible (dir++[n]) := by
      intro c hc
      by_contra hcw
      exact hwh (any_eq_true.mpr ⟨c,hc,by simpa using hcw⟩)
    ext hit
    rw [image_eq_some_iff,firstFound_eq_some_iff]
    constructor
    · rintro ⟨pre,s,li,post,fi,htop,hf,hhit,hpre⟩
      obtain ⟨hsplit,hli⟩:=eq_of_topDown htop
      have hfi:=(walkLayer_found_iff (hlayers s (mem_of_getElem? hli)) dir n fi).mp hf
      have hlay : ∀t∈pre,IsLayer t.1:=fun t ht => isLayer_topDown hlayers t (htop ▸ mem_append_left _ ht)
      have hnd : ∀t∈pre,¬Decides t.1 dir n:=fun t ht hd => hd.walkLayer_ne_miss (hlay t ht) (hpre t ht)
      refine ⟨hvis,pre,s,li,post,fi,htop,hfi,hhit,fun t ht => ⟨?_,fun hrem => ?_⟩⟩
      · by_contra hne
        exact hnd t ht (.inl (isSome_iff_ne_none.mpr hne))
      · obtain ⟨t',ht',hd⟩:=hno _ s _ dir n hsplit (fun c hc => hproper c (by simp [hc])) (hvis n (by simp))
          (by rw [hfi,isSome_some]) (.inr ⟨t.1,by simpa using ⟨t.2,ht⟩,hrem⟩)
        obtain ⟨x,hx,rfl⟩:=mem_map.mp (mem_reverse.mp ht')
        exact hnd x hx hd
    · rintro ⟨-,pre,s,li,post,fi,htop,hf,hhit,hpre⟩
      have hlay:=isLayer_topDown hlayers
      rw [htop] at hlay
      refine ⟨pre,s,li,post,fi,htop,(walkLayer_found_iff (hlay (s,li) (by simp)) dir n fi).mpr hf,hhit,?_⟩
      intro t ht
      cases hw : walkLayer t.1 0 [] (dir++[n]) with
      | found fi' =>
        have := (walkLayer_found_iff (hlay t (by simp [ht])) dir n fi').mp hw
        rw [(hpre t ht).1] at this
        cases this
      | hidden => exact absurd (removes_of_walkLayer_hidden [] _ hw) (hpre t ht).2
      | miss => rfl

/-- A path that is shown against the image is revived. -/
theorem nothingRevived_of_list (hlist : ∀path n hit,(∃m,overlayList layers path=some m ∧ (n,hit)∈m) ↔
      image layers (components path++[n])=some hit) : NothingRevived layers := by
  intro lower s upper dir n hsplit hdir hn hsome hrem
  by_contra hcon
  push Not at hcon
  obtain ⟨pre,post,htop,hpre⟩:=exists_topDown hsplit
  have hupper (t : MountSource ι × ℕ) (ht : t∈pre) : ¬Decides t.1 dir n := by
    apply hcon
    rw [←mem_reverse,←hpre]
    exact mem_map_of_mem ht
  obtain ⟨fi,hfi⟩:=isSome_iff_exists.mp hsome
  have hshown:=shown_iff.mpr ⟨pre,s,lower.length,post,htop,
      (gives_infosOf (hlayers s (by simp [hsplit]))).mpr ⟨fi,hfi,rfl⟩,hupper⟩
  have himg:=(hlist (ArchivePath.join dir) n { layer:=some lower.length, info:=fi }).mp
    ((mem_overlayList hlayers).mpr ⟨hn,by rwa [components_join hdir]⟩)
  rw [components_join hdir] at himg
  obtain ⟨hvis,pre',s',li',post',fi',htop',hfi',-,hpre'⟩:=image_eq_some_iff.mp himg
  have hsub : ∀t∈pre,t∈pre' := by
    rw [htop] at htop'
    rcases append_eq_append_iff.mp htop' with ⟨as,rfl,-⟩ | ⟨bs,rfl,hbs⟩
    · exact fun t ht => mem_append_left _ ht
    · cases bs with
      | nil => simp
      | cons x bs =>
        have hx : x=(s',li') := by
          have := congrArg List.head? hbs
          simpa using this.symm
        subst hx
        exact absurd (.inl (by rw [hfi',isSome_some])) (hupper (s',li') (by simp))
  rcases hrem with hv | ⟨t,ht,hrem⟩
  · exact hv fun c hc => hvis c (by simp [hc])
  · rw [←mem_reverse,←hpre] at ht
    obtain ⟨x,hx,rfl⟩:=mem_map.mp ht
    exact (hpre' x (hsub x hx)).2 hrem

end View

def ofEntries (entries : List (Path × ℕ)) : MountSource Unit where
  lookup p _ := (entries.find? (fun e => e.1 = p)).map (fun e => { mode := e.2, linkname := [], rest := () })
  versions p := (entries.filter (fun e => e.1 = p)).length
  list p := some (.names (entries.filterMap (fun e => if e.1.dropLast = p then e.1.getLast? else none)))
  listDirents p := some ((entries.filterMap (fun e => if e.1.dropLast = p then e.1.getLast? else none)).filterMap
    (fun n => if h : n ≠ [] ∧ '/' ∉ n then some { name := n, mode := 0, proper := h } else none))
  isImmutable := true

/-- Proper names, and a directory above each entry. -/
def WellFormed (entries : List (Path × ℕ)) : Prop :=
  ∀ e ∈ entries, (∀ n ∈ e.1, n ≠ [] ∧ '/' ∉ n) ∧
    ∀ k < e.1.length, k ≠ 0 → ∃ fi, (ofEntries entries).lookup (e.1.take k) 0 = some fi ∧ isDirMode fi.mode = true

theorem isSome_ofEntries : ((ofEntries entries).lookup p 0).isSome=true ↔ ∃e∈entries,e.1=p := by
  simp [ofEntries]

theorem isLayer_ofEntries (h : WellFormed entries) : IsLayer (ofEntries entries) := by
  have hname (p : Path) (n : Str) : n∈entries.filterMap (fun e => if e.1.dropLast=p then e.1.getLast? else none) ↔
      ((ofEntries entries).lookup (p++[n]) 0).isSome=true := by
    rw [isSome_ofEntries,mem_filterMap]
    constructor
    · rintro ⟨e,he,hn⟩
      split_ifs at hn with hd
      exact ⟨e,he,by rw [←dropLast_append_getLast? n hn,hd]⟩
    · rintro ⟨e,he,hp⟩
      exact ⟨e,he,by simp [hp]⟩
  have hdent (p : Path) (dents : List Dirent) (hp : (ofEntries entries).listDirents p=some dents) (d : Dirent) :
      d∈dents ↔ ((ofEntries entries).lookup (p++[d.name]) 0).isSome=true ∧ d.mode=0 := by
    rw [←hname,←Option.some.inj hp,mem_filterMap]
    constructor
    · rintro ⟨n,hn,hd⟩
      split_ifs at hd
      cases hd
      exact ⟨hn,rfl⟩
    · rintro ⟨hn,hmode⟩
      exact ⟨d.name,hn,by rw [dif_pos d.proper,←hmode]⟩
  refine ⟨fun q r hq hr hsome => ?_,by simp [ofEntries],by simp [ofEntries],?_,by simp [ofEntries],?_,?_⟩
  · obtain ⟨e,he,heq⟩:=isSome_ofEntries.mp hsome
    have hlen:=length_pos_iff.mpr hr
    have hdir:=(h e he).2 q.length (by rw [heq,length_append]; omega) (by simpa using hq)
    rwa [heq,take_left] at hdir
  · rintro p names ⟨⟩ n
    exact hname p n
  · intro p dents hp n
    constructor
    · rintro ⟨d,hd,rfl⟩
      exact ((hdent p dents hp d).mp hd).1
    · intro hsome
      obtain ⟨e,he,heq⟩:=isSome_ofEntries.mp hsome
      exact ⟨⟨n,0,(h e he).1 n (by simp [heq])⟩,(hdent p dents hp _).mpr ⟨hsome,rfl⟩,rfl⟩
  · intro p dents hp d hd d' hd' heq
    have hmode:=((hdent p dents hp d).mp hd).2.trans ((hdent p dents hp d').mp hd').2.symm
    cases d
    cases d'
    cases heq
    cases hmode
    rfl

def sampleLower : List (Path × ℕ) := [([['d']],0o40755),([['d'],['x']],0o100644)]

/-- `d` whited out and made anew, without the file. -/
def sampleUpper : List (Path × ℕ) := [([".wh.d".toList],0o100644),([['d']],0o40755)]

theorem wellFormed_sampleLower : WellFormed sampleLower := by
  intro e he
  simp only [sampleLower,mem_cons,not_mem_nil,or_false] at he
  rcases he with rfl | rfl
  · refine ⟨by decide,fun k hk h0 => ?_⟩
    simp at hk
    omega
  · refine ⟨by decide,fun k hk h0 => ?_⟩
    have h1 : k=1 := by simp at hk; omega
    subst h1
    exact ⟨{ mode := 0o40755, linkname := [], rest := () },rfl,by decide⟩

theorem wellFormed_sampleUpper : WellFormed sampleUpper := by
  intro e he
  simp only [sampleUpper,mem_cons,not_mem_nil,or_false] at he
  rcases he with rfl | rfl
  all_goals
    refine ⟨by decide,fun k hk h0 => ?_⟩
    simp at hk
    omega

/-- `d/x` whited out, in a layer that has `d`. -/
def sampleMarked : List (Path × ℕ) := [([['d']],0o40755),([['d'],".wh.x".toList],0o100644)]

theorem wellFormed_sampleMarked : WellFormed sampleMarked := by
  intro e he
  simp only [sampleMarked,mem_cons,not_mem_nil,or_false] at he
  rcases he with rfl | rfl
  · refine ⟨by decide,fun k hk h0 => ?_⟩
    simp at hk
    omega
  · refine ⟨by decide,fun k hk h0 => ?_⟩
    have h1 : k=1 := by simp at hk; omega
    subst h1
    exact ⟨{ mode := 0o40755, linkname := [], rest := () },rfl,by decide⟩

/-- The layer decides about both entries of the lower one. -/
theorem decides_sampleMarked {dir : Path} {n : Str} (h : ((ofEntries sampleLower).lookup (dir++[n]) 0).isSome = true) :
    Decides (ofEntries sampleMarked) dir n := by
  obtain ⟨e,he,heq⟩:=isSome_ofEntries.mp h
  simp only [sampleLower,mem_cons,not_mem_nil,or_false] at he
  rcases he with rfl | rfl
  · obtain ⟨rfl,rfl⟩ : dir=[] ∧ n=['d'] := by
      have hsplit : dir++[n]=[]++[['d']]:=heq.symm
      simpa using append_inj' hsplit rfl
    exact .inl (by decide +kernel)
  · obtain ⟨rfl,rfl⟩ : dir=[['d']] ∧ n=['x'] := by
      have hsplit : dir++[n]=[['d']]++[['x']]:=heq.symm
      simpa using append_inj' hsplit rfl
    exact .inr (.inl ⟨".wh.x".toList,by decide +kernel,by decide +kernel⟩)

/-- The union shows the image exactly where nothing is revived. -/
theorem showsImage_iff (layers : List (MountSource ι)) (hlayers : ∀ s ∈ layers, IsLayer s) :
    ShowsImage layers ↔ NothingRevived layers := by
  constructor
  · intro h
    exact nothingRevived_of_list hlayers h.list
  · intro hno
    refine ⟨fun root path hp => lookup_eq_image hlayers hno root hp,fun path n hit => ?_,fun path d => ?_⟩
    · rw [mem_overlayList hlayers,shown_iff_image hno (components_proper path)
        (fun s hs li => listed_infosOf (hlayers s hs) li _)]
      constructor
      · rintro ⟨li,fi,s,himg,hli,hg⟩
        obtain ⟨fi',hfi',rfl⟩ := (gives_infosOf (hlayers s (mem_of_getElem? hli))).mp hg
        obtain ⟨li',s',fi'',heq,hli',hfi⟩ := layer_of_image himg
        obtain ⟨rfl,rfl⟩ : li = li' ∧ fi = fi'' := by simpa using heq
        rw [hli,Option.some.injEq] at hli'
        rw [← hli',hfi',Option.some.injEq] at hfi
        rw [himg,hfi]
      · intro himg
        obtain ⟨li,s,fi,rfl,hli,hfi⟩ := layer_of_image himg
        exact ⟨li,fi,s,himg,hli,(gives_infosOf (hlayers s (mem_of_getElem? hli))).mpr ⟨fi,hfi,rfl⟩⟩
    · rw [mem_overlayListDirents hlayers,shown_iff_image hno (components_proper path)
        (fun s hs li => listed_direntsOf (hlayers s hs) li _)]
      simp [Gives,direntsOf]

theorem showsImage_whiteout :
    (∀ s ∈ [ofEntries sampleLower,ofEntries sampleMarked], IsLayer s) ∧
      ShowsImage [ofEntries sampleLower,ofEntries sampleMarked] := by
  have hlayers : ∀ s ∈ [ofEntries sampleLower,ofEntries sampleMarked], IsLayer s := by
    simp [isLayer_ofEntries,wellFormed_sampleLower,wellFormed_sampleMarked]
  refine ⟨hlayers,(showsImage_iff _ hlayers).mpr ?_⟩
  intro lower s upper dir n hsplit hdir hn hsome hrem
  cases lower with
  | nil =>
    obtain ⟨rfl,rfl⟩ : ofEntries sampleLower = s ∧ [ofEntries sampleMarked] = upper := by simpa using hsplit
    exact ⟨_,mem_cons_self,decides_sampleMarked hsome⟩
  | cons t lower =>
    -- nothing lies above the upper layer, and its entries are in `d` or the root
    obtain ⟨rfl,-,rfl,rfl⟩ : lower = [] ∧ t = ofEntries sampleLower ∧ s = ofEntries sampleMarked ∧ upper = [] := by
      cases lower with
      | nil => simpa [eq_comm] using hsplit
      | cons t lower => simp at hsplit
    have hvis : Visible dir := by
      obtain ⟨e,he,heq⟩ := isSome_ofEntries.mp hsome
      have hd : dir = e.1.dropLast := by rw [heq,dropLast_concat]
      simp only [sampleMarked,mem_cons,not_mem_nil,or_false] at he
      rcases he with rfl | rfl
      · rw [hd]
        exact fun c hc => absurd hc (by simp)
      · rw [hd]
        intro c hc
        rw [show c = ['d'] by simpa using hc]
        decide
    simp [hvis] at hrem

/-- A directory that is whited out and made anew in one layer keeps the files of the layer below. -/
theorem lookup_revives_whited_out_file :
    (∀ s ∈ [ofEntries sampleLower,ofEntries sampleUpper], IsLayer s) ∧
      ¬ShowsImage [ofEntries sampleLower,ofEntries sampleUpper] := by
  refine ⟨by simp [isLayer_ofEntries,wellFormed_sampleLower,wellFormed_sampleUpper],fun h => ?_⟩
  have himg := h.lookup { mode := 0o40755, linkname := [], rest := () } "/d/x".toList (by decide +kernel)
  have hfound : lookup [ofEntries sampleLower,ofEntries sampleUpper] { mode := 0o40755, linkname := [], rest := () }
      "/d/x".toList 0 = some { layer := some 0, info := { mode := 0o100644, linkname := [], rest := () } } := by
    rfl
  rw [hfound] at himg
  obtain ⟨-,pre,s,li,post,fi,htop,-,heq,hpre⟩ := image_eq_some_iff.mp himg.symm
  cases pre with
  | nil =>
    have h1 : li = 1 := congrArg Prod.snd (List.cons.inj htop).1.symm
    simp [h1] at heq
  | cons x pre =>
    have hx := (List.cons.inj htop).1.symm
    subst hx
    exact (hpre _ mem_cons_self).2 (.inl ⟨[],['d'],[['x']],by decide +kernel,by decide +kernel⟩)

end Ratarmount.Oci
