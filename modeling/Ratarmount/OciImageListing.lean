import Ratarmount.OciImageWalk

/-!
# The listing of an image's directory

The loop over the layers shows a child with the entry of the topmost layer that
decides about it in that directory.
-/

namespace Ratarmount.Oci

open Mount List

variable {ι : Type}

section Listing

variable {β : Type}

structure Listed (s : MountSource ι) (path : Path) (entries : Option (List (Str × Option β))) : Prop where
  empty : entries = none → ∀ n, s.lookup (path ++ [n]) 0 = none
  name : ∀ es, entries = some es → ∀ n, (∃ b, (n,some b) ∈ es) ↔ (s.lookup (path ++ [n]) 0).isSome = true
  value : ∀ es, entries = some es → ∀ n o, (n,o) ∈ es → ∃ b, o = some b
  unique : ∀ es, entries = some es → ∀ n b b', (n,some b) ∈ es → (n,some b') ∈ es → b = b'

theorem mem_addEntries {hidden : List Str} {map : List (Str × β)} {es : List (Str × Option β)}
    (hval : ∀n o,(n,o)∈es→∃b,o=some b) (huniq : ∀n b b',(n,some b)∈es→(n,some b')∈es → b=b') (n : Str) (b : β) :
    (n,b)∈addEntries hidden map es ↔ (n,b)∈map ∨
      (isWhiteoutName n=false ∧ n∉hidden ∧ n∉map.map Prod.fst ∧ (n,some b)∈es) := by
  induction es generalizing map with
  | nil => simp [addEntries]
  | cons e es ih =>
    obtain ⟨m,o⟩:=e
    have hval' : ∀n o,(n,o)∈es→∃b,o=some b:=fun n o h => hval n o (by simp [h])
    have huniq' : ∀n b b',(n,some b)∈es→(n,some b')∈es → b=b' :=
      fun n b b' h h' => huniq n b b' (by simp [h]) (by simp [h'])
    rw [addEntries,foldl_cons]
    split_ifs with hskip
    · rw [←addEntries,ih hval' huniq']
      grind
    · rw [←addEntries,ih hval' huniq']
      grind

variable (entriesOf : MountSource ι → ℕ → Path → Option (List (Str × Option β))) (path : Path)

def Gives (s : MountSource ι) (li : ℕ) (n : Str) (b : β) : Prop := ∃ es, entriesOf s li path = some es ∧ (n,some b) ∈ es

/-- The topmost layer that decides about `n` in `path` lists it with `b`. -/
def Shown (n : Str) (b : β) : List (MountSource ι × ℕ) → Prop
  | [] => False
  | (s,li) :: l => Gives entriesOf path s li n b ∨ (¬Decides s path n ∧ Shown n b l)

variable {entriesOf path}

variable {s : MountSource ι}

theorem Listed.isSome_of_gives {li : ℕ} (h : Listed s path (entriesOf s li path)) {n : Str} {b : β}
    (hg : Gives entriesOf path s li n b) : (s.lookup (path++[n]) 0).isSome=true := by
  obtain ⟨es,hes,hmem⟩:=hg
  exact (h.name es hes n).mp ⟨b,hmem⟩

theorem shown_iff {n : Str} {b : β} {l : List (MountSource ι × ℕ)} :
    Shown entriesOf path n b l ↔ ∃pre s li post,l=pre++(s,li)::post ∧ Gives entriesOf path s li n b ∧
      ∀t∈pre,¬Decides t.1 path n := by
  induction l with
  | nil => simp [Shown]
  | cons x l ih =>
    obtain ⟨s,li⟩:=x
    rw [Shown,ih]
    constructor
    · rintro (hg | ⟨hd,pre,s',li',post,rfl,hg,hpre⟩)
      · exact ⟨[],s,li,l,rfl,hg,by simp⟩
      · refine ⟨(s,li)::pre,s',li',post,rfl,hg,?_⟩
        simpa [hd] using hpre
    · rintro ⟨pre,s',li',post,hl,hg,hpre⟩
      cases pre with
      | nil =>
        obtain ⟨⟨rfl,rfl⟩,rfl⟩:=hl
        exact .inl hg
      | cons y pre =>
        obtain ⟨rfl,rfl⟩:=hl
        exact .inr ⟨hpre (s,li) (by simp),pre,s',li',post,rfl,hg,fun t ht => hpre t (by simp [ht])⟩

/-- A layer with a listing decides about a child by what the listing holds. -/
theorem Listed.decides_iff {es : List (Str × Option β)} (h : Listed s path (some es))
    (hdir : ¬(path≠[] ∧ ((s.lookup path 0).map (fun fi => isDirMode fi.mode))=some false)) (n : Str) :
    Decides s path n ↔ (∃b,(n,some b)∈es) ∨ n∈es.filterMap (fun e => whiteoutTarget e.1) ∨
      opaqueWhiteout∈es.map Prod.fst := by
  have hname (m : Str) : hasMarker s path m=true ↔ m∈es.map Prod.fst := by
    rw [hasMarker,←h.name es rfl m,mem_map]
    constructor
    · rintro ⟨b,hb⟩
      exact ⟨_,hb,rfl⟩
    · rintro ⟨⟨_,o⟩,he,rfl⟩
      obtain ⟨b,rfl⟩:=h.value es rfl _ _ he
      exact ⟨b,he⟩
  rw [Decides,←h.name es rfl n]
  simp only [mem_filterMap]
  grind

theorem mem_overlayLoop {l : List (MountSource ι × ℕ)} (hl : ∀t∈l,IsLayer t.1)
    (hlist : ∀t∈l,Listed t.1 path (entriesOf t.1 t.2 path)) {map : List (Str × β)} {hidden : List Str} {any : Bool}
    (hany : any=false → map=[]) (n : Str) (b : β) :
    (∃m,overlayLoop entriesOf path l map hidden any=some m ∧ (n,b)∈m) ↔ (n,b)∈map ∨
      (isWhiteoutName n=false ∧ n∉hidden ∧ n∉map.map Prod.fst ∧ Shown entriesOf path n b l) := by
  have hstop (map : List (Str × β)) (any : Bool) (hany : any=false → map=[]) :
      (∃m,(if any then some map else none)=some m ∧ (n,b)∈m) ↔ (n,b)∈map := by
    cases any with
    | true => simp
    | false => simp [hany rfl]
  induction l generalizing map hidden any with
  | nil => simp only [overlayLoop,hstop map any hany,Shown,and_false,or_false]
  | cons x l ih =>
    obtain ⟨s,li⟩:=x
    have hs:=hl (s,li) (by simp)
    have hls : Listed s path (entriesOf s li path):=hlist (s,li) (by simp)
    have hl' : ∀t∈l,IsLayer t.1:=fun t ht => hl t (by simp [ht])
    have hlist' : ∀t∈l,Listed t.1 path (entriesOf t.1 t.2 path):=fun t ht => hlist t (by simp [ht])
    rw [overlayLoop,Shown]
    by_cases hdir : path≠[] ∧ ((s.lookup path 0).map (fun fi => isDirMode fi.mode))=some false
    · -- nothing below a non-directory: neither this layer nor one under it shows a child
      rw [if_pos hdir,hstop map any hany]
      obtain ⟨fi,hfi,hmode⟩:=Option.map_eq_some_iff.mp hdir.2
      have hd : Decides s path n:=.inr (.inr (.inr ⟨hdir.1,fi,hfi,hmode⟩))
      have hg : ¬Gives entriesOf path s li n b := by
        intro hg
        obtain ⟨fi',hfi',hmode'⟩:=hs.ancestors path [n] hdir.1 (by simp) (hls.isSome_of_gives hg)
        rw [hfi,Option.some.injEq] at hfi'
        rw [hfi',hmode'] at hmode
        cases hmode
      simp [hd,hg]
    · rw [if_neg hdir]
      cases hes : entriesOf s li path with
      | none =>
        refine (ih hl' hlist' hany).trans ?_
        have hg : ¬Gives entriesOf path s li n b := by simp [Gives,hes]
        have hd : ¬Decides s path n := by
          have hnone:=hls.empty hes
          rintro (h | ⟨m,hm,-⟩ | h | ⟨hp,fi,hfi,hmode⟩)
          · simp [hnone] at h
          · simp [hasMarker,hnone] at hm
          · simp [hasMarker,hnone] at h
          · exact hdir ⟨hp,by rw [hfi,Option.map_some,hmode]⟩
        simp [hg,hd]
      | some es =>
        have hls':=hes ▸ hls
        have hd:=hls'.decides_iff hdir n
        have hadd:=@mem_addEntries β hidden map es (hls'.value es rfl) (hls'.unique es rfl) n
        have hg : Gives entriesOf path s li n b ↔ (n,some b)∈es := by simp [Gives,hes]
        dsimp only
        split_ifs with hop
        · simp only [Option.some.injEq,exists_eq_left',hadd,hg,hd,hop,or_true,not_true,false_and,or_false]
        · have hkeys : n∈(addEntries hidden map es).map Prod.fst ↔ n∈map.map Prod.fst ∨
              (isWhiteoutName n=false ∧ n∉hidden ∧ n∉map.map Prod.fst ∧ ∃b,(n,some b)∈es) := by
            have hfst (m : List (Str × β)) : n∈m.map Prod.fst ↔ ∃b,(n,b)∈m := by simp
            rw [hfst,hfst]
            grind
          refine (ih hl' hlist' (by simp)).trans ?_
          grind

end Listing

variable {s : MountSource ι} {path : Path}

theorem gives_infosOf (hs : IsLayer s) {li : ℕ} {n : Str} {hit : Hit ι} :
    Gives infosOf path s li n hit ↔ ∃fi,s.lookup (path++[n]) 0=some fi ∧ hit={ layer := some li, info := fi } := by
  cases hl : s.list path with
  | none => simp [Gives,infosOf,hl,hs.list_none path hl]
  | some r =>
    cases r with
    | infos m =>
      simp [Gives,infosOf,hl,hs.list_infos path m hl,eq_comm]
    | names names =>
      simp only [Gives,infosOf,hl,Option.map_some,Option.some.injEq,exists_eq_left',mem_map,Prod.mk.injEq,
        hs.list_names path names hl]
      constructor
      · rintro ⟨_,-,rfl,h⟩
        obtain ⟨fi,hfi,rfl⟩:=Option.map_eq_some_iff.mp h
        exact ⟨fi,hfi,rfl⟩
      · rintro ⟨fi,hfi,rfl⟩
        exact ⟨n,by rw [hfi,Option.isSome_some],rfl,by rw [hfi,Option.map_some]⟩

theorem listed_infosOf (hs : IsLayer s) (li : ℕ) (path : Path) : Listed s path (infosOf s li path) := by
  have hmem : ∀es,infosOf s li path=some es→∀n hit,(n,some hit)∈es ↔
      ∃fi,s.lookup (path++[n]) 0=some fi ∧ hit={ layer := some li, info := fi } := by
    intro es hes n hit
    rw [←gives_infosOf hs]
    simp [Gives,hes]
  refine ⟨fun hnone => hs.list_none path (Option.map_eq_none_iff.mp hnone),?_,?_,?_⟩
  · intro es hes n
    rw [Option.isSome_iff_exists]
    simp [hmem es hes]
  · intro es hes n o h
    obtain ⟨r,hl,rfl⟩:=Option.map_eq_some_iff.mp hes
    cases r with
    | infos m =>
      obtain ⟨e,-,heq⟩:=mem_map.mp h
      exact ⟨_,(Prod.mk.inj heq).2.symm⟩
    | names names =>
      obtain ⟨n',hn,heq⟩:=mem_map.mp h
      obtain ⟨fi,hfi⟩:=Option.isSome_iff_exists.mp ((hs.list_names path names hl n').mp hn)
      rw [hfi] at heq
      exact ⟨_,(Prod.mk.inj heq).2.symm⟩
  · intro es hes n b b' h h'
    obtain ⟨fi,hfi,rfl⟩:=(hmem es hes n b).mp h
    obtain ⟨fi',hfi',rfl⟩:=(hmem es hes n b').mp h'
    rw [hfi,Option.some.injEq] at hfi'
    rw [hfi']

theorem listed_direntsOf (hs : IsLayer s) (li : ℕ) (path : Path) : Listed s path (direntsOf s li path) := by
  cases hl : s.listDirents path with
  | none =>
    have hnone : direntsOf s li path=none := by rw [direntsOf,hl,Option.map_none]
    rw [hnone]
    exact ⟨fun _ => hs.dirents_none path hl,by simp,by simp,by simp⟩
  | some dents =>
    have hsome : direntsOf s li path=some (dents.map (fun d => (d.name,some d))) := by
      rw [direntsOf,hl,Option.map_some]
    rw [hsome]
    refine ⟨by simp,?_,?_,?_⟩
    · rintro es ⟨⟩ n
      rw [←hs.dirents path dents hl n]
      simp only [mem_map,Prod.mk.injEq]
      grind
    · rintro es ⟨⟩ n o h
      obtain ⟨d,-,heq⟩:=mem_map.mp h
      exact ⟨d,(Prod.mk.inj heq).2.symm⟩
    · rintro es ⟨⟩ n b b' h h'
      simp only [mem_map,Prod.mk.injEq,Option.some.injEq] at h h'
      obtain ⟨_,hd,rfl,rfl⟩:=h
      obtain ⟨_,hd',hname,rfl⟩:=h'
      exact hs.dirents_unique path dents hl _ hd _ hd' hname.symm

theorem name_of_gives_direntsOf {li : ℕ} {n : Str} {d : Dirent} (h : Gives direntsOf path s li n d) : n=d.name := by
  obtain ⟨es,hes,hmem⟩:=h
  obtain ⟨dents,-,rfl⟩:=Option.map_eq_some_iff.mp hes
  simp only [mem_map] at hmem
  obtain ⟨_,-,rfl,rfl⟩:=hmem
  rfl

end Ratarmount.Oci
