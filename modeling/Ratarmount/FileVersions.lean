import Ratarmount.MountSource

/-!
# Versions of a file as a folder

`FileVersionLayer`: below `<path>.versions` stand the numbers of the versions of the
path. The decoder asks the inner source at every component, and takes a component
that is not there and ends in `.versions` for the folder of the path before it.
-/

namespace Ratarmount.Versioning

open Mount List Numeral

def versionsSuffix : Str := ".versions".toList

def i32Text (v : ℤ) : Str :=
  if v < 0 then '-' :: Numeral.text 10 v.natAbs else Numeral.text 10 v.natAbs

def parseI32 (s : Str) : Option ℤ :=
  match s with
  | '-' :: rest => if rest.head? = some '+' then none else (Numeral.parse 10 (2 ^ 31 + 1) rest).map fun n => -n
  | _ => (Numeral.parse 10 (2 ^ 31) s).map fun n => n

structure Decoding where
  path : Path
  folder : Bool
  version : Option ℤ

variable {ι : Type} (inner : MountSource ι) (tag folderRest : ι → ι)

def decodePart (d : Decoding) (part : Str) : Option Decoding :=
  if d.folder then
    match parseI32 part with
    | some v => if i32Text v = part then some ⟨d.path,false,some v⟩ else none
    | none => none
  else if (inner.lookup (d.path ++ [part]) 0).isSome then some ⟨d.path ++ [part],false,some 0⟩
  else if versionsSuffix <:+ part ∧ part ≠ versionsSuffix then
    some ⟨d.path ++ [part.take (part.length - versionsSuffix.length)],true,some 0⟩
  else none

def decodeParts (path : Path) : Option Decoding := path.foldlM (decodePart inner) ⟨[],false,none⟩

/-- The inner path, whether the path is a versions folder, and the version. -/
def decode (path : Path) : Option (Path × Bool × ℤ) := do
  let d ← decodeParts inner path
  let v ← d.version
  some (d.path,d.folder,if d.folder then 0 else v)

def tagFile (fi : FileInfo ι) : FileInfo ι := { fi with rest := tag fi.rest }

def versionsFolderInfo (parent : FileInfo ι) : FileInfo ι := ⟨0o40755,[],folderRest parent.rest⟩

def lookup (path : Path) : Option (FileInfo ι) :=
  match inner.lookup path 0 with
  | some fi => some (tagFile tag fi)
  | none =>
    match decode inner path with
    | some (real,true,_) => (inner.lookup real 0).map (versionsFolderInfo folderRest)
    | some (real,false,ver) => (inner.lookup real ver).map (tagFile tag)
    | none => none

def list (path : Path) : Option (ListResult ι) :=
  match inner.list path with
  | some files => some files
  | none =>
    match decode inner path with
    | some (real,false,_) => inner.list real
    | some (real,true,_) =>
      if inner.versions real = 0 then none
      else some (.names ((List.range (inner.versions real)).map fun i => Numeral.text 10 (i + 1)))
    | none => none

def listed : ListResult ι → List Str
  | .infos entries => entries.map Prod.fst
  | .names names => names

/-- A tree whose files have their versions and whose names do not end in `.versions`. -/
structure IsVersioned (inner : MountSource ι) : Prop where
  parent : ∀ p c, (inner.lookup (p ++ [c]) 0).isSome → ∃ fi, inner.lookup p 0 = some fi ∧ isDirMode fi.mode = true
  newest : ∀ p k, (inner.lookup p k).isSome → (inner.lookup p 0).isSome
  names : ∀ p c, (inner.lookup (p ++ [c]) 0).isSome → ¬versionsSuffix <:+ c
  lists : ∀ p c, (inner.lookup (p ++ [c]) 0).isSome → ∃ files, inner.list p = some files ∧ c ∈ listed files
  directory : ∀ p, (inner.list p).isSome → (inner.lookup p 0).isSome
  versions : ∀ p k, 1 ≤ k → ((inner.lookup p k).isSome ↔ k ≤ (inner.versions p : ℤ))
  i32 : ∀ p, inner.versions p < 2 ^ 31

variable {inner tag folderRest} {p q : Path} {c part : Str} {d : Decoding}

theorem parseI32_canonical {k : ℕ} (h : k<2^31) : parseI32 (Numeral.text 10 k)=some (k : ℤ) := by
  have hparse:=parse_text (show 2≤10 by omega) (by omega) 0 h
  rw [replicate_zero,nil_append] at hparse
  unfold parseI32
  split
  · rename_i rest heq
    have hdash:=heq ▸ mem_cons_self
    rw [text_eq,mem_map] at hdash
    obtain ⟨x,hx,hxd⟩:=hdash
    have hlt:=textDigits_lt (by omega) hx
    have hnat:=congrArg Char.toNat hxd
    rw [toNat_digitChar hlt] at hnat
    have : '-'.toNat=45 := rfl
    omega
  · rw [hparse]
    rfl

theorem decodeParts_concat (q : Path) (part : Str) :
    decodeParts inner (q++[part])=(decodeParts inner q).bind fun d => decodePart inner d part := by
  simp [decodeParts]

/-- Nothing stands behind the number of a version, and the number is not below 1. -/
def EndsAtVersion (q : Path) : Prop :=
  ∀ w c v r, q = w ++ [c ++ versionsSuffix,i32Text v] ++ r → 1 ≤ v ∧ r = []

theorem EndsAtVersion.init (h : EndsAtVersion (q++[part])) : EndsAtVersion q := by
  intro w c v r hr
  obtain ⟨hv,hnil⟩:=h w c v (r++[part]) (by rw [hr,append_assoc])
  exact ⟨hv,(append_eq_nil_iff.1 hnil).1⟩

/-- The inner paths, the folders of the members and their versions. -/
inductive Served (inner : MountSource ι) : Path → Prop
  | plain {q : Path} (h : (inner.lookup q 0).isSome) : Served inner q
  | folder {p : Path} {c : Str} (hc : c ≠ []) (h : (inner.lookup (p ++ [c]) 0).isSome) :
      Served inner (p ++ [c ++ versionsSuffix])
  | version {p : Path} {c : Str} {k : ℕ} (hc : c ≠ []) (h1 : 1 ≤ k) (hk : k ≤ inner.versions (p ++ [c])) :
      Served inner (p ++ [c ++ versionsSuffix,Numeral.text 10 k])

inductive Decoded (inner : MountSource ι) : Path → Decoding → Prop
  | start : Decoded inner [] ⟨[],false,none⟩
  | plain {q : Path} (h : (inner.lookup q 0).isSome) : Decoded inner q ⟨q,false,some 0⟩
  | folder {p : Path} {c : Str} (hc : c ≠ []) : Decoded inner (p ++ [c ++ versionsSuffix]) ⟨p ++ [c],true,some 0⟩
  | version {p : Path} {c : Str} (v : ℤ) (hc : c ≠ []) :
      Decoded inner (p ++ [c ++ versionsSuffix,i32Text v]) ⟨p ++ [c],false,some v⟩

theorem decoded_step (hq : EndsAtVersion (q++[part])) (hd : Decoded inner q d) {d' : Decoding}
    (h : decodePart inner d part=some d') : Decoded inner (q++[part]) d' := by
  have named : ∀v,decodePart inner ⟨q,false,v⟩ part=some d' → Decoded inner (q++[part]) d' := by
    intro v h
    rw [decodePart,if_neg Bool.false_ne_true] at h
    split_ifs at h with hin hsuffix
    · cases h
      exact .plain hin
    · obtain ⟨⟨c,rfl⟩,hne⟩:=hsuffix
      have hc : c≠[]:=fun h => hne (by rw [h,nil_append])
      rw [length_append,Nat.add_sub_cancel,take_left] at h
      cases h
      exact .folder hc
  cases hd with
  | start => exact named none h
  | plain _ => exact named _ h
  | folder hc =>
    rw [decodePart,if_pos rfl] at h
    split at h
    · split_ifs at h with htext
      cases h
      rw [←htext,append_assoc]
      exact .version _ hc
    · cases h
  | version v hc => exact absurd (hq _ _ v [part] rfl).2 (cons_ne_nil _ _)

theorem decoded_of_parts (hq : EndsAtVersion q) (h : decodeParts inner q=some d) : Decoded inner q d := by
  induction q using List.reverseRecOn generalizing d with
  | nil =>
    cases h
    exact .start
  | append_singleton q part ih =>
    rw [decodeParts_concat] at h
    obtain ⟨d₀,hd₀,hd⟩:=Option.bind_eq_some_iff.1 h
    exact decoded_step hq (ih hq.init hd₀) hd

section Tree

variable (hi : IsVersioned inner)
include hi

theorem parts_of_inner (h : (inner.lookup q 0).isSome) : ∃v,decodeParts inner q=some ⟨q,false,v⟩ := by
  induction q using List.reverseRecOn with
  | nil => exact ⟨none,rfl⟩
  | append_singleton q part ih =>
    obtain ⟨fi,hfi,-⟩:=hi.parent q part h
    obtain ⟨v,hv⟩:=ih (by rw [hfi]; rfl)
    refine ⟨some 0,?_⟩
    rw [decodeParts_concat,hv,Option.bind_some,decodePart,if_neg Bool.false_ne_true,if_pos h]

theorem parts_of_folder (hc : c≠[]) (h : (inner.lookup (p++[c]) 0).isSome) :
    decodeParts inner (p++[c++versionsSuffix])=some ⟨p++[c],true,some 0⟩ := by
  obtain ⟨fi,hfi,-⟩:=hi.parent p c h
  obtain ⟨v,hv⟩:=parts_of_inner hi (q:=p) (by rw [hfi]; rfl)
  have hout : ¬(inner.lookup (p++[c++versionsSuffix]) 0).isSome :=
    fun h => hi.names _ _ h (suffix_append _ _)
  have hne : c++versionsSuffix≠versionsSuffix := by
    intro h
    exact hc (append_left_eq_self.1 h)
  rw [decodeParts_concat,hv,Option.bind_some,decodePart,if_neg Bool.false_ne_true,if_neg hout,
    if_pos ⟨suffix_append _ _,hne⟩,length_append,Nat.add_sub_cancel,take_left]

theorem parts_of_version (hc : c≠[]) (h : (inner.lookup (p++[c]) 0).isSome) {k : ℕ} (hk : k<2^31) :
    decodeParts inner (p++[c++versionsSuffix,Numeral.text 10 k])=some ⟨p++[c],false,some k⟩ := by
  have hsplit : p++[c++versionsSuffix,Numeral.text 10 k]=p++[c++versionsSuffix]++[Numeral.text 10 k] := by
    rw [append_assoc]
    rfl
  have htext : i32Text (k : ℤ)=Numeral.text 10 k := by
    rw [i32Text,if_neg (by omega),Int.natAbs_natCast]
  rw [hsplit,decodeParts_concat,parts_of_folder hi hc h,Option.bind_some,decodePart,if_pos rfl,parseI32_canonical hk]
  dsimp only
  rw [if_pos htext]

theorem inner_folder_none (h : versionsSuffix <:+ c) (r : Path) : inner.lookup (p++[c]++r) 0=none := by
  induction r using List.reverseRecOn with
  | nil =>
    rw [append_nil,←Option.not_isSome_iff_eq_none]
    exact fun hsome => hi.names p c hsome h
  | append_singleton r x ih =>
    rw [←Option.not_isSome_iff_eq_none,←append_assoc]
    intro hsome
    obtain ⟨fi,hfi,-⟩:=hi.parent _ x hsome
    rw [ih] at hfi
    cases hfi

theorem lookup_folder (hc : c≠[]) (h : (inner.lookup (p++[c]) 0).isSome) :
    lookup inner tag folderRest (p++[c++versionsSuffix]) =
      (inner.lookup (p++[c]) 0).map (versionsFolderInfo folderRest) := by
  have hnone:=inner_folder_none hi (p:=p) (suffix_append c versionsSuffix) []
  rw [append_nil] at hnone
  rw [lookup,hnone,decode,parts_of_folder hi hc h]
  rfl

theorem lookup_version (hc : c≠[]) {k : ℕ} (h1 : 1≤k) (hk : k ≤ inner.versions (p++[c])) :
    lookup inner tag folderRest (p++[c++versionsSuffix,Numeral.text 10 k]) =
      (inner.lookup (p++[c]) k).map (tagFile tag) := by
  have hhas : (inner.lookup (p++[c]) k).isSome:=(hi.versions _ k (by omega)).2 (by omega)
  have hnone:=inner_folder_none hi (p:=p) (suffix_append c versionsSuffix) [Numeral.text 10 k]
  rw [append_assoc,singleton_append] at hnone
  have hi32:=hi.i32 (p++[c])
  rw [lookup,hnone,decode,parts_of_version hi hc (hi.newest _ _ hhas) (by omega)]
  rfl

theorem served_of_found (hq : EndsAtVersion q) (h : (lookup inner tag folderRest q).isSome) : Served inner q := by
  by_cases hin : (inner.lookup q 0).isSome
  · exact .plain hin
  rw [lookup,Option.not_isSome_iff_eq_none.1 hin,decode] at h
  cases hd : decodeParts inner q with
  | none =>
    rw [hd] at h
    cases h
  | some d =>
    rw [hd] at h
    cases decoded_of_parts hq hd with
    | start => cases h
    | plain hsome => exact absurd hsome hin
    | folder hc => exact .folder hc (by simpa using h)
    | @version p c v hc =>
      have hv:=(hq p c v [] (by rw [append_nil])).1
      have hhas : (inner.lookup (p++[c]) v).isSome := by simpa using h
      have hle:=(hi.versions _ v hv).1 hhas
      rw [i32Text,if_neg (by omega)]
      exact .version hc (by omega) (by omega)

end Tree

def oneFolder : MountSource Unit where
  lookup p k :=
    if (k = 0 ∨ k = 1) ∧ (p = [] ∨ p = ["d".toList] ∨ p = ["d".toList,"f".toList]) then
      some ⟨if p = ["d".toList,"f".toList] then 0o100644 else 0o40755,[],()⟩
    else none
  versions p := if p = [] ∨ p = ["d".toList] ∨ p = ["d".toList,"f".toList] then 1 else 0
  list p :=
    if p = [] then some (.names ["d".toList])
    else if p = ["d".toList] then some (.names ["f".toList]) else none
  listDirents _ := none
  isImmutable := true

theorem oneFolder_lookup (p : Path) (k : ℤ) : (oneFolder.lookup p k).isSome ↔
    (k=0 ∨ k=1) ∧ (p=[] ∨ p=["d".toList] ∨ p=["d".toList,"f".toList]) :=
  Option.isSome_ite

theorem oneFolder_child (h : (oneFolder.lookup (p++[c]) 0).isSome) :
    p=[] ∧ c = "d".toList ∨ p=["d".toList] ∧ c = "f".toList := by
  rcases ((oneFolder_lookup _ _).1 h).2 with h | h | h
  · exact absurd h (by simp)
  · obtain ⟨hp,hc⟩:=append_inj' (show p++[c]=[]++["d".toList] from h) rfl
    exact .inl ⟨hp,singleton_inj.1 hc⟩
  · obtain ⟨hp,hc⟩:=append_inj' (show p++[c]=["d".toList]++["f".toList] from h) rfl
    exact .inr ⟨hp,singleton_inj.1 hc⟩

theorem oneFolder_versioned : IsVersioned oneFolder where
  parent p c h := by
    rcases oneFolder_child h with ⟨rfl,-⟩ | ⟨rfl,-⟩
    · exact ⟨_,rfl,by decide⟩
    · exact ⟨_,rfl,by decide⟩
  newest p k h := (oneFolder_lookup p 0).2 ⟨.inl rfl,((oneFolder_lookup p k).1 h).2⟩
  names p c h := by
    rcases oneFolder_child h with ⟨-,rfl⟩ | ⟨-,rfl⟩
    · decide
    · decide
  lists p c h := by
    rcases oneFolder_child h with ⟨rfl,rfl⟩ | ⟨rfl,rfl⟩
    · exact ⟨_,rfl,by decide⟩
    · exact ⟨_,rfl,by decide⟩
  directory p h := by
    refine (oneFolder_lookup p 0).2 ⟨.inl rfl,?_⟩
    unfold oneFolder at h
    dsimp only at h
    split_ifs at h with hroot hd
    · exact .inl hroot
    · exact .inr (.inl hd)
    · cases h
  versions p k h1 := by
    rw [oneFolder_lookup]
    unfold oneFolder
    dsimp only
    split_ifs with hp
    · constructor
      · omega
      · exact fun hk => ⟨by omega,hp⟩
    · constructor
      · exact fun h => absurd h.2 hp
      · omega
  i32 p := by
    unfold oneFolder
    dsimp only
    split_ifs
    · omega
    · omega

end Ratarmount.Versioning
