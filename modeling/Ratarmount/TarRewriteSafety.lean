import Ratarmount.TarCursorWalk
import Ratarmount.TarWrittenMember

/-!
# What the suffix rewrite does to a tape

The rewrite keeps the bytes in front of the first header that its scan finds,
drops the named members behind it and closes the archive with the new ones. The
result is the tape without the named members when the scan finds a true record.
-/

namespace Ratarmount.Tar

open List Bytes ArchivePath Cursor UstarMember Item
open scoped Str

/-- Whether a member of the tape has a deleted name. -/
def doomed (enc : Encoding) (opts : RewriteTarSuffix) (g : PaxMap) (i : Item) : Bool :=
  i.name enc g ≠ [] ∧ i.name enc g ∈ opts.deleted

def survivors (enc : Encoding) (opts : RewriteTarSuffix) : PaxMap → List Item → List Item
  | _, [] => []
  | g, i :: items =>
    let rest := survivors enc opts (i.globalAfter g) items
    if doomed enc opts g i then rest else i :: rest

section Copy

variable {enc : Encoding} {opts : RewriteTarSuffix} {data : Bytes}

theorem copySpan_split {a b c : ℕ} (hab : a≤b) (hbc : b ≤ c) :
    copySpan data a c=copySpan data a b++copySpan data b c := by
  have hsum : c-a=(b-a)+(c-b) := by omega
  rw [copySpan,copySpan,copySpan,slice,slice,slice,hsum,take_add,drop_drop,show a+(b-a)=b by omega]

theorem copySpan_self (a : ℕ) : copySpan data a a=[] := by simp [copySpan,slice]

def rawItem (enc : Encoding) (g : PaxMap) (pos : ℕ) : Item → TarRawMember
  | .globalPax r => { rawStart := pos, rawEnd := pos + r.bytes.length, logicalPath := [], typeflag := 103 }
  | .member helpers main =>
    { rawStart := pos, rawEnd := pos + (member helpers main).bytes.length,
      logicalPath := (member helpers main).name enc g, typeflag := typeflag main.header }

theorem rawItems_cons (g : PaxMap) (pos : ℕ) (i : Item) (items : List Item) : rawItems enc g pos (i::items) =
      rawItem enc g pos i::rawItems enc (i.globalAfter g) (pos+i.bytes.length) items := by
  cases i <;> rfl

@[simp] theorem rawItem_rawStart (g : PaxMap) (pos : ℕ) (i : Item) : (rawItem enc g pos i).rawStart=pos := by
  cases i <;> rfl

@[simp] theorem rawItem_rawEnd (g : PaxMap) (pos : ℕ) (i : Item) :
    (rawItem enc g pos i).rawEnd=pos+i.bytes.length := by
  cases i <;> rfl

theorem drops_rawItem (g : PaxMap) (pos : ℕ) (i : Item) : opts.drops (rawItem enc g pos i)=doomed enc opts g i := by
  cases i with
  | globalPax r => simp [RewriteTarSuffix.drops,rawItem,doomed,name]
  | member helpers main =>
    have hflag:=main.flag.1
    rw [RewriteTarSuffix.drops,doomed,decide_eq_decide]
    simp [rawItem,name,normalize_normalize,hflag]

variable {g : PaxMap}

theorem copy_doomed {pos copyEnd : ℕ} {i : Item} {st : CopyState} (hd : doomed enc opts g i=true)
    (hfrom : st.copyFrom≤pos) (hend : pos+i.bytes.length ≤ copyEnd) :
    CopyState.member opts data copyEnd st (rawItem enc g pos i) =
      { out := st.out++copySpan data st.copyFrom pos, copyFrom := pos+i.bytes.length,
        dropped := st.dropped+1, kept := st.kept } := by
  have hdrop:=hd
  rw [←drops_rawItem g pos] at hdrop
  have hflag : (rawItem enc g pos i).typeflag≠103 := by
    have h:=hdrop
    simp only [RewriteTarSuffix.drops,decide_eq_true_eq] at h
    exact h.1
  have hspan : (if st.copyFrom<pos then copySpan data st.copyFrom pos else [])=copySpan data st.copyFrom pos := by
    split_ifs with hlt
    · rfl
    · rw [show st.copyFrom=pos by omega,copySpan_self]
  rw [CopyState.member,if_neg hflag,if_pos hdrop,rawItem_rawStart,rawItem_rawEnd,hspan,min_eq_left hend]

theorem copy_kept {g : PaxMap} {pos copyEnd : ℕ} {i : Item} {st : CopyState} (hd : doomed enc opts g i=false) :
    ∃kept,CopyState.member opts data copyEnd st (rawItem enc g pos i)={ st with kept } := by
  have hdrop:=hd
  rw [←drops_rawItem g pos] at hdrop
  rw [CopyState.member,hdrop]
  by_cases hg : (rawItem enc g pos i).typeflag=103
  · exact ⟨st.kept,by rw [if_pos hg]⟩
  · exact ⟨st.kept+1,by simp [hg]⟩

/-- The copy loop over the items from `pos` on: what is out and pending at the end, by induction on
the items. -/
theorem copy_items {g : PaxMap} {pos copyEnd : ℕ} {items : List Item} {pre rest : Bytes} {st : CopyState}
    (hdata : data=pre++(render items++rest)) (hpos : pos=pre.length) (hfrom : st.copyFrom≤pos)
    (hend : pos+(render items).length ≤ copyEnd) :
    let st' := (rawItems enc g pos items).foldl (CopyState.member opts data copyEnd) st
    st'.copyFrom≤pos+(render items).length ∧
      st'.out++copySpan data st'.copyFrom (pos+(render items).length) =
        st.out++(copySpan data st.copyFrom pos++render (survivors enc opts g items)) := by
  induction items generalizing g pos pre st with
  | nil => simpa [rawItems,survivors] using hfrom
  | cons i items ih =>
    have hnext : data=(pre++i.bytes)++(render items++rest) := by simp [hdata]
    have hcopy : copySpan data pos (pos+i.bytes.length)=i.bytes := by
      rw [show data=pre++(i.bytes++(render items++rest)) by simp [hdata]]
      exact slice_append _ _ _ hpos (by omega)
    rw [render_cons,length_append,←add_assoc] at hend ⊢
    rw [rawItems_cons,foldl_cons,survivors]
    have hih:=fun (st : CopyState) (h : st.copyFrom≤pos+i.bytes.length) =>
      @ih (i.globalAfter g) (pos+i.bytes.length) (pre++i.bytes) st hnext (by simp [hpos]) h hend
    cases hd : doomed enc opts g i with
    | true =>
      rw [copy_doomed hd hfrom (by omega)]
      obtain ⟨hle,hout⟩:=hih { out:=st.out++copySpan data st.copyFrom pos,
                                  copyFrom := pos+i.bytes.length, dropped := st.dropped+1,
                                  kept := st.kept } le_rfl
      refine ⟨hle,hout.trans ?_⟩
      simp [copySpan_self]
    | false =>
      obtain ⟨kept,hkept⟩:=@copy_kept enc opts data g pos copyEnd i st hd
      rw [hkept]
      obtain ⟨hle,hout⟩:=hih { st with kept } (by simp; omega)
      refine ⟨hle,hout.trans ?_⟩
      simp [copySpan_split hfrom (Nat.le_add_right pos i.bytes.length),hcopy]

theorem foldl_rawEnd (g : PaxMap) (pos : ℕ) (items : List Item) :
    (rawItems enc g pos items).foldl (fun a m => max a m.rawEnd) pos=pos+(render items).length := by
  induction items generalizing g pos with
  | nil => rfl
  | cons i items ih =>
    rw [rawItems_cons,foldl_cons,rawItem_rawEnd,max_eq_right (Nat.le_add_right _ _),ih,render_cons,
      length_append,add_assoc]

/-- The kept bytes of a window whose first header is the first record of `items`. -/
theorem keepMembers_items {items : List Item} {pre rest out : Bytes} {stats : RewriteTarSuffixStats}
    (hdata : data=pre++(render items++rest))
    (hrun : keepMembers opts data pre.length (rawItems enc g pre.length items) = .ok (out,stats)) :
    out=pre++render (survivors enc opts g items) := by
  have hend : min ((rawItems enc g pre.length items).foldl (fun a m => max a m.rawEnd) pre.length) data.length =
      pre.length+(render items).length := by
    rw [foldl_rawEnd,hdata,length_append,length_append]
    omega
  have hpre : copySpan data 0 pre.length=pre := by
    rw [copySpan,hdata,slice,drop_zero,Nat.sub_zero,take_left]
  rw [keepMembers,hend] at hrun
  split_ifs at hrun with hmissing
  obtain ⟨-,hout⟩:=@copy_items enc opts data g pre.length (pre.length+(render items).length) items pre rest
    { out := copySpan data 0 pre.length, copyFrom := pre.length } hdata rfl le_rfl le_rfl
  have heq:=(Prod.mk.inj (Except.ok.inj hrun)).1
  rw [←heq,hout,hpre,copySpan_self,nil_append]

end Copy

/-! ## Names do not depend on the global records -/

/-- The keys that decide a member's name and size. -/
def memberKeys : List Str := [PaxKey.path,PaxKey.sparseName,PaxKey.size]

/-- Two sets of global records that give every member the same name and size. -/
def SameNames (g g' : PaxMap) : Prop := ∀ key ∈ memberKeys, g key = g' key

section Names

variable {enc : Encoding} {opts : RewriteTarSuffix} {g g' : PaxMap}

theorem SameNames.extend (h : SameNames g g') (n : PaxMap) : SameNames (g.extend n) (g'.extend n) := by
  intro key hkey
  rw [PaxMap.extend,PaxMap.extend,h key hkey]

theorem SameNames.memberPax (h : SameNames g g') (helpers : List Helper) :
    SameNames (memberPax enc g helpers) (memberPax enc g' helpers) := h.extend _

theorem memberName_congr (h : SameNames g g') (header : Bytes) :
    memberName enc g header=memberName enc g' header := by
  rw [memberName,memberName,h _ (by simp [memberKeys]),h _ (by simp [memberKeys])]

theorem onTapeSize_congr (h : SameNames g g') (header : Bytes) : onTapeSize g header=onTapeSize g' header := by
  rw [onTapeSize,onTapeSize,h _ (by simp [memberKeys])]

theorem name_congr (h : SameNames g g') (i : Item) : i.name enc g=i.name enc g' := by
  cases i with
  | globalPax r => rfl
  | member helpers main => rw [name,name,memberName_congr (h.memberPax helpers)]

theorem SameNames.globalAfter (h : SameNames g g') (i : Item) : SameNames (i.globalAfter g) (i.globalAfter g') := by
  cases i with
  | globalPax r => exact h.extend _
  | member helpers main => exact h

variable {items : List Item}

theorem fits_congr (h : SameNames g g') (hfits : Fits enc g items) : Fits enc g' items := by
  induction items generalizing g g' with
  | nil => trivial
  | cons i items ih =>
    cases i with
    | globalPax r => exact ih (h.extend _) hfits
    | member helpers main => exact ⟨by rw [hfits.1,onTapeSize_congr (h.memberPax helpers)],ih h hfits.2⟩

theorem doomed_congr (h : SameNames g g') (i : Item) : doomed enc opts g i=doomed enc opts g' i := by
  rw [doomed,doomed,name_congr h]

theorem survivors_congr (h : SameNames g g') (items : List Item) :
    survivors enc opts g items=survivors enc opts g' items := by
  induction items generalizing g g' with
  | nil => rfl
  | cons i items ih => rw [survivors,survivors,doomed_congr h,ih (h.globalAfter i)]

/-- The global records of the tape name no member and give no size. -/
def NoGlobalNames (items : List Item) : Prop :=
  ∀ r, globalPax r ∈ items → ∀ key ∈ memberKeys, paxOf r.body key = none

theorem sameNames_globalAfter {i : Item} (h : ∀r,i = .globalPax r→∀key∈memberKeys,paxOf r.body key=none) :
    SameNames (i.globalAfter g) g := by
  intro key hkey
  cases i with
  | globalPax r =>
    rw [globalAfter,PaxMap.extend,h r rfl key hkey]
    rfl
  | member helpers main => rfl

theorem sameNames_foldl (h : NoGlobalNames items) : SameNames (items.foldl Item.globalAfter g) g := by
  induction items generalizing g with
  | nil => exact fun _ _ => rfl
  | cons i items ih =>
    have hi : SameNames (i.globalAfter g) g :=
      sameNames_globalAfter (fun r hr => h r (by rw [hr]; exact mem_cons_self))
    intro key hkey
    rw [foldl_cons,ih (fun r hr => h r (mem_cons_of_mem _ hr)) key hkey,hi key hkey]

theorem survivors_of_no_deleted (h : opts.deletedPaths=[]) (items : List Item) : survivors enc opts g items=items := by
  induction items generalizing g with
  | nil => rfl
  | cons i items ih =>
    rw [survivors,ih,if_neg (by simp [doomed,RewriteTarSuffix.deleted,h])]

theorem survivors_append (items items' : List Item) : survivors enc opts g (items++items') =
    survivors enc opts g items++survivors enc opts (items.foldl Item.globalAfter g) items' := by
  induction items generalizing g with
  | nil => rfl
  | cons i items ih =>
    rw [cons_append,survivors,survivors,ih,foldl_cons]
    cases doomed enc opts g i <;> rfl

theorem survivors_eq_self (hno : NoGlobalNames items) (h : ∀i∈items,doomed enc opts g i=false) :
    survivors enc opts g items=items := by
  induction items with
  | nil => rfl
  | cons i items ih =>
    have hi : SameNames (i.globalAfter g) g :=
      sameNames_globalAfter (fun r hr => hno r (by rw [hr]; exact mem_cons_self))
    rw [survivors,survivors_congr hi,h i mem_cons_self,
      ih (fun r hr => hno r (mem_cons_of_mem _ hr)) (fun j hj => h j (mem_cons_of_mem _ hj))]
    rfl

theorem fits_append (items items' : List Item) :
    Fits enc g (items++items') ↔ Fits enc g items ∧ Fits enc (items.foldl Item.globalAfter g) items' := by
  induction items generalizing g with
  | nil => exact ⟨fun h => ⟨trivial,h⟩,And.right⟩
  | cons i items ih =>
    cases i with
    | globalPax r => exact ih
    | member helpers main => exact (and_congr_right' ih).trans and_assoc.symm

/-- What stays fits as it did: no global record goes. -/
theorem fits_survivors (h : Fits enc g items) : Fits enc g (survivors enc opts g items) := by
  induction items generalizing g with
  | nil => trivial
  | cons i items ih =>
    cases i with
    | globalPax r => exact ih h
    | member helpers main =>
      rw [survivors]
      split_ifs
      · exact ih h.2
      · exact ⟨h.1,ih h.2⟩

theorem globals_survivors : (survivors enc opts g items).foldl Item.globalAfter g=items.foldl Item.globalAfter g := by
  induction items generalizing g with
  | nil => rfl
  | cons i items ih =>
    cases i with
    | globalPax r => exact ih
    | member helpers main =>
      rw [survivors]
      split_ifs
      · exact ih
      · exact ih

end Names

/-! ## The rewrite of a tape -/

/-- The items whose first helpers, `lost`, lie in front of the cut. -/
def restore (lost : List Helper) : List Item → List Item
  | .member helpers main :: items => .member (lost ++ helpers) main :: items
  | items => items

/-- Cutting helpers off the first member changes neither its size nor whether it is deleted. -/
def LosesNothing (enc : Encoding) (opts : RewriteTarSuffix) (lost : List Helper) : List Item → Prop
  | .member helpers main :: _ => lost = [] ∨
      (onTapeSize (memberPax enc PaxMap.empty helpers) main.header =
          onTapeSize (memberPax enc PaxMap.empty (lost ++ helpers)) main.header ∧
        doomed enc opts PaxMap.empty (.member helpers main) = false ∧
        doomed enc opts PaxMap.empty (.member (lost ++ helpers) main) = false)
  | _ => lost = []

/-- The scan of the window finds a record of the tape: the first one of `rest`. -/
structure CleanCut (enc : Encoding) (opts : RewriteTarSuffix) (t : Tape enc) (w : ℕ) (before : List Item)
    (lost : List Helper) (rest : List Item) : Prop where
  items : t.items = before ++ restore lost rest
  names : NoGlobalNames before
  inside : w ≤ (render before ++ helperBytes lost).length
  found : findFirstValidHeader (t.bytes.drop w) w = some ((render before ++ helperBytes lost).length - w)
  plain : ∀ i ∈ rest, Cursor.Plain i
  kept : ∀ i ∈ before, doomed enc opts PaxMap.empty i = false
  loses : LosesNothing enc opts lost rest

/-- The windows that the rewrite handles: the scan finds a true record, with no global record before it that names
members, or nothing when the window begins at the end of the data. What is appended is named by no global record. -/
def CleanWindow (enc : Encoding) (opts : RewriteTarSuffix) (t : Tape enc) (w : ℕ) : Prop :=
  (opts.append ≠ [] → NoGlobalNames t.items) ∧
    ((findFirstValidHeader (t.bytes.drop w) w = none ∧ w = (render t.items).length) ∨
      ∃ before lost rest, CleanCut enc opts t w before lost rest)

section Rewrite

variable {enc : Encoding} {opts : RewriteTarSuffix} {t : Tape enc} {w : ℕ}

variable {lost : List Helper} {rest before : List Item} {stats : RewriteTarSuffixStats}

theorem render_restore (h : LosesNothing enc opts lost rest) :
    render (restore lost rest)=helperBytes lost++render rest := by
  cases rest with
  | nil =>
    cases (h : lost=[])
    rfl
  | cons i rest =>
    cases i with
    | globalPax r =>
      cases (h : lost=[])
      rfl
    | member helpers main => simp [restore,bytes,helperBytes]

/-- What is cut off does not change which items survive. -/
theorem survivors_restore (h : LosesNothing enc opts lost rest) :
    render (survivors enc opts PaxMap.empty (restore lost rest)) =
      helperBytes lost++render (survivors enc opts PaxMap.empty rest) := by
  cases rest with
  | nil =>
    cases (h : lost=[])
    simp [restore,helperBytes,survivors]
  | cons i rest =>
    cases i with
    | globalPax r =>
      cases (h : lost=[])
      simp [restore,helperBytes]
    | member helpers main =>
      rcases (h : _ ∨ _) with rfl | ⟨-,h1,h2⟩
      · simp [restore,helperBytes]
      · simp [restore,survivors,globalAfter,h1,h2,bytes,helperBytes]

theorem fits_rest (hcut : CleanCut enc opts t w before lost rest) : Fits enc PaxMap.empty rest := by
  have hfits:=((fits_append before _).mp (hcut.items ▸ t.fits)).2
  replace hfits:=fits_congr (sameNames_foldl hcut.names) hfits
  have hloses:=hcut.loses
  cases rest with
  | nil => trivial
  | cons i rest =>
    cases i with
    | globalPax r => exact hfits
    | member helpers main =>
      rcases (hloses : _ ∨ _) with rfl | ⟨hsize,-,-⟩
      · exact hfits
      · exact ⟨hfits.1.trans hsize.symm,hfits.2⟩

/-- The bytes of the window that the rewrite keeps, when its scan finds a record of the tape. -/
theorem keep_window {kept : Bytes} {ms : List TarRawMember}
    (hcut : CleanCut enc opts t w before lost rest)
    (hwalk : Cursor.members enc (t.bytes.drop w) ((t.bytes.drop w).length / blockSize+2) { pos := (render before++helperBytes lost).length-w } = .ok ms)
    (hkeep : keepMembers opts (t.bytes.drop w) ((render before++helperBytes lost).length-w) ms = .ok (kept,stats)) :
    t.bytes.take w++kept=render (survivors enc opts PaxMap.empty t.items) := by
  generalize hfront : render before++helperBytes lost=front at hcut hwalk hkeep
  have hinside:=hfront ▸ hcut.inside
  have hbytes : t.bytes=front++(render rest++zeros t.trailer) := by
    rw [Tape.bytes,hcut.items,render_append,render_restore hcut.loses,←hfront]
    simp
  have hdata : t.bytes.drop w=front.drop w++(render rest++zeros t.trailer) := by
    rw [hbytes,drop_append_of_le_length hinside]
  have hpos : front.length-w=(front.drop w).length := by simp
  have hshort : (t.bytes.drop w).length<2^63 := by
    have := t.short
    rw [length_drop,Tape.bytes,length_append,length_zeros]
    omega
  have hfuel : (rest.map records).sum<(t.bytes.drop w).length / blockSize+2 := by
    have := sum_records_le rest
    rw [hdata,length_append,length_append,blockSize]
    omega
  have hms : ms=rawItems enc PaxMap.empty (front.drop w).length rest := by
    rw [hpos] at hwalk
    exact members_items hdata ⟨rfl,rfl,hshort⟩ rfl hcut.plain
      (fits_rest hcut) hfuel hwalk
  rw [hms,hpos] at hkeep
  have hkept:=keepMembers_items hdata hkeep
  rw [hkept,hbytes,take_append_of_le_length hinside,←append_assoc,take_append_drop,hcut.items,survivors_append,
    survivors_congr (sameNames_foldl hcut.names),survivors_eq_self hcut.names hcut.kept,render_append,
    survivors_restore hcut.loses,←hfront,append_assoc]

theorem rewriteTarSuffix_ok {suffix out : Bytes} (hrun : rewriteTarSuffix suffix w opts = .ok (out,stats)) :
    ∃kept written,opts.append.mapM write = .ok written ∧ out=kept++(written.flatten++tarEof) ∧
      match findFirstValidHeader suffix w with
      | none => kept=[] ∧ opts.deletedPaths=[]
      | some first => ∃ms stats',keepMembers opts suffix first ms = .ok (kept,stats') ∧
          Cursor.members opts.encoding suffix (suffix.length / blockSize+2) { pos := first } = .ok ms := by
  obtain ⟨⟨kept,keptStats⟩,hkept,hrest⟩:=bind_ok hrun
  obtain ⟨appended,happended,hout⟩:=bind_ok hrest
  obtain ⟨written,hwritten,happended⟩:=bind_ok happended
  injection happended with happended
  refine ⟨kept,written,hwritten,?_,?_⟩
  · rw [happended]
    exact (Prod.mk.inj (Except.ok.inj hout)).1.symm
  · rw [keepWindow] at hkept
    cases hfound : findFirstValidHeader suffix w with
    | none =>
      simp only [hfound] at hkept
      split_ifs at hkept with hdel happ
      exact ⟨(Prod.mk.inj (Except.ok.inj hkept)).1.symm,by simpa using hdel⟩
    | some first =>
      rw [hfound] at hkept
      obtain ⟨ms,hms,hkeep⟩:=bind_ok hkept
      exact ⟨ms,keptStats,hkeep,hms⟩

end Rewrite

theorem exists_tape {enc : Encoding} {items : List Item} (hfits : Fits enc PaxMap.empty items)
    (hlen : (render items).length+1024<2^63) : ∃t : Tape enc,t.items=items ∧ t.bytes=render items++tarEof := by
  refine ⟨{ items, trailer := 1024, fits := hfits, two_blocks := le_rfl, short := hlen },rfl,?_⟩
  rw [tarEof,Tape.bytes]

theorem losesNothing_nil (enc : Encoding) (opts : RewriteTarSuffix) (rest : List Item) :
    LosesNothing enc opts [] rest := by
  cases rest with
  | nil => rfl
  | cons i rest =>
    cases i with
    | globalPax r => rfl
    | member helpers main => exact Or.inl rfl

theorem exists_tape_of_write {enc : Encoding} (ms : List UstarMember) (hok : (writeUstarMembers ms).isOk=true)
    (hlen : (sampleTar ms).length<2^63) :
    ∃(t : Tape enc),WrittenItems ms t.items ∧ ms.mapM write = .ok (t.items.map bytes) ∧ t.bytes=sampleTar ms := by
  obtain ⟨bytes,hbytes⟩:=ok_of_isOk hok
  have htar : sampleTar ms=bytes++tarEof := by rw [sampleTar,hbytes]; rfl
  obtain ⟨written,hwritten,hflat⟩:=bind_ok hbytes
  injection hflat with hflat
  rw [htar,length_append,tarEof,length_zeros] at hlen
  obtain ⟨items,hitems,hws⟩:=mapM_write_items hwritten (by rw [hflat]; omega)
  have hrender : render items=bytes := by rw [render,flatMap_def,hitems,hflat]
  obtain ⟨t,rfl,ht⟩:=@exists_tape enc items (fits_written hws) (by rw [hrender]; exact hlen)
  exact ⟨t,hws,by rw [hwritten,hitems],by rw [ht,hrender,htar]⟩

def sampleTwo : List UstarMember := [sampleFile "a".toList [7],sampleFile "b".toList [8]]

def dropB : RewriteTarSuffix :=
  { deletedPaths := ["b".toList], append := [sampleFile "c".toList [9]], encoding := Utf8.decodeLossy }

/-- A TAR as the only member of a TAR, and a window that begins with the inner header. -/
def outerTar : Bytes := sampleTar [sampleFile "a.tar".toList (sampleTar [sampleFile "b".toList [7]])]

def appendC : RewriteTarSuffix :=
  { deletedPaths := [], append := [sampleFile "c".toList [9]], encoding := Utf8.decodeLossy }

def rewrittenOuterTar : Bytes :=
  outerTar.take 512 ++ ((rewriteTarSuffix (outerTar.drop 512) 512 appendC).toOption.getD ([],{})).1

def outerMember : TarRawMember := { rawStart := 0, rawEnd := 2560, logicalPath := "a.tar".toList, typeflag := 48 }

end Ratarmount.Tar
