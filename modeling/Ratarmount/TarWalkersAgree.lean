import Ratarmount.TarIndexParents
import Ratarmount.TarAppend
import Ratarmount.TarWrittenMember

/-!
# The commit walker and the indexer

Two header walks over one stream. The cursor of the commit merges the helper
records in front of a member and applies a PAX size to every member; the indexer
lets an `x` record replace what was pending and applies the size to regular
members only. Where an `x` record comes before the other helpers of its member, and
the records in force say neither two names nor a size that one walker leaves out,
they see the same members.
-/

namespace Ratarmount.Tar

open List Bytes ArchivePath Cursor Walk

section Index

variable (opts : IndexOptions) (data : Bytes)

/-- The members that the indexer finds, each with the end of its padded data, and the error that ends the walk. -/
def walkSpans : ℕ → Walk → List (Found × ℕ) × Option TarError
  | 0, _ => ([],some .diverged)
  | fuel + 1, w =>
    match w.turn opts data wholeStream with
    | .error e => ([],some e)
    | .ok (.stop _) => ([],none)
    | .ok (.again w) => walkSpans fuel w
    | .ok (.found f w) => ((f,w.pos) :: (walkSpans fuel w).1,(walkSpans fuel w).2)

/-- Without the ends it is the walk of `parse_tar_from`. -/
theorem walkSpans_members (fuel : ℕ) (w : Walk) :
    (walkMembers opts data wholeStream fuel w).1=(walkSpans opts data fuel w).1.map Prod.fst ∧
      (walkMembers opts data wholeStream fuel w).2.error=(walkSpans opts data fuel w).2 := by
  induction fuel generalizing w with
  | zero => exact ⟨rfl,rfl⟩
  | succ fuel ih =>
    rw [walkMembers,walkSpans]
    cases w.turn opts data wholeStream with
    | error e => exact ⟨rfl,rfl⟩
    | ok t =>
      cases t with
      | stop w' => exact ⟨rfl,rfl⟩
      | again w' => exact ih w'
      | found f w' =>
        dsimp only
        rw [if_pos (within_wholeStream _),(ih w').1,(ih w').2]
        exact ⟨rfl,rfl⟩

def Row.relPath (r : Row) : Str := trimStartSlash r.full

/-- The rows of the members of the stream, each with the end of the padded data. -/
def indexSpans (gnu : Bool) : List (Row × ℕ) :=
  ((walkSpans opts data (data.length / blockSize + 2) { pos := 0, gnu }).1.filter
    fun x => trimEndSlash x.1.name ≠ []).map fun x => (topRow x.1,x.2)

end Index

/-- The (path, end of the padded data) of the members that the cursor returns, global records apart. -/
def cursorSpans (ms : List TarRawMember) : List (Str × ℕ) :=
  (ms.filter fun m => m.typeflag ≠ 103).map fun m => (m.logicalPath,m.rawEnd)

/-! ## The helper records in front of a member -/

/-- A helper record by its typeflag and its body. -/
abbrev HelperRecord := UInt8 × Bytes

section Helpers

variable (enc : Encoding)

/-- What a further helper record makes of the indexer's pending records. -/
def PaxParsed.addHelper (p : PaxParsed) (r : HelperRecord) : PaxParsed :=
  if r.1 = 120 then (parsePaxRecords r.2).toOption.getD PaxParsed.empty
  else { p with map := p.map.insert (if r.1 = 76 then PaxKey.path else PaxKey.linkpath) (enc (stripNuls r.2)) }

/-- What helper records say when they are taken in order. -/
def described (helpers : List HelperRecord) : PaxParsed := helpers.foldl (PaxParsed.addHelper enc) PaxParsed.empty

theorem described_concat (helpers : List HelperRecord) (r : HelperRecord) :
    described enc (helpers++[r])=(described enc helpers).addHelper enc r := by
  rw [described,foldl_append]
  rfl

/-- No `x` record comes behind another helper of its member. -/
def paxFirst (helpers : List HelperRecord) : Bool := helpers.tail.all fun r => r.1 ≠ 120

theorem paxFirst_concat {helpers : List HelperRecord} {r : HelperRecord} (h : paxFirst (helpers++[r])=true) :
    paxFirst helpers=true ∧ (helpers=[] ∨ r.1≠120) := by
  cases helpers with
  | nil => exact ⟨rfl,.inl rfl⟩
  | cons first rest =>
    rw [paxFirst,cons_append,tail_cons,all_append,Bool.and_eq_true] at h
    exact ⟨h.1,.inr (by simpa using h.2)⟩

end Helpers

namespace Cursor

section Records

variable (enc : Encoding) (data : Bytes)

/-- The helpers that are in front of the next header, by those in front of the header at the cursor. -/
def nextHelpers (c : Cursor) (helpers : List HelperRecord) : List HelperRecord :=
  let header := data.slice c.pos blockSize
  if isZero header ∨ typeflag header = 103 then helpers
  else if typeflag header = 120 ∨ typeflag header = 76 ∨ typeflag header = 75 then
    helpers ++ [(typeflag header,data.slice (c.pos + blockSize) (sizeField header))]
  else []

/-- The member headers of the walk, with the helper records in front of each. -/
def memberHeaders : ℕ → Cursor → List HelperRecord → List (Cursor × List HelperRecord)
  | 0, _, _ => []
  | fuel + 1, c, helpers =>
    match c.turn enc data with
    | .ok (.again c') => memberHeaders fuel c' (c.nextHelpers data helpers)
    | .ok (.found m c') =>
      (if m.typeflag = 103 then [] else [(c,helpers)]) ++ memberHeaders fuel c' (c.nextHelpers data helpers)
    | _ => []

/-- The records of a member name it once and give no size that only one walker takes: an `x` record is the first helper,
`path` and `GNU.sparse.name` are not both there with two values, and a `size` other than the header's is that of a
regular member without sparse records. The name is one that the indexer makes a row of. -/
def unambiguous (x : Cursor × List HelperRecord) : Bool :=
  let header := data.slice x.1.pos blockSize
  let records := described enc x.2
  let pax := x.1.paxGlobal.extend records.map
  let name := memberName enc pax header
  paxFirst x.2 && !isPlaceholder name && trimEndSlash name ≠ [] &&
    ((pax PaxKey.path).isNone || (pax PaxKey.sparseName).isNone || pax PaxKey.path = pax PaxKey.sparseName) &&
    (onTapeSize pax header = sizeField header ||
      isRegularTarMember (typeflag header) name && !isPaxSparse pax records.sparsePairs) &&
    x.1.pos + blockSize + pad512 (onTapeSize pax header) < 2 ^ 64

end Records

/-- The indexer at the cursor, with its own pending records. -/
def indexer (c : Cursor) (p : PaxParsed) : Walk :=
  { pos := c.pos, paxGlobal := c.paxGlobal, pending := p, gnu := false }

/-- The indexer stands where the cursor stands. -/
structure Follows (w : Walk) (c : Cursor) (p : PaxParsed) : Prop where
  pos : w.pos = c.pos
  paxGlobal : w.paxGlobal = c.paxGlobal
  pending : w.pending = p
  gnu : w.gnu = false
  eofOff : c.eofOff = none

variable {opts : IndexOptions} {enc : Encoding} {data header : Bytes} {w : Walk} {c : Cursor} {p : PaxParsed}

theorem Follows.extent (h : Follows w c p) :
    w.extent opts data wholeStream header=(indexer c p).extent opts data wholeStream header := by
  obtain ⟨hpos,hglobal,hpending,hgnu,-⟩:=h
  rw [Walk.extent,Walk.extent,headerName,headerName,gnuAfter,gnuAfter,Walk.pax,Walk.pax,hpos,hglobal,hpending,hgnu]
  rfl

theorem turn_header (hlen : data.length<2^63) (hlength : (data.slice w.pos blockSize).length=blockSize) :
    w.turn opts data wholeStream=headerTurn opts data wholeStream w (data.slice w.pos blockSize) := by
  have hle : w.pos+blockSize≤data.length := by
    rw [length_slice] at hlength
    simp only [blockSize] at hlength ⊢
    omega
  exact turn_whole (within_wholeStream _) (Nat.zero_le _) hle hlen

theorem turn_heads (h : Follows w c p) (hh : Heads data c header) (hlen : data.length<2^63) :
    w.turn opts data wholeStream=headerTurn opts data wholeStream w header := by
  rw [turn_header hlen (by rw [h.pos,hh.slice,hh.length]),h.pos,hh.slice]

theorem helperBody_of_readHelperBody {body : Bytes} {size : ℕ} {kind kind' : String} (hpos : w.pos=c.pos)
    (hbody : c.readHelperBody data size kind = .ok body) :
    helperBody data wholeStream w size kind' = .ok (some body) ∧ data.slice (c.pos+blockSize) size=body := by
  rw [readHelperBody] at hbody
  split_ifs at hbody with hcap hshort
  rw [Except.ok.injEq] at hbody
  refine ⟨?_,hbody⟩
  rw [helperBody,if_neg hcap,readExact,hpos,if_neg hshort,hbody]
  rfl

variable {c' : Cursor}

/-- A helper record: the cursor merges it, the indexer keeps its own rule. -/
theorem follows_helper (h : Follows w c p) (hlen : data.length<2^63) (hh : Heads data c header)
    (hz : isZero header=false) (hg : typeflag header≠103)
    (hflag : typeflag header=120 ∨ typeflag header=76 ∨ typeflag header=75)
    (hc' : c.consumePendingHelper opts.encoding data (typeflag header) (sizeField header) = .ok c') :
    ∃w',w.turn opts data wholeStream = .ok (.again w') ∧ Follows w' c'
      (p.addHelper opts.encoding (typeflag header,data.slice (c.pos+blockSize) (sizeField header))) := by
  obtain ⟨hpos',heof',hglobal'⟩:=consumePendingHelper_ok hc'
  obtain ⟨body,hbody,hrest⟩:=bind_ok hc'
  obtain ⟨map,hmap,-⟩:=bind_ok hrest
  rw [turn_heads h hh hlen,headerTurn,if_neg (by simp [hz]),PaxParsed.addHelper]
  by_cases hx : typeflag header=120
  · obtain ⟨hread,hslice⟩:=@helperBody_of_readHelperBody data w c body _ _ "PAX" h.pos hbody
    rw [helperMap,if_pos hx] at hmap
    obtain ⟨recs,hrecs,-⟩:=bind_ok hmap
    rw [if_pos (.inl hx),paxTurn,hread,hslice]
    simp only [hrecs,ok_bind]
    rw [if_neg hg,if_pos hx]
    refine ⟨_,rfl,?_,h.paxGlobal.trans hglobal'.symm,rfl,h.gnu,heof'.trans h.eofOff⟩
    rw [hpos',←h.pos]
  · have hlong:=hflag.resolve_left hx
    obtain ⟨hread,hslice⟩:=@helperBody_of_readHelperBody data w c body _ _
      (if typeflag header=76 then "GNU long name" else "GNU long link") h.pos hbody
    rw [if_neg (by simp [hx,hg]),if_pos hlong,longTurn,hread,hslice,if_neg hx]
    refine ⟨_,rfl,?_,h.paxGlobal.trans hglobal'.symm,by rw [h.pending],h.gnu,heof'.trans h.eofOff⟩
    rw [hpos',←h.pos]

theorem follows_global {body : Bytes} {parsed : PaxParsed} (h : Follows w c p) (hlen : data.length<2^63)
    (hh : Heads data c header) (hz : isZero header=false) (hflag : typeflag header=103)
    (hbody : c.readHelperBody data (sizeField header) "PAX" = .ok body) (hparsed : parsePaxRecords body = .ok parsed) :
    ∃w',w.turn opts data wholeStream = .ok (.again w') ∧
      Follows w' { c with paxGlobal := c.paxGlobal.extend parsed.map, pos := c.pos+blockSize+pad512 (sizeField header) } p := by
  obtain ⟨hread,-⟩:=@helperBody_of_readHelperBody data w c body _ _ "PAX" h.pos hbody
  rw [turn_heads h hh hlen,headerTurn,if_neg (by simp [hz]),if_pos (.inr hflag),paxTurn,hread]
  simp only [hparsed,ok_bind]
  rw [if_pos hflag]
  refine ⟨_,rfl,?_,?_,h.pending,h.gnu,h.eofOff⟩
  · dsimp only
    rw [h.pos]
  · dsimp only
    rw [h.paxGlobal]

/-- A member header that the indexer reads. -/
theorem turn_member (h : Follows w c p) (hlen : data.length<2^63) (hh : Heads data c header)
    (hz : isZero header=false) (hg : typeflag header≠103)
    (hflag : ¬(typeflag header=120 ∨ typeflag header=76 ∨ typeflag header=75)) :
    w.turn opts data wholeStream=memberTurn opts data wholeStream w header := by
  push Not at hflag
  rw [turn_heads h hh hlen,headerTurn,if_neg (by simp [hz]),if_neg (by simp [hflag.1,hg]),
    if_neg (by simp [hflag.2.1,hflag.2.2])]

theorem follows_member {e : Extent} (h : Follows w c p)
    (hturn : w.turn opts data wholeStream=memberTurn opts data wholeStream w header)
    (hdump : typeflag header≠68) (he : (indexer c p).extent opts data wholeStream header = .ok e)
    (hplace : isPlaceholder e.name=false) (hrow : trimEndSlash e.name≠[])
    (hend : u64 (c.pos+blockSize+pad512 e.onTape)=memberEnd c.pos c.pax header) :
    ∃f w',w.turn opts data wholeStream = .ok (.found f w') ∧
      Follows w' (c.resume (memberEnd c.pos c.pax header)) PaxParsed.empty ∧ Ordinary f ∧ f.name=e.name := by
  have hgnu : w.gnuAfter header=false := by simp [gnuAfter,h.gnu,hdump]
  rw [hturn,memberTurn,h.extent,he,ok_bind,if_neg (by simp [hplace]),readDumpdir,if_neg (by simp [hdump]),ok_bind]
  refine ⟨_,_,rfl,⟨?_,h.paxGlobal,rfl,hgnu,h.eofOff⟩,⟨hdump,hrow⟩,rfl⟩
  rw [Walk.next,h.pos]
  exact hend

/-! ## What the records of a member say to both -/

section Next

variable {helpers : List HelperRecord}

theorem nextHelpers_same (hh : Heads data c header) (h : isZero header=true ∨ typeflag header=103) :
    c.nextHelpers data helpers=helpers := by
  rw [nextHelpers]
  simp only [hh.slice]
  rw [if_pos h]

theorem nextHelpers_helper (hh : Heads data c header) (hz : isZero header=false) (hg : typeflag header≠103)
    (hflag : typeflag header=120 ∨ typeflag header=76 ∨ typeflag header=75) :
    c.nextHelpers data helpers=helpers++[(typeflag header,data.slice (c.pos+blockSize) (sizeField header))] := by
  rw [nextHelpers]
  simp only [hh.slice]
  rw [if_neg (by simp [hz,hg]),if_pos hflag]

theorem nextHelpers_member (hh : Heads data c header) (hz : isZero header=false) (hg : typeflag header≠103)
    (hflag : ¬(typeflag header=120 ∨ typeflag header=76 ∨ typeflag header=75)) : c.nextHelpers data helpers=[] := by
  rw [nextHelpers]
  simp only [hh.slice]
  rw [if_neg (by simp [hz,hg]),if_neg hflag]

end Next

/-- With the `x` record first, the merged records of the cursor are the pending ones of the indexer. -/
def Merged (enc : Encoding) (c : Cursor) (helpers : List HelperRecord) : Prop :=
  paxFirst helpers=true → (c.pending.map PendingHelper.map).getD PaxMap.empty=(described enc helpers).map

theorem Merged.none (c : Cursor) (hc : c.pending=Option.none) : Merged enc c [] := by
  intro _
  rw [hc]
  rfl

theorem Merged.elsewhere {helpers : List HelperRecord} (h : Merged enc c helpers) (hc' : c'.pending=c.pending) :
    Merged enc c' helpers := by
  rw [Merged,hc']
  exact h

theorem empty_extend (m : PaxMap) : PaxMap.empty.extend m=m := funext fun _ => Option.or_none

theorem Merged.helper {helpers : List HelperRecord} {flag : UInt8} {size : ℕ} (h : Merged enc c helpers)
    (hc' : c.consumePendingHelper enc data flag size = .ok c') :
    Merged enc c' (helpers++[(flag,data.slice (c.pos+blockSize) size)]) := by
  intro hfirst
  obtain ⟨hfirst,hlast⟩:=paxFirst_concat hfirst
  obtain ⟨body,hbody,hrest⟩:=bind_ok hc'
  obtain ⟨map,hmap,hc'⟩:=bind_ok hrest
  have hslice : data.slice (c.pos+blockSize) size=body := by
    rw [readHelperBody] at hbody
    split_ifs at hbody
    exact Except.ok.inj hbody
  have hold : (c.pending.getD { rawStart:=c.pos,map:=PaxMap.empty }).map=(described enc helpers).map := by
    rw [←h hfirst]
    cases c.pending <;> rfl
  rw [←Except.ok.inj hc',described_concat,PaxParsed.addHelper,hslice]
  change map=_
  rw [helperMap,hold] at hmap
  by_cases hx : flag=120
  · rw [if_pos hx] at hmap
    obtain ⟨recs,hrecs,hmap⟩:=bind_ok hmap
    rw [if_pos hx,←Except.ok.inj hmap,hlast.resolve_right (not_not_intro hx),hrecs]
    exact empty_extend recs.map
  · rw [if_neg hx] at hmap
    rw [if_neg hx]
    exact (Except.ok.inj hmap).symm

theorem Merged.pax {helpers : List HelperRecord} (h : Merged enc c helpers) (hfirst : paxFirst helpers=true) :
    c.pax=(indexer c (described enc helpers)).pax := by
  rw [Walk.pax,indexer,←h hfirst,Cursor.pax]
  cases c.pending <;> rfl

theorem paxSparseExtent_ok {pax : PaxMap} {pairs : List (ℕ × ℕ)} {size : ℕ} {e e' : Extent}
    (h : paxSparseExtent data wholeStream pax pairs size e = .ok e') :
    isPaxSparse pax pairs=false ∧ e'=e ∨
      isPaxSparse pax pairs=true ∧ e'.name=(pax PaxKey.sparseName).getD e.name ∧ e'.issparse=true ∧ e'.onTape=size := by
  rw [paxSparseExtent] at h
  split_ifs at h with hsparse hmajor
  · obtain ⟨parsed,-,h⟩:=bind_ok h
    cases h
    exact .inr ⟨hsparse,rfl,rfl,rfl⟩
  · cases h
    exact .inr ⟨hsparse,rfl,rfl,rfl⟩
  · cases h
    exact .inl ⟨by simpa using hsparse,rfl⟩

theorem getD_memberName {pax : PaxMap} (h : pax PaxKey.path=none ∨ pax PaxKey.sparseName=none ∨ pax PaxKey.path=pax PaxKey.sparseName) :
    (pax PaxKey.sparseName).getD (memberName enc pax header)=memberName enc pax header := by
  cases hsparse : pax PaxKey.sparseName with
  | none => rfl
  | some name =>
    rw [hsparse] at h
    rw [memberName,hsparse]
    rcases h with h | h | h
    · rw [h]
      rfl
    · cases h
    · rw [h]
      rfl

theorem u64_memberEnd {pos n : ℕ} {pax : PaxMap} (hn : n=onTapeSize pax header)
    (hlt : pos+blockSize+pad512 (onTapeSize pax header)<2^64) :
    u64 (pos+blockSize+pad512 n)=memberEnd pos pax header := by
  rw [hn,u64_eq hlt,memberEnd,satAdd,satAdd,min_eq_left (by omega),min_eq_left (by omega)]

/-- A sparse member keeps the size of its header, and a regular one takes the size of its records. -/
theorem onTape_plainSizeExtent {pax : PaxMap} {e : Extent} (htape : e.onTape=sizeField header)
    (h : onTapeSize pax header=sizeField header ∨ isRegularTarMember (typeflag header) e.name=true ∧ e.issparse=false) :
    (plainSizeExtent pax (typeflag header) e).onTape=onTapeSize pax header ∧
      (plainSizeExtent pax (typeflag header) e).name=e.name := by
  rw [onTapeSize] at h ⊢
  rw [plainSizeExtent]
  split_ifs with hplain
  · cases (pax PaxKey.size).bind parseU64 with
    | none => exact ⟨htape,rfl⟩
    | some n => exact ⟨rfl,rfl⟩
  · refine ⟨htape.trans (h.resolve_right fun hreg => hplain ?_).symm,rfl⟩
    simp [hreg.1,hreg.2]

/-- The indexer reads in an unambiguous member what the cursor reads. -/
theorem extent_unambiguous {helpers : List HelperRecord} {e : Extent} (hm : Merged opts.encoding c helpers)
    (hslice : data.slice c.pos blockSize=header)
    (hdump : typeflag header≠68) (hold : typeflag header≠83) (h : unambiguous opts.encoding data (c,helpers)=true)
    (he : (indexer c (described opts.encoding helpers)).extent opts data wholeStream header = .ok e) :
    isPlaceholder e.name=false ∧ trimEndSlash e.name≠[] ∧ e.name=memberName opts.encoding c.pax header ∧
      u64 (c.pos+blockSize+pad512 e.onTape)=memberEnd c.pos c.pax header := by
  simp only [unambiguous,hslice,Bool.and_eq_true,Bool.or_eq_true,Bool.not_eq_true',decide_eq_true_eq,Option.isNone_iff_eq_none] at h
  obtain ⟨⟨⟨⟨⟨hfirst,hplace⟩,hrow⟩,hname⟩,hsize⟩,hlt⟩:=h
  have hpax : c.paxGlobal.extend (described opts.encoding helpers).map=c.pax:=(hm.pax hfirst).symm
  rw [hpax] at hplace hrow hname hsize hlt
  obtain ⟨plain,hplain,he⟩:=bind_ok he
  obtain ⟨sparse,hsparse,he⟩:=bind_ok he
  rw [oldGnuExtent,if_neg hold,headerName,if_neg (by simp [gnuAfter,indexer,hdump]),←hm.pax hfirst] at hplain
  rw [←hm.pax hfirst] at hsparse he
  rw [←Except.ok.inj hplain] at hsparse
  have hread : sparse.name=memberName opts.encoding c.pax header ∧ sparse.onTape=sizeField header ∧
      (onTapeSize c.pax header=sizeField header ∨
        isRegularTarMember (typeflag header) sparse.name=true ∧ sparse.issparse=false) := by
    rcases paxSparseExtent_ok hsparse with ⟨hno,rfl⟩ | ⟨hyes,hnamed,-,htape⟩
    · exact ⟨rfl,rfl,hsize.imp_right fun hreg => ⟨hreg.1,rfl⟩⟩
    · refine ⟨hnamed.trans (getD_memberName (or_assoc.mp hname)),htape,.inl (hsize.resolve_right fun hreg => ?_)⟩
      exact Bool.false_ne_true (hreg.2.symm.trans hyes)
  obtain ⟨hsame,htape,hwhich⟩:=hread
  obtain ⟨hends,hkeeps⟩:=onTape_plainSizeExtent htape hwhich
  rw [←Except.ok.inj he,hkeeps,hsame]
  exact ⟨hplace,hrow,rfl,u64_memberEnd hends hlt⟩

/-! ## Zero blocks and the end of the stream -/

theorem walkSpans_short (hshort : (data.slice w.pos blockSize).length<blockSize) (fuel : ℕ) :
    (walkSpans opts data fuel w).1=[] := by
  cases fuel with
  | zero => rfl
  | succ fuel =>
    have hread : ∀header,readTarHeader data w.pos ≠ .ok (some header) := by
      intro header
      rw [readTarHeader]
      split_ifs
      · exact fun h => by cases h
      · exact fun h => by cases h
    rw [walkSpans,Walk.turn]
    cases seekGuard wholeStream.start w.pos with
    | error e => rfl
    | ok u =>
      cases hr : readTarHeader data w.pos with
      | error e => rfl
      | ok header =>
        cases header with
        | none => rfl
        | some header => exact absurd hr (hread header)

section Zeros

variable (hign : opts.ignoreZeros = true) (hlen : data.length < 2 ^ 63)
include hign hlen

theorem walkSpans_zeroBlock (hlength : (data.slice w.pos blockSize).length=blockSize)
    (hz : isZero (data.slice w.pos blockSize)=true) (fuel : ℕ) :
    walkSpans opts data (fuel+1) w=walkSpans opts data fuel { w with pos := w.pos+blockSize } := by
  have hpos : u64 (w.pos+blockSize)=w.pos+blockSize := by
    rw [length_slice] at hlength
    apply Nat.mod_eq_of_lt
    simp only [blockSize] at hlength ⊢
    omega
  rw [walkSpans,turn_header hlen hlength,headerTurn,if_pos hz,zeroTurn,if_pos hign,hpos]

/-- Over a zero run that another header follows the indexer goes block by block. -/
theorem walkSpans_zeroRun {run : ℕ} (hend : zeroRunEnd data run w.pos<data.length) {fuel : ℕ}
    (hok : (walkSpans opts data fuel w).2=none) :
    ∃fuel',walkSpans opts data fuel w=walkSpans opts data fuel' { w with pos := zeroRunEnd data run w.pos } := by
  induction run generalizing w fuel with
  | zero => exact ⟨fuel,rfl⟩
  | succ run ih =>
    rw [zeroRunEnd] at hend ⊢
    by_cases hstop : min (data.length-w.pos) blockSize=0 ∨
        isZero (data.slice w.pos (min (data.length-w.pos) blockSize))=false
    · rw [if_pos hstop]
      exact ⟨fuel,rfl⟩
    · rw [if_neg hstop] at hend ⊢
      have hle:=@le_zeroRunEnd data run (w.pos+min (data.length-w.pos) blockSize)
      have hn : min (data.length-w.pos) blockSize=blockSize := by omega
      rw [hn] at hend hstop ⊢
      have hz : isZero (data.slice w.pos blockSize)=true := by simpa using fun h => hstop (.inr h)
      have hlength : (data.slice w.pos blockSize).length=blockSize := by
        rw [length_slice]
        omega
      cases fuel with
      | zero => cases hok
      | succ fuel =>
        rw [walkSpans_zeroBlock hign hlen hlength hz] at hok ⊢
        exact ih hend hok

theorem walkSpans_trailer (hz : isZero (data.drop w.pos)=true) (fuel : ℕ) : (walkSpans opts data fuel w).1=[] := by
  induction fuel generalizing w with
  | zero => rfl
  | succ fuel ih =>
    by_cases hshort : (data.slice w.pos blockSize).length<blockSize
    · exact walkSpans_short hshort _
    · have hall : ∀b∈data.drop w.pos,b=0 := by simpa [isZero] using hz
      have hlength : (data.slice w.pos blockSize).length=blockSize := by
        rw [length_slice] at hshort ⊢
        omega
      have hblock : isZero (data.slice w.pos blockSize)=true := by
        simpa [isZero,slice] using fun b hb => hall b (mem_of_mem_take hb)
      rw [walkSpans_zeroBlock hign hlen hlength hblock]
      apply ih
      simpa [isZero] using fun b hb => hall b (mem_of_mem_drop hb)

end Zeros

theorem isZero_trailer (hh : Heads data c header) (hz : isZero header=true) (hend : data.length ≤ c.runEnd data) :
    isZero (data.drop c.pos)=true := by
  have hrun:=@isZero_zeroRun data (data.length / blockSize+1) (c.pos+blockSize)
  have hrest : data.slice (c.pos+blockSize) (c.runEnd data-(c.pos+blockSize))=data.drop (c.pos+blockSize) := by
    apply take_of_length_le
    rw [length_drop]
    omega
  have hsplit : data.drop c.pos=header++data.drop (c.pos+blockSize) := by
    rw [←hh.slice,slice,←drop_drop,take_append_drop]
  rw [runEnd] at hrest
  rw [hrest] at hrun
  rw [hsplit,isZero,all_append]
  exact Bool.and_eq_true_iff.mpr ⟨hz,hrun⟩

theorem slice_short (heof : c.eofOff=none) (h : c.atStop data=true ∨ (data.slice c.pos blockSize).length<blockSize) :
    (data.slice c.pos blockSize).length<blockSize := by
  rcases h with h | h
  · rw [atStop,heof] at h
    have hlt : data.length<u64 (c.pos+blockSize) := by simpa using h
    have hle : u64 (c.pos+blockSize) ≤ c.pos+blockSize:=Nat.mod_le _ _
    rw [length_slice]
    simp only [blockSize] at hlt hle ⊢
    omega
  · exact h

/-! ## Whole walks -/

/-- What both walks come to, from places that follow each other. -/
def Agree (spans : List (Found × ℕ)) (ms : List TarRawMember) : Prop :=
  (∀ x ∈ spans, Ordinary x.1) ∧
    spans.map (fun x => (normalizeArchiveRelPath x.1.name,x.2)) = cursorSpans ms

/-- A walk that ends without an error has read its first member header. -/
theorem extent_of_walkSpans {fuel : ℕ} (h : Follows w c p)
    (hturn : w.turn opts data wholeStream=memberTurn opts data wholeStream w header)
    (hok : (walkSpans opts data (fuel+1) w).2=none) : ∃e,(indexer c p).extent opts data wholeStream header = .ok e := by
  rw [walkSpans,hturn,memberTurn,h.extent] at hok
  cases he : (indexer c p).extent opts data wholeStream header with
  | error err =>
    rw [he] at hok
    cases hok
  | ok e => exact ⟨e,rfl⟩

theorem walkSpans_agree (hign : opts.ignoreZeros=true) (hlen : data.length<2^63) {fuel : ℕ} {helpers : List HelperRecord}
    {ms : List TarRawMember} (h : Follows w c (described opts.encoding helpers)) (hm : Merged opts.encoding c helpers)
    (hms : c.members opts.encoding data fuel = .ok ms) {fuel' : ℕ}
    (hok : (walkSpans opts data fuel' w).2=none) (hkinds : ∀m∈ms,m.typeflag≠68 ∧ m.typeflag≠83)
    (hclear : ∀x∈c.memberHeaders opts.encoding data fuel helpers,unambiguous opts.encoding data x=true) :
    Agree (walkSpans opts data fuel' w).1 ms := by
  induction fuel generalizing w c helpers ms fuel' with
  | zero => cases hms
  | succ fuel ih =>
    obtain ⟨t,ht,hms⟩:=bind_ok hms
    rw [memberHeaders,ht] at hclear
    have hnil : Agree [] []:=⟨by simp,rfl⟩
    obtain ⟨fuel',rfl⟩ : ∃n,fuel'=n+1:=Nat.exists_eq_succ_of_ne_zero fun h => by
      subst h
      cases hok
    cases turn_outcome ht with
    | ended hend =>
      cases hms
      rw [walkSpans_short (h.pos ▸ slice_short h.eofOff hend)]
      exact hnil
    | trailer hh hz hend =>
      cases hms
      rw [walkSpans_trailer hign hlen (h.pos ▸ isZero_trailer hh hz hend)]
      exact hnil
    | @gap header hh hz hend =>
      have hslice : data.slice w.pos blockSize=header := by rw [h.pos,hh.slice]
      have hlength : (data.slice w.pos blockSize).length=blockSize := by rw [hslice,hh.length]
      have hzero : isZero (data.slice w.pos blockSize)=true := by rw [hslice,hz]
      rw [walkSpans_zeroBlock hign hlen hlength hzero] at hok ⊢
      rw [runEnd,←h.pos] at hend
      obtain ⟨k,hk⟩:=@walkSpans_zeroRun opts data { w with pos:=w.pos+blockSize } hign hlen _ hend _ hok
      rw [hk] at hok ⊢
      have hrun : zeroRunEnd data (data.length / blockSize+1) (w.pos+blockSize)=c.runEnd data := by
        rw [runEnd,h.pos]
      rw [nextHelpers_same hh (.inl hz)] at hclear
      rw [hrun] at hok ⊢
      have h' : Follows { w with pos:=c.runEnd data } { c with pos:=c.runEnd data } (described opts.encoding helpers) :=
        ⟨rfl,h.paxGlobal,h.pending,h.gnu,h.eofOff⟩
      exact ih h' (hm.elsewhere rfl) hms hok hkinds hclear
    | globalPax hh hz hsum hflag hpending hbody hparsed =>
      obtain ⟨rest,hrest,hms⟩:=bind_ok hms
      rw [←Except.ok.inj hms] at hkinds ⊢
      obtain ⟨w',hw',h'⟩:=follows_global h hlen hh hz hflag hbody hparsed
      rw [nextHelpers_same hh (.inr hflag)] at hclear
      rw [walkSpans,hw'] at hok ⊢
      exact ih h' (hm.elsewhere rfl) hrest hok (fun m hm => hkinds m (mem_cons_of_mem _ hm)) hclear
    | helper hh hz hsum hg hflag hc' =>
      obtain ⟨w',hw',h'⟩:=follows_helper h hlen hh hz hg hflag hc'
      rw [←described_concat] at h'
      rw [nextHelpers_helper hh hz hg hflag] at hclear
      rw [walkSpans,hw'] at hok ⊢
      exact ih h' (hm.helper hc') hms hok hkinds hclear
    | member hh hz hsum hg hflag =>
      obtain ⟨rest,hrest,hms⟩:=bind_ok hms
      rw [←Except.ok.inj hms] at hkinds ⊢
      rw [nextHelpers_member hh hz hg hflag] at hclear
      simp only [plainMember,if_neg hg,singleton_append,forall_mem_cons] at hclear hkinds
      have hturn:=@turn_member opts _ _ _ _ _ h hlen hh hz hg hflag
      obtain ⟨e,he⟩:=extent_of_walkSpans h hturn hok
      obtain ⟨hplace,hrow,hname,hend⟩:=extent_unambiguous hm hh.slice hkinds.1.1 hkinds.1.2 hclear.1 he
      obtain ⟨f,w',hw',h',hord,hf⟩:=follows_member h hturn hkinds.1.1 he hplace hrow hend
      rw [walkSpans,hw'] at hok ⊢
      obtain ⟨hords,hspans⟩:=ih h' (Merged.none _ rfl) hrest hok hkinds.2 hclear.2
      refine ⟨forall_mem_cons.mpr ⟨hord,hords⟩,?_⟩
      rw [cursorSpans,filter_cons_of_pos (by simpa using hg),map_cons,hspans,hf,hname,h'.pos]
      rfl

end Cursor

/-! ## Rows -/

theorem relPath_topRow (f : Found) : (topRow f).relPath=normalizeArchiveRelPath f.name := by
  have hslash : '/' ∈ memberPath f.name := mem_cons_self
  have hfull : (topRow f).full=memberPath f.name:=rsplitSlash_full hslash
  rw [Row.relPath,hfull]
  rfl

theorem memberRows_parseTarFrom {opts : IndexOptions} {data : Bytes} {gnu : Bool} {ix : ParsedIndex}
    (hix : parseTarFrom opts data 0 gnu = .ok ix) (hord : ∀f∈(topFound opts data gnu).1,Ordinary f) :
    ix.rows.filter isMemberRow=(topFound opts data gnu).1.map topRow := by
  obtain ⟨new,hnew⟩:=foldl_pushTop_pushed hord {}
  rw [filter_rows_parseTarFrom hix,topBatch,hnew.rows,←hnew.members]
  rfl

def sampleHelper (flag : UInt8) (body : Bytes) : Bytes := sampleHeader flag body.length ++ (body ++ padding body.length)

def samplePax (key : Str) (value : Bytes) : Bytes := sampleHelper 120 ((encodePaxRecord key value).toOption.getD [])

/-- The PAX name `b` and then a long link, in front of a file `a`. -/
def paxThenLongLink : Bytes := samplePax PaxKey.path [98] ++ sampleHelper 75 [99] ++ sampleHeader 48 0 ++ tarEof

/-- The long name `b` and then a PAX record with a time, in front of a file `a`. -/
def longNameThenPax : Bytes := sampleHelper 76 [98] ++ samplePax PaxKey.mtime [49] ++ sampleHeader 48 0 ++ tarEof

/-- A PAX size of 512 in front of a directory `a`. -/
def sizedDirectory : Bytes := samplePax PaxKey.size [53,49,50] ++ sampleHeader 53 0 ++ tarEof

end Ratarmount.Tar
