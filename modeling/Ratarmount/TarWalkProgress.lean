import Ratarmount.LoopTraces
import Ratarmount.TarIndexWalk
import Ratarmount.TarSuffixRewrite
import Ratarmount.TarWrittenMember

/-!
# Progress of the header walks

The loops of `parse_tar_from`, `walk_tar_region` and `TarMemberCursor` as partial
functions from one header to the next. The cursor adds sizes with saturation and
always moves forward; the indexer's additions wrap.
-/

namespace Ratarmount.Tar

open List Bytes Cursor Walk

section Index

variable (opts : IndexOptions) (data : Bytes) (b : WalkBounds)

/-- The walk at the next header, where the loop goes on. -/
def Walk.step (w : Walk) : Option Walk :=
  match w.turn opts data b with
  | .ok (.again w') => some w'
  | .ok (.found _ w') => if b.within w'.pos then some w' else none
  | _ => none

/-- A header that is neither a zero block nor a helper record. -/
def MemberHeader (header : Bytes) : Prop :=
  isZero header = false ∧ typeflag header ≠ 120 ∧ typeflag header ≠ 103 ∧ typeflag header ≠ 76 ∧
    typeflag header ≠ 75

/-- The end of the padded data of the member at `w`, if one stands there, is a `u64`. -/
def Walk.SpanFits (w : Walk) : Prop :=
  ∀ header e, readTarHeader data w.pos = .ok (some header) → MemberHeader header →
    w.extent opts data b header = .ok e → w.pos + blockSize + pad512 e.onTape < 2 ^ 64

variable {opts data b} {w w' : Walk} {header : Bytes}

theorem pad512_le (n : ℕ) : pad512 n≤2^64-512 := by
  rw [pad512,u64]
  omega

/-- The turn finds no member and, if the loop goes on, has moved forward. -/
def Walk.Forward (w : Walk) (t : WalkTurn) : Prop :=
  (∃ w', t = .stop w') ∨ ∃ w', t = .again w' ∧ w.pos + blockSize ≤ w'.pos

/-- Records that are pending behind the turn began where they did before, or at the header. -/
def Walk.KeepsStart (w : Walk) (t : WalkTurn) : Prop :=
  ∀ w', t = .again w' → w'.paxHeaderStart = w.paxHeaderStart ∨ w'.paxHeaderStart = some w.pos

variable {t : WalkTurn}

theorem passes_stop : w.Forward (.stop w') ∧ w.KeepsStart (.stop w') := ⟨.inl ⟨w',rfl⟩,nofun⟩

theorem passes_again (hpos : w.pos+blockSize≤w'.pos)
    (hstart : w'.paxHeaderStart=w.paxHeaderStart ∨ w'.paxHeaderStart=some w.pos) :
    w.Forward (.again w') ∧ w.KeepsStart (.again w') := by
  refine ⟨.inr ⟨w',rfl,hpos⟩,?_⟩
  rintro _ ⟨⟩
  exact hstart

/-- What a turn at a header can come to. -/
theorem headerTurn_cases (hpos : w.pos<2^63) (h : headerTurn opts data b w header = .ok t) :
    (¬MemberHeader header ∧ w.Forward t ∧ w.KeepsStart t) ∨
      (MemberHeader header ∧ ∃e,w.extent opts data b header = .ok e ∧
        (t = .again (w.next header e) ∨ ∃dumpdir,t = .found (w.member opts data b header e dumpdir) (w.next header e))) := by
  rw [headerTurn] at h
  split_ifs at h with hzero hpax hlong
  · refine .inl ⟨fun hheader => by simp [hheader.1] at hzero,?_⟩
    rw [zeroTurn] at h
    split_ifs at h
    · cases h
      exact passes_again (u64_eq (by simp only [blockSize]; omega)).ge (.inl rfl)
    · obtain ⟨_,-,h⟩:=bind_ok h
      cases h
      exact passes_stop
    · cases h
      exact passes_stop
  · refine .inl ⟨fun hheader => by simp [hheader.2.1,hheader.2.2.1] at hpax,?_⟩
    obtain ⟨body,-,h⟩:=bind_ok h
    cases body with
    | none =>
      cases h
      exact passes_stop
    | some body =>
      obtain ⟨recs,-,h⟩:=bind_ok h
      split_ifs at h
      · cases h
        exact passes_again (Nat.le_add_right _ _) (.inl rfl)
      · cases h
        exact passes_again (Nat.le_add_right _ _) (.inr rfl)
  · refine .inl ⟨fun hheader => by simp [hheader.2.2.2] at hlong,?_⟩
    obtain ⟨body,-,h⟩:=bind_ok h
    cases body with
    | none =>
      cases h
      exact passes_stop
    | some body =>
      cases h
      exact passes_again (Nat.le_add_right _ _) (.inl rfl)
  · push Not at hpax hlong
    obtain ⟨e,he,h⟩:=bind_ok h
    refine .inr ⟨⟨by simpa using hzero,hpax.1,hpax.2,hlong.1,hlong.2⟩,e,he,?_⟩
    split_ifs at h
    · cases h
      exact .inl rfl
    · obtain ⟨dumpdir,-,h⟩:=bind_ok h
      cases h
      exact .inr ⟨dumpdir,rfl⟩

/-- What a step of the loop can do: a member moves the position by its padded size, with the carry lost;
everything else moves it forward. -/
theorem Walk.step_cases (h : w.step opts data b=some w') :
    ∃header,readTarHeader data w.pos = .ok (some header) ∧ w.pos+blockSize≤data.length ∧
      ((¬MemberHeader header ∧ w.pos+blockSize≤w'.pos) ∨
        (MemberHeader header ∧ ∃e,w.extent opts data b header = .ok e ∧
          w'.pos=u64 (w.pos+blockSize+pad512 e.onTape))) := by
  rw [Walk.step] at h
  cases ht : w.turn opts data b with
  | error e =>
    rw [ht] at h
    cases h
  | ok t =>
    rw [ht] at h
    rcases turn_cases ht with ⟨rfl,-⟩ | ⟨hpos,hle,ht⟩
    · cases h
    refine ⟨_,readTarHeader_whole hle,hle,?_⟩
    rcases headerTurn_cases hpos ht with ⟨hheader,⟨v,rfl⟩ | ⟨v,rfl,hv⟩,-⟩ | ⟨hheader,e,he,rfl | ⟨dumpdir,rfl⟩⟩
    · cases h
    · cases h
      exact .inl ⟨hheader,hv⟩
    · cases h
      exact .inr ⟨hheader,e,he,rfl⟩
    · dsimp only at h
      split_ifs at h
      cases h
      exact .inr ⟨hheader,e,he,rfl⟩

theorem Walk.step_reads (h : w.step opts data b=some w') : w.pos+blockSize≤data.length := by
  obtain ⟨header,-,hle,-⟩:=step_cases h
  exact hle

/-- A step moves forward exactly when the member's span fits. -/
theorem Walk.step_forward_iff (h : w.step opts data b=some w') : w.pos+blockSize≤w'.pos ↔ w.SpanFits opts data b := by
  obtain ⟨header,hread,-,hcase⟩:=step_cases h
  constructor
  · intro hforward header' e hread' hheader he
    rw [hread,Except.ok.injEq,Option.some.injEq] at hread'
    subst hread'
    rcases hcase with ⟨hnot,-⟩ | ⟨-,e',he',hw⟩
    · exact absurd hheader hnot
    · rw [he,Except.ok.injEq] at he'
      subst he'
      by_contra hwrap
      have hpad:=pad512_le e.onTape
      rw [hw,u64] at hforward
      omega
  · intro hfits
    rcases hcase with ⟨-,hforward⟩ | ⟨hheader,e,he,hw⟩
    · exact hforward
    · rw [hw,u64_eq (hfits header e hread hheader he)]
      exact Nat.le_add_right _ _

end Index

namespace Cursor

variable (enc : Encoding) (data : Bytes)

def step (c : Cursor) : Option Cursor :=
  match c.turn enc data with
  | .ok (.again c') => some c'
  | .ok (.found _ c') => some c'
  | _ => none

variable {enc data} {c c' : Cursor}

theorem le_zeroRunEnd (fuel runEnd : ℕ) : runEnd≤zeroRunEnd data fuel runEnd := by
  induction fuel generalizing runEnd with
  | zero => exact le_rfl
  | succ fuel ih =>
    rw [zeroRunEnd]
    split
    · exact le_rfl
    · exact (Nat.le_add_right _ _).trans (ih _)

theorem le_satAdd {a b n : ℕ} (h : n≤a+b) (hn : n<2^64) : n ≤ satAdd a b := by
  rw [satAdd]
  omega

def runEnd (data : Bytes) (c : Cursor) : ℕ := zeroRunEnd data (data.length / blockSize + 1) (c.pos + blockSize)

structure Heads (data : Bytes) (c : Cursor) (header : Bytes) : Prop where
  goes : c.atStop data = false
  slice : data.slice c.pos blockSize = header
  length : header.length = blockSize

theorem Heads.le {header : Bytes} (h : Heads data c header) : c.pos+blockSize≤data.length := by
  have hlength:=length_slice data c.pos blockSize
  rw [h.slice,h.length] at hlength
  simp only [blockSize] at hlength ⊢
  omega

/-- What a turn can come to, with all that leads there. -/
inductive Outcome (enc : Encoding) (data : Bytes) (c : Cursor) : Turn → Prop
  | ended (h : c.atStop data = true ∨ (data.slice c.pos blockSize).length < blockSize) : Outcome enc data c (.stop c)
  | trailer {header : Bytes} (hh : Heads data c header) (hz : isZero header = true) (hend : data.length ≤ c.runEnd data) :
    Outcome enc data c (.stop { c with eofOff := some c.pos, pos := c.runEnd data })
  | gap {header : Bytes} (hh : Heads data c header) (hz : isZero header = true) (hend : c.runEnd data < data.length) :
    Outcome enc data c (.again { c with pos := c.runEnd data })
  | globalPax {header body : Bytes} {parsed : PaxParsed} (hh : Heads data c header) (hz : isZero header = false)
      (hsum : checksumOk header = true) (hflag : typeflag header = 103) (hpending : c.pending = none)
      (hbody : c.readHelperBody data (sizeField header) "PAX" = .ok body) (hparsed : parsePaxRecords body = .ok parsed) :
    Outcome enc data c (.found { rawStart := c.pos, rawEnd := c.pos + blockSize + pad512 (sizeField header),
                                 logicalPath := [], typeflag := 103 }
      { c with paxGlobal := c.paxGlobal.extend parsed.map, pos := c.pos + blockSize + pad512 (sizeField header) })
  | helper {header : Bytes} {c' : Cursor} (hh : Heads data c header) (hz : isZero header = false)
      (hsum : checksumOk header = true) (hg : typeflag header ≠ 103)
      (hflag : typeflag header = 120 ∨ typeflag header = 76 ∨ typeflag header = 75)
      (hc' : c.consumePendingHelper enc data (typeflag header) (sizeField header) = .ok c') :
    Outcome enc data c (.again c')
  | member {header : Bytes} (hh : Heads data c header) (hz : isZero header = false) (hsum : checksumOk header = true)
      (hg : typeflag header ≠ 103) (hflag : ¬ (typeflag header = 120 ∨ typeflag header = 76 ∨ typeflag header = 75)) :
    Outcome enc data c (c.plainMember enc header)

theorem turn_outcome {t : Turn} (ht : c.turn enc data = .ok t) : Outcome enc data c t := by
  rw [turn] at ht
  by_cases hstop : c.atStop data=true ∨ (data.slice c.pos blockSize).length<blockSize
  · rw [if_pos hstop] at ht
    cases ht
    exact .ended hstop
  · rw [if_neg hstop] at ht
    have hh : Heads data c (data.slice c.pos blockSize) := by
      refine ⟨by simpa using fun h => hstop (.inl h),rfl,?_⟩
      have hlength:=length_slice data c.pos blockSize
      omega
    generalize data.slice c.pos blockSize=header at ht hh
    by_cases hz : isZero header=true
    · rw [if_pos hz] at ht
      change (if data.length ≤ c.runEnd data then _ else _)=_ at ht
      split_ifs at ht with hend
      · rw [←Except.ok.inj ht]
        exact .trailer hh hz hend
      · rw [←Except.ok.inj ht]
        exact .gap hh hz (by omega)
    · rw [if_neg hz] at ht
      have hz : isZero header=false := by simpa using hz
      split_ifs at ht with hsum hg hflag
      · rw [globalMember] at ht
        split_ifs at ht with hpending
        obtain ⟨body,hbody,ht⟩:=bind_ok ht
        obtain ⟨parsed,hparsed,ht⟩:=bind_ok ht
        rw [←Except.ok.inj ht]
        exact .globalPax hh hz (by simpa using hsum) hg (by simpa using hpending) hbody hparsed
      · obtain ⟨c',hc',ht⟩:=bind_ok ht
        rw [←Except.ok.inj ht]
        exact .helper hh hz (by simpa using hsum) hg hflag hc'
      · rw [←Except.ok.inj ht]
        exact .member hh hz (by simpa using hsum) hg hflag

theorem Outcome.turn_eq {t : Turn} (h : Outcome enc data c t) : c.turn enc data = .ok t := by
  rw [turn]
  cases h with
  | ended h => rw [if_pos h]
  | trailer hh hz hend =>
    rw [hh.slice,if_neg (by simp [hh.goes,hh.length]),if_pos hz]
    exact if_pos hend
  | gap hh hz hend =>
    rw [hh.slice,if_neg (by simp [hh.goes,hh.length]),if_pos hz]
    exact if_neg (not_le.mpr hend)
  | globalPax hh hz hsum hflag hpending hbody hparsed =>
    rw [hh.slice,if_neg (by simp [hh.goes,hh.length]),if_neg (by simp [hz]),if_neg (by simp [hsum]),if_pos hflag,
      globalMember,if_neg (by simp [hpending]),hbody,ok_bind,hparsed]
    rfl
  | helper hh hz hsum hg hflag hc' =>
    rw [hh.slice,if_neg (by simp [hh.goes,hh.length]),if_neg (by simp [hz]),if_neg (by simp [hsum]),if_neg hg,
      if_pos hflag,hc']
    rfl
  | member hh hz hsum hg hflag =>
    rw [hh.slice,if_neg (by simp [hh.goes,hh.length]),if_neg (by simp [hz]),if_neg (by simp [hsum]),if_neg hg,
      if_neg hflag]

/-- A helper that is read moves the cursor behind it and leaves the rest of the walk alone. -/
theorem consumePendingHelper_ok {flag : UInt8} {size : ℕ} (h : c.consumePendingHelper enc data flag size = .ok c') :
    c'.pos=c.pos+blockSize+pad512 size ∧ c'.eofOff=c.eofOff ∧ c'.paxGlobal=c.paxGlobal := by
  obtain ⟨body,-,h⟩:=bind_ok h
  obtain ⟨map,-,h⟩:=bind_ok h
  cases h
  exact ⟨rfl,rfl,rfl⟩

/-- The cursor at `pos` with no helper pending. -/
def resume (c : Cursor) (pos : ℕ) : Cursor := { c with pending := none, pos }

/-- Where the walk goes on behind a member header at `pos`. -/
def memberEnd (pos : ℕ) (pax : PaxMap) (header : Bytes) : ℕ :=
  satAdd (satAdd pos blockSize) (pad512 (onTapeSize pax header))

theorem le_memberEnd {header : Bytes} (hlen : c.pos+blockSize<2^64) :
    c.pos+blockSize ≤ memberEnd c.pos c.pax header := by
  have hheader:=le_satAdd le_rfl hlen
  exact le_satAdd (hheader.trans (Nat.le_add_right _ _)) hlen

/-- Every step of the cursor moves it behind the header it has read. -/
theorem step_forward (hlen : data.length<2^64) (h : c.step enc data=some c') :
    c.pos+blockSize≤data.length ∧ c.pos+blockSize ≤ c'.pos := by
  rw [step] at h
  cases ht : c.turn enc data with
  | error e =>
    rw [ht] at h
    cases h
  | ok t =>
    rw [ht] at h
    cases turn_outcome ht with
    | ended | trailer => cases h
    | gap hh =>
      rw [←Option.some.inj h]
      dsimp only
      exact ⟨hh.le,le_zeroRunEnd _ _⟩
    | globalPax hh =>
      rw [←Option.some.inj h]
      exact ⟨hh.le,Nat.le_add_right _ _⟩
    | helper hh hz hsum hg hflag hc' =>
      rw [←Option.some.inj h,(consumePendingHelper_ok hc').1]
      exact ⟨hh.le,Nat.le_add_right _ _⟩
    | member hh =>
      rw [←Option.some.inj h]
      exact ⟨hh.le,le_memberEnd (hh.le.trans_lt hlen)⟩

end Cursor

/-- The three loops move forward from header to header, whatever the bytes, as long as no member that the
indexer steps over claims a span whose end is no `u64`. -/
theorem walks_progress_iff (opts : IndexOptions) (enc : Encoding) (data : Bytes) (b : WalkBounds) (w : Walk)
    (c : Cursor) (hlen : data.length < 2 ^ 64) :
    (Loop.Progresses (Walk.step opts data b) Walk.pos blockSize data.length w ∧
      Loop.Progresses (step enc data) Cursor.pos blockSize data.length c) ↔
      ∀ n, ∀ v ∈ Loop.trace (Walk.step opts data b) n w, (v.step opts data b).isSome →
        v.SpanFits opts data b := by
  have hindex := @Loop.progresses_iff Walk (Walk.step opts data b) w Walk.pos blockSize data.length (by decide)
    (fun _ _ h => step_reads h)
  have hcursor := @Loop.progresses_iff Cursor (step enc data) c Cursor.pos blockSize data.length (by decide)
    (fun _ _ h => (step_forward hlen h).1)
  rw [hindex,hcursor]
  constructor
  · rintro ⟨hw,-⟩ n v hv hstep
    obtain ⟨v',hv'⟩ := Option.isSome_iff_exists.mp hstep
    exact (step_forward_iff hv').mp (hw n v hv v' hv')
  · intro hfits
    constructor
    · intro n v hv v' hv'
      exact (step_forward_iff hv').mpr (hfits n v hv (Option.isSome_iff_exists.mpr ⟨v',hv'⟩))
    · intro n v _ v' hv'
      exact (step_forward hlen hv').2

def scanOptions : IndexOptions where
  encoding := Utf8.decodeLossy
  ignoreZeros := true
  recursionDepth := none
  recursive := true

/-- An archive with the file `a` of one byte. -/
def oneFileTar : Bytes := sampleTar [sampleFile ['a'] [7]]

theorem oneFileTar_zeros : isZero (oneFileTar.drop 1024) = true := by decide +kernel

/-- Behind the file there are only zero blocks. -/
theorem Walk.spanFits_oneFileTar (w : Walk) (h : 1024 ≤ w.pos) : w.SpanFits scanOptions oneFileTar ⟨0,none⟩ := by
  intro header e hread hheader
  rw [readTarHeader] at hread
  split_ifs at hread
  · cases hread
  · rw [Except.ok.injEq,Option.some.injEq] at hread
    have hzero : isZero header = true := by
      rw [← hread,isZero,all_eq_true]
      intro x hx
      have hmem : x ∈ (oneFileTar.drop 1024).drop (w.pos - 1024) := by
        rw [drop_drop,Nat.add_sub_cancel' h]
        exact mem_of_mem_take hx
      exact all_eq_true.mp oneFileTar_zeros x (mem_of_mem_drop hmem)
    rw [hheader.1] at hzero
    cases hzero

theorem Walk.behind_oneFileTar {n : ℕ} {w v : Walk} (hw : 1024 ≤ w.pos)
    (hv : v ∈ Loop.trace (Walk.step scanOptions oneFileTar ⟨0,none⟩) n w) : 1024 ≤ v.pos := by
  induction n generalizing w with
  | zero => exact absurd hv not_mem_nil
  | succ n ih =>
    cases hs : Walk.step scanOptions oneFileTar ⟨0,none⟩ w with
    | none =>
      rw [Loop.trace_succ_of_none hs,mem_singleton] at hv
      exact hv ▸ hw
    | some w' =>
      rw [Loop.trace_succ_of_some hs] at hv
      rcases mem_cons.mp hv with rfl | hv
      · exact hw
      · have hforward := (Walk.step_forward_iff hs).mpr (w.spanFits_oneFileTar hw)
        exact ih (hw.trans ((Nat.le_add_right _ _).trans hforward)) hv

/-- Over a written file and the zero blocks behind it the loops move forward. -/
theorem oneFile_progress :
    oneFileTar.length < 2 ^ 64 ∧
      Loop.Progresses (Walk.step scanOptions oneFileTar ⟨0,none⟩) Walk.pos blockSize oneFileTar.length
        { pos := 0, gnu := false } ∧
      Loop.Progresses (Cursor.step Utf8.decodeLossy oneFileTar) Cursor.pos blockSize oneFileTar.length { pos := 0 } := by
  have hlen : oneFileTar.length < 2 ^ 64 := by decide +kernel
  refine ⟨hlen,(walks_progress_iff scanOptions Utf8.decodeLossy oneFileTar ⟨0,none⟩
    { pos := 0, gnu := false } { pos := 0 } hlen).mpr ?_⟩
  have hfirst : Walk.SpanFits scanOptions oneFileTar ⟨0,none⟩ { pos := 0, gnu := false } := by
    intro header e hread _ he
    have hheader : header = oneFileTar.take 512 := by
      rw [readTarHeader] at hread
      split_ifs at hread
      · cases hread
      · exact (Option.some.inj (Except.ok.inj hread)).symm
    have hsize : ((Walk.extent scanOptions oneFileTar ⟨0,none⟩ { pos := 0, gnu := false }
        (oneFileTar.take 512)).toOption.map (·.onTape)) = some 1 := by decide +kernel
    rw [← hheader,he] at hsize
    have htape : e.onTape = 1 := Option.some.inj hsize
    rw [htape]
    decide
  have hnext : (Walk.step scanOptions oneFileTar ⟨0,none⟩ { pos := 0, gnu := false }).map Walk.pos = some 1024 := by
    decide +kernel
  -- the first state reads the file's header, all others lie behind the file
  intro n v hv _
  cases n with
  | zero => exact absurd hv not_mem_nil
  | succ n =>
    obtain ⟨w',hs,hpos⟩ := Option.map_eq_some_iff.mp hnext
    rw [Loop.trace_succ_of_some hs] at hv
    rcases mem_cons.mp hv with rfl | hv
    · exact hfirst
    · exact v.spanFits_oneFileTar (Walk.behind_oneFileTar hpos.ge hv)

/-- A header whose base-256 size is `2 ^ 64 - 512`. -/
def wrappingHeader : Bytes :=
  97 :: List.replicate 123 0 ++ [128,0,0,0,255,255,255,255,255,255,254,0] ++ List.replicate 20 0 ++
    48 :: List.replicate 355 0

/-- The index loop reads the header at offset 0 again and again. -/
theorem wrapping_stands_still :
    (Loop.trace (Walk.step scanOptions wrappingHeader ⟨0,none⟩) 4 { pos := 0, gnu := false }).map Walk.pos =
        [0,0,0,0] ∧
      ¬ Loop.Progresses (Walk.step scanOptions wrappingHeader ⟨0,none⟩) Walk.pos blockSize wrappingHeader.length
        { pos := 0, gnu := false } := by
  have htrace : (Loop.trace (Walk.step scanOptions wrappingHeader ⟨0,none⟩) 4
      { pos := 0, gnu := false }).map Walk.pos = [0,0,0,0] := by decide +kernel
  refine ⟨htrace,?_⟩
  intro hprogress
  have hpair := (hprogress 4).1
  rw [← pairwise_map (R := fun a b => a + blockSize ≤ b),htrace] at hpair
  exact absurd hpair (by decide)

end Ratarmount.Tar
