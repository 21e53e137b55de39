import Ratarmount.GzipBlob
import Ratarmount.GzipIndexSound

/-!
# Importing an exported index

When the strict import of an exported index succeeds on the same file. The walk of
the import makes the calls of the walk that built the index as long as there are
targets, so it meets the same offsets within a member. The start of a second member
has the uncompressed offset at which the first one ends, and is looked for there.
-/

namespace Ratarmount.Gzip

open Streaming List Checkpoint Bool

variable {S : Type} {d : Decoder S} {file : Bytes} {io : Backend file} {members : List Member}

variable {p : Checkpoint S} {ps : List (Checkpoint S)} {targets points : List (ℕ × ℕ)} {i i' : Importing S}
  {m m' : Member} {ms : List Member} {turns base c t spacing : ℕ} {h : Handle} {result : ℕ × ℕ × Building S × Handle}
  {s : S} {b b' : Building S} {res : Progress S} {index : GzipSeekIndex S}

/-- A target elsewhere in the compressed stream is not taken, and what is left lies ahead. -/
theorem takeIfDue_strict_kept {q : ℕ × ℕ} (h : takeIfDue true p ps targets = .ok i) (hup : Ascending targets)
    (hq : q∈targets) (hne : p.compressedOffset≠q.1) :
    Ascending i.targets ∧ q∈i.targets ∧ ∀x∈i.targets,p.uncompressedOffset<x.2 := by
  induction targets generalizing ps with
  | nil => cases hq
  | cons x targets ih =>
    have hrest:=pairwise_cons.mp hup
    rw [takeIfDue] at h
    split_ifs at h with hdue hland hstrict
    · rcases mem_cons.mp hq with rfl | hq
      · exact absurd ⟨rfl,hne⟩ hstrict
      · exact ih h hrest.2 hq
    · rw [←Except.ok.inj h]
      refine ⟨hup,hq,?_⟩
      intro y hy
      rcases mem_cons.mp hy with rfl | hy
      · omega
      · have := hrest.1 y hy
        omega

/-- The start of a second member is looked for at the end of the first, where it is not. -/
theorem walk_import_second (hd : Steady d) (hlayout : Layout d file 0 (m::m'::ms)) (hup : Ascending targets)
    (hmem : (m'.start,m.out.length)∈targets) {result : ℕ × Importing S} :
    walk d io (importRecorder true) turns 0 0 ⟨[],targets⟩ h ≠ .ok result := by
  intro hok
  rcases walk_turn hlayout hok with ⟨hne,-⟩ | ⟨turns',m₁,ms₁,i,h',next,heq,rfl,hstart,hmember,-⟩
  · cases hne
  · cases heq
    cases hlayout with
    | member hheader hdec htrailer hlayout' =>
      cases hlayout' with
      | member hheader' _ _ _ =>
        have hbehind : m.start+m.used < m'.start := by
          have hle:=le_of_headerAt hheader'
          rw [Member.next] at hle
          omega
        have hinit:=takeIfDue_strict_kept hstart hup hmem (by
          change m.start≠m'.start
          omega)
        obtain ⟨-,-,-,hq,hahead⟩:=@walkMember_rule _ _ d file io _ hd m 0
          (fun _ t i => Ascending i.targets ∧ (m'.start,m.out.length)∈i.targets ∧ ∀x∈i.targets,t<x.2)
          (by
            rintro c t c' t' s i i' - - ⟨_,_,used,-,-,hc,-⟩ ⟨hi,hq,-⟩ hi'
            refine takeIfDue_strict_kept hi' hi hq ?_
            change c'≠m'.start
            omega)
          _ _ _ _ _ _ _ (inside_start hdec 0) hinit hmember
        have hlt:=hahead _ hq
        omega

def Backend.Timeless (io : Backend file) : Prop := ∀ turn, io.serve turn = io.serve 0

theorem readAt_timeless (hio : io.Timeless) (offset n : ℕ) (h h' : Handle) :
    (io.readAt offset n h).1=(io.readAt offset n h').1 := by
  obtain ⟨turn,hread⟩:=readAt_fst io offset n h
  obtain ⟨turn',hread'⟩:=readAt_fst io offset n h'
  rw [hread,hread',hio turn,hio turn']

theorem parse_timeless (hio : io.Timeless) {offset : ℕ} {v : Option ℕ} {k : Handle}
    (hparse : parseGzipHeader io offset h = .ok (v,k)) (h' : Handle) :
    ∃k',parseGzipHeader io offset h' = .ok (v,k') := by
  have halike:=parseGzipHeader_alike (readAt_timeless hio offset 10 h h')
  rw [hparse] at halike
  exact ok_of_map_fst halike.symm

/-- Without targets the walk of an import runs to the end of the member. -/
theorem walkMember_import_free (hd : Steady d) (htrailer : m.next≤file.length) (hin : Inside d file m base c t s)
    (strict : Bool) (ps : List (Checkpoint S)) :
    ∃N,∀turns ≥ N,∀h,∃h',walkMember d io (importRecorder strict) turns s c t ⟨ps,[]⟩ h =
      .ok (m.next,base+m.out.length,⟨ps,[]⟩,h') := by
  refine ⟨m.start+m.used-c+(base+m.out.length-t)+1,?_⟩
  intro turns hturns h
  induction turns generalizing c t s h with
  | zero => omega
  | succ turns ih =>
    obtain ⟨k,h',hread,-,hk⟩:=readAt_spec io c inputChunk h (by decide)
    obtain ⟨res,hcall,-,hin',-,hlast,hmoves⟩:=hin.call hd hk (outCap_pos (importRecorder strict) t ⟨ps,[]⟩)
    rw [walkMember_succ hread hcall rfl]
    by_cases hend : res.ended=true
    · obtain ⟨hcEnd,htEnd⟩:=hlast hend
      exact ⟨h',by rw [if_pos hend,hcEnd,htEnd]; rfl⟩
    · have hmoves:=hmoves (by simpa using hend)
      obtain ⟨hcLe',htLe'⟩:=hin'.le
      rw [if_neg hend,if_neg (fun hstuck => slice_ne_nil hk (by rw [Member.next] at htrailer; omega) hstuck.1)]
      exact ih hin' (by omega) h'

/-- The cap makes the walk of `build_index` land on the next checkpoint, which is recorded once. -/
theorem spacing_due {written : ℕ} (hspacing : 0<spacing) (hlt : t<b.nextCpAt)
    (hfits : written≤(spacingRecorder spacing).outCap t b)
    (hdue : (spacingRecorder spacing).due c (t+written) s b = .ok b') : (t+written<b.nextCpAt ∧ b'=b) ∨
      (t+written=b.nextCpAt ∧ b'=⟨b.checkpoints++[⟨c,t+written,s⟩],b.nextCpAt+spacing⟩) := by
  have hcap : (spacingRecorder spacing).outCap t b=max (min (b.nextCpAt-t) outputChunk) 1:=if_pos hlt
  have hle : t+written≤b.nextCpAt := by omega
  change recordDue spacing ⟨c,t+written,s⟩ (t+written+1+1) b = .ok b' at hdue
  rw [recordDue] at hdue
  split_ifs at hdue with hreached
  · have heq:=le_antisymm hle hreached
    have hstop : ¬(t+written ≥ b.nextCpAt+spacing) := by omega
    rw [recordDue,if_neg hstop] at hdue
    exact .inr ⟨heq,(Except.ok.inj hdue).symm⟩
  · exact .inl ⟨Nat.lt_of_not_ge hreached,(Except.ok.inj hdue).symm⟩

theorem takeIfDue_ahead {strict : Bool} (h : ∀q∈targets.head?,p.uncompressedOffset<q.2) : takeIfDue strict p ps targets = .ok ⟨ps,targets⟩ := by
  cases targets with
  | nil => rfl
  | cons q targets =>
    have hq:=h q rfl
    rw [takeIfDue,if_neg (by omega)]

theorem takeIfDue_self {strict : Bool} {p : Checkpoint S} {ps : List (Checkpoint S)} {targets : List (ℕ × ℕ)}
    (h : ∀q∈targets.head?,p.uncompressedOffset<q.2) :
    takeIfDue strict p ps (p.offsets::targets) = .ok ⟨ps++[p],targets⟩ := by
  rw [offsets,takeIfDue,if_pos (le_refl _),if_neg (not_not_intro rfl),if_neg (fun hne => hne.2 rfl)]
  exact takeIfDue_ahead h

/-- The first checkpoint that is recorded within a member is the one that was due next. -/
theorem walkMember_spacing_new (hd : Steady d) (hspacing : 0<spacing) (hin : Inside d file m base c t s)
    (hlt : t<b.nextCpAt) (hok : walkMember d io (spacingRecorder spacing) turns s c t b h = .ok result) :
    ∃new,result.2.2.1.checkpoints=b.checkpoints++new ∧ ∀p∈new.head?,p.uncompressedOffset=b.nextCpAt := by
  induction turns generalizing s c t b h with
  | zero => cases hok
  | succ turns ih =>
    obtain ⟨turns',res,b',h',hturns,hin',-,hfits,hdue,hcase⟩:=walkMember_turn hd hin hok
    obtain rfl : turns=turns':=Nat.succ.inj hturns
    rcases spacing_due hspacing hlt hfits hdue with ⟨hbefore,rfl⟩ | ⟨hat,rfl⟩
    · rcases hcase with ⟨-,rfl,-⟩ | ⟨-,hrest⟩
      · exact ⟨[],(append_nil _).symm,fun p hp => by cases hp⟩
      · exact ih hin' hbefore hrest
    · rcases hcase with ⟨-,rfl,-⟩ | ⟨-,hrest⟩
      · refine ⟨_,rfl,fun p hp => ?_⟩
        obtain rfl:=Option.some.inj hp
        exact hat
      · obtain ⟨new,hnew,-⟩:=ih hin' (by change _<b.nextCpAt+spacing; omega) hrest
        refine ⟨_::new,by rw [hnew,append_assoc]; rfl,fun p hp => ?_⟩
        obtain rfl:=Option.some.inj hp
        exact hat

/-- With enough turns the inner loop of a strict import ends so, whatever the handle. -/
def Ends (d : Decoder S) (io : Backend file) (s : S) (c t : ℕ) (i : Importing S) (c' t' : ℕ) (i' : Importing S) : Prop :=
  ∃ N, ∀ turns ≥ N, ∀ h, ∃ h', walkMember d io (importRecorder true) turns s c t i h = .ok (c',t',i',h')

/-- Every handle reads the same bytes at `c`, and the call makes this progress. -/
def Calls (d : Decoder S) (io : Backend file) (s : S) (c room : ℕ) (res : Progress S) : Prop :=
  ∀ h, ∃ input k, io.readAt c inputChunk h = (input,k) ∧ input ≠ [] ∧ d.call s input room = some res

theorem Ends.last (hcall : Calls d io s c ((importRecorder true).outCap t i) res) (hend : res.ended=true)
    (hdue : takeIfDue true ⟨c+res.consumed,t+res.written.length,res.state⟩ i.checkpoints i.targets = .ok i') :
    Ends d io s c t i (c+res.consumed+8) (t+res.written.length) i' := by
  refine ⟨1,fun turns hturns h => ?_⟩
  obtain ⟨n,rfl⟩ : ∃n,turns=n+1:=⟨turns - 1,by omega⟩
  obtain ⟨input,k,hread,-,hc⟩:=hcall h
  exact ⟨k,by rw [walkMember_succ hread hc hdue,if_pos hend]⟩

theorem Ends.turn {c' t' : ℕ} {i₁ : Importing S} (hcall : Calls d io s c ((importRecorder true).outCap t i) res)
    (hend : res.ended=false)
    (hdue : takeIfDue true ⟨c+res.consumed,t+res.written.length,res.state⟩ i.checkpoints i.targets = .ok i₁)
    (hrest : Ends d io res.state (c+res.consumed) (t+res.written.length) i₁ c' t' i') : Ends d io s c t i c' t' i' := by
  obtain ⟨N,hN⟩:=hrest
  refine ⟨N+1,fun turns hturns h => ?_⟩
  obtain ⟨n,rfl⟩ : ∃n,turns=n+1:=⟨turns - 1,by omega⟩
  obtain ⟨input,k,hread,hne,hc⟩:=hcall h
  rw [walkMember_succ hread hc hdue,if_neg (by simp [hend]),if_neg fun hstuck => hne hstuck.1]
  exact hN n (by omega) k

/-- Within a member, the import of the recorded offsets records the same checkpoints. -/
theorem walkMember_reimport (hd : Steady d) (hio : io.Timeless) (hspacing : 0<spacing)
    (htrailer : m.next≤file.length) (hin : Inside d file m base c t s) (hlt : t<b.nextCpAt)
    (hok : walkMember d io (spacingRecorder spacing) turns s c t b h = .ok result) {new : List (Checkpoint S)}
    (hnew : result.2.2.1.checkpoints=b.checkpoints++new) (ps : List (Checkpoint S)) :
    Ends d io s c t ⟨ps,new.map offsets⟩ m.next (base+m.out.length) ⟨ps++new,[]⟩ := by
  induction turns generalizing s c t b h new ps with
  | zero => cases hok
  | succ turns ih =>
    cases new with
    | nil =>
      rw [append_nil]
      exact walkMember_import_free hd htrailer hin true ps
    | cons p new =>
      obtain ⟨turns',res,b',h',hturns,hin',hcall,hfits,hdue,hcase⟩:=walkMember_turn hd hin hok
      obtain rfl : turns=turns':=Nat.succ.inj hturns
      have hp : p.uncompressedOffset=b.nextCpAt := by
        obtain ⟨new',hnew',hhead⟩:=walkMember_spacing_new hd hspacing hin hlt hok
        rw [hnew] at hnew'
        rw [←append_cancel_left hnew'] at hhead
        exact hhead p rfl
      have hcalls : Calls d io s c ((importRecorder true).outCap t ⟨ps,(p::new).map offsets⟩) res := by
        -- the next target is the checkpoint that was due, so the cap is the same
        have hcap : (importRecorder true).outCap t ⟨ps,(p::new).map offsets⟩ =
            (spacingRecorder spacing).outCap t b := by
          change (if p.uncompressedOffset > t then max (min (p.uncompressedOffset-t) outputChunk) 1 else outputChunk)=_
          rw [hp]
          rfl
        intro h₁
        obtain ⟨k,h₂,hk,-,hpos⟩:=readAt_spec io c inputChunk h₁ (by decide)
        have hcLe:=hin.le.1
        rw [Member.next] at htrailer
        refine ⟨file.slice c k,h₂,hk,slice_ne_nil hpos (by omega),?_⟩
        rw [hcap,←hcall,readAt_timeless hio c inputChunk h h₁,hk]
      rcases spacing_due hspacing hlt hfits hdue with ⟨hbefore,rfl⟩ | ⟨hat,rfl⟩
      · rcases hcase with ⟨-,rfl,-⟩ | ⟨hend,hrest⟩
        · exact absurd (append_right_eq_self.mp hnew.symm) (cons_ne_nil p new)
        · refine Ends.turn hcalls hend (takeIfDue_ahead fun q hq => ?_) (ih hin' hbefore hrest hnew ps)
          obtain rfl:=Option.some.inj hq
          change t+res.written.length<p.uncompressedOffset
          rw [hp]
          exact hbefore
      · rcases hcase with ⟨hend,rfl,hcEnd,htEnd⟩ | ⟨hend,hrest⟩
        · obtain ⟨hhead,rfl⟩:=List.cons.inj (append_cancel_left hnew)
          rw [←htEnd,Member.next,←hcEnd]
          refine Ends.last hcalls hend ?_
          rw [hhead]
          exact takeIfDue_self fun q hq => by cases hq
        · have hlt' : t+res.written.length<b.nextCpAt+spacing := by omega
          obtain ⟨new',hnew',hfirst⟩:=walkMember_spacing_new hd hspacing hin' hlt' hrest
          rw [hnew,append_assoc] at hnew'
          obtain ⟨hhead,rfl⟩:=List.cons.inj (append_cancel_left hnew')
          have hrest':=ih hin' hlt' hrest (by rw [hnew,hhead,append_assoc]; rfl) (ps++[p])
          rw [append_assoc] at hrest'
          refine Ends.turn hcalls hend ?_ hrest'
          rw [hhead]
          refine takeIfDue_self fun q hq => ?_
          rw [head?_map] at hq
          obtain ⟨x,hx,rfl⟩:=Option.map_eq_some_iff.mp hq
          change t+res.written.length<x.uncompressedOffset
          rw [hfirst x hx]
          exact hlt'

theorem recordDue_zero (hreached : p.uncompressedOffset ≥ b.nextCpAt) : recordDue 0 p turns b ≠ .ok b' := by
  induction turns generalizing b with
  | zero => exact fun h => by cases h
  | succ turns ih =>
    rw [recordDue,if_pos hreached]
    exact ih hreached

/-- With spacing 0 the loop that records checkpoints does not end. -/
theorem spacing_pos_of_walkMember (hd : Steady d) (hin : Inside d file m base c t s)
    (hnext : b.nextCpAt=t+spacing) (hok : walkMember d io (spacingRecorder spacing) turns s c t b h = .ok result) : 0<spacing := by
  by_contra hzero
  obtain rfl : spacing=0 := by omega
  obtain ⟨turns',res,b',h',-,-,-,-,hdue,-⟩:=walkMember_turn hd hin hok
  exact recordDue_zero (by change t+res.written.length ≥ b.nextCpAt; omega) hdue

section

variable {R R' : Type} {rec : Recorder S R} {rec' : Recorder S R'}

variable {turns offset : ℕ} {h : Handle} {result : ℕ × R}

theorem walk_parse {t : ℕ} {r : R} (hlt : offset<file.length) (hok : walk d io rec turns offset t r h = .ok result) : ∃v k,parseGzipHeader io offset h = .ok (v,k) := by
  cases turns with
  | zero => cases hok
  | succ turns =>
    rw [walk,if_pos hlt] at hok
    obtain ⟨⟨v,k⟩,hparse,-⟩:=bind_ok hok
    exact ⟨v,k,hparse⟩

/-- Where one walk has ended, every walk ends. -/
theorem walk_last (hio : io.Timeless) {turns' t t' : ℕ} {r : R} {r' : R'} {h' : Handle}
    (hlayout : Layout d file offset []) (hok : walk d io rec turns offset t r h = .ok result) :
    walk d io rec' (turns'+1) offset t' r' h' = .ok (t',r') := by
  rw [walk]
  split_ifs with hlt
  · obtain ⟨v,k,hparse⟩:=walk_parse hlt hok
    cases hlayout with
    | last hend =>
      rw [headerAt_of_parse hparse] at hend
      obtain rfl:=Except.ok.inj hend
      obtain ⟨k',hparse'⟩:=parse_timeless hio hparse h'
      rw [hparse']
      rfl
  · rfl

end

theorem ascending_mergeSort (points : List (ℕ × ℕ)) : Ascending (points.mergeSort pointLe) := by
  refine (pairwise_mergeSort ?_ ?_ points).imp ?_
  · intro a b c hab hbc
    simp only [pointLe,or_eq_true,and_eq_true,decide_eq_true_eq] at *
    omega
  · intro a b
    simp only [pointLe,or_eq_true,and_eq_true,decide_eq_true_eq]
    omega
  · intro a b hab
    simp only [pointLe,or_eq_true,and_eq_true,decide_eq_true_eq] at hab
    omega

def Rising (points : List (ℕ × ℕ)) : Prop := points.Pairwise fun a b => a.1 ≤ b.1 ∧ a.2 ≤ b.2

theorem mergeSort_rising (h : Rising points) : points.mergeSort pointLe=points := by
  refine mergeSort_of_pairwise (h.imp fun {a b} hab => ?_)
  simp only [pointLe,or_eq_true,and_eq_true,decide_eq_true_eq]
  omega

theorem usable_rising {p : ℕ × ℕ} (h : Rising (p::points)) (hzero : p.2=0) :
    gzipSeekPointsUsable (p::points)=true := by
  have hsteps : ∀{points : List (ℕ × ℕ)},Rising points →
      ((points.zip points.tail).all fun w => decide (w.1.1≤w.2.1) && decide (w.1.2≤w.2.2))=true := by
    intro points hp
    induction points with
    | nil => rfl
    | cons a points ih =>
      obtain ⟨ha,hrest⟩:=pairwise_cons.mp hp
      cases points with
      | nil => rfl
      | cons b points =>
        obtain ⟨hc,hu⟩:=ha b mem_cons_self
        have hall:=ih hrest
        simp only [tail_cons] at hall
        simp only [tail_cons,zip_cons_cons,all_cons,hall,hc,hu,decide_true,Bool.and_true]
  rw [gzipSeekPointsUsable,hsteps h]
  simp [hzero]

def GzipSeekIndex.Fits (index : GzipSeekIndex S) : Prop :=
  index.uncompressedSize < 2 ^ 64 ∧ Fit (index.checkpoints.map offsets)

/-- The states of two checkpoints decode the same output from there on. -/
def SameAhead (d : Decoder S) (file : Bytes) (a b : Checkpoint S) : Prop :=
  ∀ out used, Decodes d a.restore (file.drop a.compressedOffset) out used ↔
    Decodes d b.restore (file.drop b.compressedOffset) out used

/-- The exported index is imported for the same file, with any handle: the blob parses, the strict import of its
points ends, and its checkpoints have the same offsets and the same output ahead of them. -/
def Reimports (d : Decoder S) (io : Backend file) (index : GzipSeekIndex S) : Prop :=
  ∃ blob, parseGzipSeekIndexBlob (exportSeekIndexBlob index) = .ok blob ∧
    ∀ spacing h, ∃ turns imported,
      importSeekPoints d io blob.points spacing blob.uncompressedSize turns h = .ok imported ∧
      imported.checkpoints.map offsets = index.checkpoints.map offsets ∧
      List.Forall₂ (SameAhead d file) imported.checkpoints index.checkpoints

/-- What a strict import of points has done when it succeeds. -/
theorem importSeekPoints_ok {expected : ℕ} {imported : GzipSeekIndex S} (hne : points≠[])
    (hok : importSeekPoints d io points spacing expected turns h = .ok imported) :
    ∃result,walk d io (importRecorder true) turns 0 0 ⟨[],points.mergeSort pointLe⟩ h = .ok result ∧
      result.2.targets=[] ∧ imported.checkpoints=orDummy d result.2.checkpoints := by
  rw [importSeekPoints,importSeekPointsWithMode] at hok
  simp only at hok
  rw [if_neg hne] at hok
  split_ifs at hok with husable
  obtain ⟨result,hwalk,hok⟩:=bind_ok hok
  split_ifs at hok with hmissed hsize
  refine ⟨result,hwalk,not_not.mp hmissed,?_⟩
  rw [←Except.ok.inj hok]

section Steady

variable (hd : Steady d)
include hd

theorem import_length (hlayout : Layout d file 0 members) {result : ℕ × Importing S}
    (hwalk : walk d io (importRecorder true) turns 0 0 ⟨[],points.mergeSort pointLe⟩ h = .ok result)
    (hdone : result.2.targets=[]) : result.2.checkpoints.length=points.length := by
  obtain ⟨-,-,taken,htaken,hsame⟩:=walk_import hd hlayout hwalk
  rw [hdone,append_nil] at htaken
  have hmap:=congrArg List.length hsame
  rw [length_map,length_map,←htaken,length_mergeSort] at hmap
  exact hmap

/-- A strict import of the start of every member succeeds for exactly one member only. -/
theorem one_member_of_import (hlayout : Layout d file 0 members) (hne : points≠[])
    (hstarts : ∀m m' ms,members=m::m'::ms→(m'.start,m.out.length)∈points) {result : ℕ × Importing S}
    (hwalk : walk d io (importRecorder true) turns 0 0 ⟨[],points.mergeSort pointLe⟩ h = .ok result)
    (hdone : result.2.targets=[]) : members.length=1 := by
  cases members with
  | nil =>
    have hlength:=import_length hd hlayout hwalk hdone
    rcases walk_turn hlayout hwalk with ⟨-,rfl⟩ | ⟨_,_,_,_,_,_,hcons,-⟩
    · exact absurd (length_eq_zero_iff.mp hlength.symm) hne
    · cases hcons
  | cons m ms =>
    cases ms with
    | nil => rfl
    | cons m' ms =>
      exact absurd hwalk (walk_import_second hd hlayout (ascending_mergeSort points)
        (mem_mergeSort.mpr (hstarts m m' ms rfl)))

/-- The start of a second member is among the exported points. -/
theorem buildIndex_second (hlayout : Layout d file 0 (m::m'::ms))
    (hbuild : buildIndex d io spacing turns h = .ok index) :
    (m'.start,m.out.length)∈index.checkpoints.map offsets := by
  obtain ⟨result,hwalk,hindex⟩:=bind_ok hbuild
  have hmem:=@walk_spacing_starts _ d file io hd spacing [m] m' ms [] 0 turns _ _ _ hlayout hwalk
  rw [←Except.ok.inj hindex]
  rw [orDummy_of_mem hmem]
  refine mem_map.mpr ⟨_,hmem,?_⟩
  simp [offsets,content]

/-- The index of a file with one member: its start, and what the walk recorded within it. -/
theorem buildIndex_single (hlayout : Layout d file 0 [m]) (hbuild : buildIndex d io spacing turns h = .ok index) :
    ∃turns' h' next new,0<spacing ∧ index.checkpoints=⟨m.start,0,d.init⟩::new ∧
      index.uncompressedSize=m.out.length ∧ (∀p∈new.head?,p.uncompressedOffset=spacing) ∧
      walkMember d io (spacingRecorder spacing) turns' d.init m.start 0 ⟨[⟨m.start,0,d.init⟩],spacing⟩ h' = .ok next ∧
      next.2.2.1.checkpoints=[⟨m.start,0,d.init⟩]++new ∧ (∃v k,parseGzipHeader io 0 h = .ok (v,k)) ∧
      ∃result,walk d io (spacingRecorder spacing) turns' m.next (0+m.out.length) next.2.2.1 next.2.2.2 = .ok result := by
  obtain ⟨result,hwalk,hindex⟩:=bind_ok hbuild
  rcases walk_turn hlayout hwalk with ⟨hne,-⟩ | ⟨turns',m₁,ms₁,b,h',next,heq,rfl,hstart,hmember,hrest⟩
  · cases hne
  · cases heq
    cases hlayout with
    | member hheader hdec htrailer hlast =>
      have hin:=inside_start hdec 0
      have hb:=(Except.ok.inj hstart).symm
      rw [zero_add] at hb
      subst hb
      have hspacing:=spacing_pos_of_walkMember hd hin (zero_add spacing).symm hmember
      obtain ⟨new,hnew,hhead⟩:=walkMember_spacing_new hd hspacing hin hspacing hmember
      obtain ⟨h1,h2,-⟩:=@walkMember_rule _ _ d file io _ hd m 0 (fun _ _ _ => True)
        (fun _ _ _ _ _ => trivial) _ _ _ _ _ _ _ hin trivial hmember
      rw [h1,h2] at hrest
      have hresult : result=(0+m.out.length,next.2.2.1) := by
        rcases walk_turn hlast hrest with ⟨-,hr⟩ | ⟨_,_,_,_,_,_,hcons,-⟩
        · exact hr
        · cases hcons
      refine ⟨turns',h',next,new,hspacing,?_,?_,hhead,hmember,hnew,
        walk_parse (lt_of_headerAt hheader) hwalk,result,hrest⟩
      · rw [←Except.ok.inj hindex,hresult]
        rw [hnew]
        rfl
      · rw [←Except.ok.inj hindex,hresult]
        exact zero_add _

theorem buildIndex_rising (hlayout : Layout d file 0 members) (hbuild : buildIndex d io spacing turns h = .ok index) :
    Rising (index.checkpoints.map offsets) := by
  obtain ⟨result,hwalk,hindex⟩:=bind_ok hbuild
  obtain ⟨-,c,hrec⟩:=walk_spacing hd hlayout hwalk
  rw [←Except.ok.inj hindex]
  rw [orDummy]
  split_ifs
  · exact pairwise_singleton _ _
  · exact pairwise_map.mpr hrec.ordered

/-- The exported points of a file with one member give the same checkpoints again, states included. -/
theorem reimport_single (hio : io.Timeless) (hlayout : Layout d file 0 [m])
    (hbuild : buildIndex d io spacing turns h = .ok index) (spacing' : ℕ) (h₁ : Handle) :
    ∃turns imported,importSeekPoints d io (index.checkpoints.map offsets) spacing' index.uncompressedSize
      turns h₁ = .ok imported ∧ imported.checkpoints=index.checkpoints := by
  have hrising:=buildIndex_rising hd hlayout hbuild
  obtain ⟨turns',h',next,new,hspacing,hcps,hsize,hhead,hmember,hnew,⟨v,k,hparse⟩,result,hrest⟩ :=
    buildIndex_single hd hlayout hbuild
  cases hlayout with
  | member hheader hdec htrailer hlast =>
    obtain ⟨N,hN⟩:=walkMember_reimport hd hio hspacing htrailer (inside_start hdec 0) hspacing hmember hnew
      [⟨m.start,0,d.init⟩]
    obtain ⟨k',hparse'⟩:=parse_timeless hio hparse h₁
    have hlt:=lt_of_headerAt hheader
    rw [headerAt_of_parse hparse] at hheader
    obtain rfl : v=some m.start:=Except.ok.inj hheader
    obtain ⟨h₂,hmember'⟩:=hN (N+1) (Nat.le_succ N) k'
    have hstart : (importRecorder true).start m.start 0 d.init
        ⟨[],offsets ⟨m.start,0,d.init⟩::new.map offsets⟩ =
          .ok ⟨[⟨m.start,0,d.init⟩],new.map offsets⟩ := by
      refine @takeIfDue_self _ true ⟨m.start,0,d.init⟩ [] _ fun q hq => ?_
      rw [head?_map] at hq
      obtain ⟨x,hx,rfl⟩:=Option.map_eq_some_iff.mp hq
      change 0<x.uncompressedOffset
      rw [hhead x hx]
      exact hspacing
    rw [hcps,map_cons] at hrising
    have hwalk : walk d io (importRecorder true) (N+2) 0 0
        ⟨[],offsets ⟨m.start,0,d.init⟩::new.map offsets⟩ h₁ =
          .ok (0+m.out.length,⟨⟨m.start,0,d.init⟩::new,[]⟩) := by
      rw [walk,if_pos hlt,hparse']
      simp only [bind,Except.bind,hstart,hmember']
      exact walk_last hio hlast hrest
    refine ⟨N+2,⟨⟨m.start,0,d.init⟩::new,0+m.out.length,max spacing' (64*1024),file.length⟩,?_,hcps.symm⟩
    rw [importSeekPoints,importSeekPointsWithMode,hcps,map_cons]
    simp only
    rw [usable_rising hrising rfl,mergeSort_rising hrising,hwalk,hsize]
    simp [orDummy]

/-- An exported index that is imported again has one member and a number of checkpoints that 32 bits hold. -/
theorem one_member_of_reimports (hlayout : Layout d file 0 members)
    (hbuild : buildIndex d io spacing turns h = .ok index) (hfits : index.Fits) (hre : Reimports d io index) : members.length=1 ∧ index.checkpoints.length<2^32 := by
  have hrising:=buildIndex_rising hd hlayout hbuild
  have hparse:=@parse_encode _ hfits.2 (hrising.imp fun h => h.2) index.spacing _ hfits.1
  obtain ⟨blob,hblob,himport⟩:=hre
  rw [exportSeekIndexBlob,hparse] at hblob
  obtain rfl:=Except.ok.inj hblob
  obtain ⟨turns',imported,hok,hsame,-⟩:=himport 0 (.file 0 0)
  have hcps : index.checkpoints≠[] := by
    obtain ⟨result,-,hindex⟩:=bind_ok hbuild
    rw [←Except.ok.inj hindex]
    exact orDummy_ne_nil
  obtain ⟨points,hpoints⟩ : ∃points,points=(index.checkpoints.map offsets).take (2^32 - 1):=⟨_,rfl⟩
  have hlength : points.length=min (2^32-1) index.checkpoints.length := by
    rw [hpoints,length_take,length_map]
  have hpos:=length_pos_of_ne_nil hcps
  have hne : points≠[]:=ne_nil_of_length_pos (by omega)
  rw [←hpoints] at hok
  obtain ⟨result,hwalk,hdone,himported⟩:=importSeekPoints_ok hne hok
  have hrecorded:=import_length hd hlayout hwalk hdone
  have hcount : index.checkpoints.length<2^32 := by
    have hlengths:=congrArg List.length hsame
    rw [length_map,length_map,himported,orDummy,
      if_neg (ne_nil_of_length_pos (by omega)),hrecorded,hlength] at hlengths
    omega
  refine ⟨one_member_of_import hd hlayout hne ?_ hwalk hdone,hcount⟩
  rintro m m' ms rfl
  rw [hpoints,take_of_length_le (by rw [length_map]; omega)]
  exact buildIndex_second hd hlayout hbuild

end Steady

/-- The index that was built and exported can be imported for the same file if and only if the file has exactly
one member and the blob's 32 bits hold the number of checkpoints. -/
theorem reimports_iff (hd : Steady d) (hlayout : Layout d file 0 members) (hio : io.Timeless) {spacing turns : ℕ}
    {h : Handle} {index : GzipSeekIndex S} (hbuild : buildIndex d io spacing turns h = .ok index) (hfits : index.Fits) :
    Reimports d io index ↔ members.length = 1 ∧ index.checkpoints.length < 2 ^ 32 := by
  refine ⟨one_member_of_reimports hd hlayout hbuild hfits,?_⟩
  rintro ⟨hone,hcount⟩
  obtain ⟨m,rfl⟩ := length_eq_one_iff.mp hone
  have hrising := buildIndex_rising hd hlayout hbuild
  have hparse := @parse_encode _ hfits.2 (hrising.imp fun h => h.2) index.spacing _ hfits.1
  rw [take_of_length_le (by rw [length_map]; omega)] at hparse
  refine ⟨_,hparse,fun spacing' h' => ?_⟩
  obtain ⟨turns',imported,hok,hsame⟩ := reimport_single hd hio hlayout hbuild spacing' h'
  refine ⟨turns',imported,hok,by rw [hsame],?_⟩
  rw [hsame]
  exact List.forall₂_same.mpr fun p _ out used => Iff.rfl

theorem reimports_oneMember : Reimports literal (Backend.whole oneMember) oneIndex := by
  have hbound : ∀ p ∈ oneIndex.checkpoints.map offsets, p.1 < 2 ^ 64 ∧ p.2 < 2 ^ 64 := by decide
  exact (reimports_iff steady_literal layout_oneMember (fun _ => rfl) build_oneMember
    ⟨by decide,hbound⟩).mpr ⟨rfl,by decide⟩

/-- The second member's start is looked for where the first one ends. -/
theorem second_member_refused :
    buildIndex literal (Backend.whole twoMembers) 1 5 (.file 0 0) = .ok twoIndex ∧
      importSeekPoints literal (Backend.whole twoMembers) (twoIndex.checkpoints.map offsets) 1 2 9
        (.file 0 0) = .error (.offsetMismatch 1 30 11) ∧
      ¬ Reimports literal (Backend.whole twoMembers) twoIndex := by
  refine ⟨build_twoMembers,?_,fun hre => ?_⟩
  · have hsort : (twoIndex.checkpoints.map offsets).mergeSort pointLe =
        twoIndex.checkpoints.map offsets := mergeSort_rising (by rw [Rising]; decide)
    rw [importSeekPoints,importSeekPointsWithMode,hsort]
    decide +kernel
  have hbound : ∀ p ∈ twoIndex.checkpoints.map offsets, p.1 < 2 ^ 64 ∧ p.2 < 2 ^ 64 := by decide
  have hone := one_member_of_reimports steady_literal layout_twoMembers build_twoMembers ⟨by decide,hbound⟩ hre
  exact absurd hone.1 (by decide)

end Ratarmount.Gzip
