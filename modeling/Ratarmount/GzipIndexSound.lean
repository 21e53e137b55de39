import Ratarmount.GzipWalk

/-!
# What a seek index says

Every checkpoint of a built or imported index is a place in the stream with the
state that stands there, the checkpoints are in order, one of them is at the start,
and the recorded size is the length of the content.
-/

namespace Ratarmount.Gzip

open Streaming List Checkpoint

variable {S : Type} {d : Decoder S} {file : Bytes} {io : Backend file} {members : List Member}

/-- The checkpoints recorded up to the compressed offset `c` and the uncompressed offset `t`. -/
structure Recorded (d : Decoder S) (file : Bytes) (members : List Member) (c t : ℕ) (ps : List (Checkpoint S)) :
    Prop where
  ordered : ps.Pairwise fun a b => a.compressedOffset ≤ b.compressedOffset ∧ a.uncompressedOffset ≤ b.uncompressedOffset
  bounded : ∀ p ∈ ps, p.compressedOffset ≤ c ∧ p.uncompressedOffset ≤ t
  placed : ∀ p ∈ ps, Spot d file members p.compressedOffset p.uncompressedOffset p.restore

theorem recorded_nil (c t : ℕ) : Recorded d file members c t [] :=
  ⟨List.Pairwise.nil,fun _ hp => absurd hp not_mem_nil,fun _ hp => absurd hp not_mem_nil⟩

/-- A place behind all checkpoints may be recorded, any number of times. -/
theorem Recorded.append {c t : ℕ} {ps : List (Checkpoint S)} (hps : Recorded d file members c t ps)
    {p : Checkpoint S} (hc : c≤p.compressedOffset) (ht : t≤p.uncompressedOffset)
    (hp : Spot d file members p.compressedOffset p.uncompressedOffset p.restore) (k : ℕ) :
    Recorded d file members p.compressedOffset p.uncompressedOffset (ps++List.replicate k p) := by
  refine ⟨?_,?_,?_⟩
  · refine pairwise_append.mpr ⟨hps.ordered,pairwise_replicate.mpr (.inr ⟨le_refl _,le_refl _⟩),?_⟩
    intro a ha b hb
    obtain rfl:=eq_of_mem_replicate hb
    obtain ⟨hac,hat⟩:=hps.bounded a ha
    omega
  · intro a ha
    rcases mem_append.mp ha with ha | ha
    · obtain ⟨hac,hat⟩:=hps.bounded a ha
      omega
    · rw [eq_of_mem_replicate ha]
      omega
  · intro a ha
    rcases mem_append.mp ha with ha | ha
    · exact hps.placed a ha
    · rw [eq_of_mem_replicate ha]
      exact hp

variable {spacing turns : ℕ} {p : Checkpoint S} {b b' : Building S} {strict : Bool} {ps : List (Checkpoint S)}
  {targets points : List (ℕ × ℕ)} {h : Handle} {index : GzipSeekIndex S}

theorem recordDue_appends (h : recordDue spacing p turns b = .ok b') : ∃k,b'.checkpoints=b.checkpoints++List.replicate k p := by
  induction turns generalizing b with
  | zero => cases h
  | succ turns ih =>
    rw [recordDue] at h
    split_ifs at h
    · obtain ⟨k,hk⟩:=ih h
      refine ⟨k+1,?_⟩
      rw [hk,append_assoc]
      rfl
    · exact ⟨0,by rw [←Except.ok.inj h]; simp⟩

/-- A take records one checkpoint for each target that it takes, at the target's uncompressed offset. -/
theorem takeIfDue_appends {i : Importing S} (h : takeIfDue strict p ps targets = .ok i) :
    ∃taken,targets=taken++i.targets ∧ i.checkpoints=ps++List.replicate taken.length p ∧
      ∀q∈taken,q.2=p.uncompressedOffset ∧ (strict=true → q.1=p.compressedOffset) := by
  induction targets generalizing ps with
  | nil =>
    rw [←Except.ok.inj h]
    exact ⟨[],rfl,by simp,fun q hq => by cases hq⟩
  | cons q targets ih =>
    rw [takeIfDue] at h
    split_ifs at h with hdue hland hstrict
    · obtain ⟨taken,htargets,hps,htaken⟩:=ih h
      refine ⟨q::taken,by rw [htargets]; rfl,?_,?_⟩
      · rw [hps,append_assoc]
        rfl
      · intro x hx
        rcases mem_cons.mp hx with rfl | hx
        · exact ⟨(not_not.mp hland).symm,fun hs => by
            by_contra hne
            exact hstrict ⟨hs,fun heq => hne heq.symm⟩⟩
        · exact htaken x hx
    · rw [←Except.ok.inj h]
      exact ⟨[],rfl,by simp,fun x hx => by cases hx⟩

/-- The walk of `build_index` records places, in order. -/
theorem walk_spacing (hd : Steady d) (hlayout : Layout d file 0 members) {result : ℕ × Building S}
    (hok : walk d io (spacingRecorder spacing) turns 0 0 ⟨[],0⟩ h = .ok result) :
    result.1=(content members).length ∧ ∃c,Recorded d file members c result.1 result.2.checkpoints := by
  refine @walk_rule _ _ d file io (spacingRecorder spacing) hd members
    (fun c t b => Recorded d file members c t b.checkpoints) ?_ ?_ [] members 0 0 turns ⟨[],0⟩ h result rfl hlayout
    (le_refl 0) (recorded_nil 0 0) hok
  · intro c t c' t' s b b' hc ht hspot hrec hb
    rw [←Except.ok.inj hb]
    exact @Recorded.append _ d file members c t _ hrec ⟨c',t',s⟩ hc ht hspot 1
  · intro c t c' t' s b b' hc ht hspot hrec hb
    obtain ⟨k,hk⟩:=recordDue_appends hb
    rw [hk]
    exact @Recorded.append _ d file members c t _ hrec ⟨c',t',s⟩ hc ht hspot k

theorem mem_of_recorded {c t : ℕ} {s : S} {q : Checkpoint S} (hq : q∈b.checkpoints)
    (hb : (spacingRecorder spacing).due c t s b = .ok b') : q∈b'.checkpoints := by
  obtain ⟨k,hk⟩:=recordDue_appends hb
  rw [hk]
  exact mem_append_left _ hq

/-- A built index has a checkpoint at the start of every member. -/
theorem walk_spacing_starts (hd : Steady d) {spacing : ℕ} {pre : List Member} {m : Member} {after : List Member}
    {before : List Member} {offset turns : ℕ} {b : Building S} {h : Handle} {result : ℕ × Building S}
    (hlayout : Layout d file offset (pre++m::after))
    (hok : walk d io (spacingRecorder spacing) turns offset (content before).length b h = .ok result) :
    ⟨m.start,(content (before++pre)).length,d.init⟩∈result.2.checkpoints := by
  induction pre generalizing before offset turns b h with
  | nil =>
    rcases walk_turn hlayout hok with ⟨hne,-⟩ | ⟨turns',m',ms',b',h',next,heq,rfl,hstart,hmember,hrest⟩
    · cases hne
    · cases heq
      cases hlayout with
      | member hheader hdec htrailer hlayout' =>
        have hmem : (⟨m.start,(content before).length,d.init⟩ : Checkpoint S)∈b'.checkpoints := by
          rw [←Except.ok.inj hstart]
          exact mem_append_right _ mem_cons_self
        obtain ⟨h1,h2,h3⟩:=@walkMember_rule _ _ d file io _ hd m (content before).length
          (fun _ _ b => (⟨m.start,(content before).length,d.init⟩ : Checkpoint S)∈b.checkpoints)
          (fun _ _ _ hq hb => mem_of_recorded hq hb) _ _ _ _ _ _ _ (inside_start hdec _) hmem hmember
        rw [h1,h2,←length_content_concat] at hrest
        obtain ⟨-,-,hfinal⟩:=@walk_rule _ _ d file io _ hd (before++[m]++after)
          (fun _ _ b => (⟨m.start,(content before).length,d.init⟩ : Checkpoint S)∈b.checkpoints)
          (fun _ _ _ hq hb => by
            rw [←Except.ok.inj hb]
            exact mem_append_left _ hq)
          (fun _ _ _ hq hb => mem_of_recorded hq hb) (before++[m]) after m.next m.next turns' _ _ result rfl hlayout'
          (le_refl _) h3 hrest
        rw [append_nil]
        exact hfinal
  | cons m' pre ih =>
    rcases walk_turn hlayout hok with ⟨hne,-⟩ | ⟨turns',m'',ms',b',h',next,heq,rfl,hstart,hmember,hrest⟩
    · cases hne
    · cases heq
      cases hlayout with
      | member hheader hdec htrailer hlayout' =>
        obtain ⟨h1,h2,-⟩:=@walkMember_rule _ _ d file io _ hd m' (content before).length (fun _ _ _ => True)
          (fun _ _ _ _ _ => trivial) _ _ _ _ _ _ _ (inside_start hdec _) trivial hmember
        rw [h1,h2,←length_content_concat] at hrest
        have hmem:=ih hlayout' hrest
        rw [append_assoc] at hmem
        exact hmem

/-- The walk of an import records places, in order, and a place for every target that it takes. -/
theorem walk_import (hd : Steady d) (hlayout : Layout d file 0 members) {result : ℕ × Importing S}
    (hok : walk d io (importRecorder strict) turns 0 0 ⟨[],targets⟩ h = .ok result) :
    result.1=(content members).length ∧ (∃c,Recorded d file members c result.1 result.2.checkpoints) ∧
      ∃taken,targets=taken++result.2.targets ∧ result.2.checkpoints.map uncompressedOffset=taken.map Prod.snd := by
  have hkeep : ∀{c t c' t' s} {i i' : Importing S},c ≤ c' → t≤t' → Spot d file members c' t' s →
      (Recorded d file members c t i.checkpoints ∧ ∃taken,targets=taken++i.targets ∧
        i.checkpoints.map uncompressedOffset=taken.map Prod.snd) →
      takeIfDue strict ⟨c',t',s⟩ i.checkpoints i.targets = .ok i' →
      (Recorded d file members c' t' i'.checkpoints ∧ ∃taken,targets=taken++i'.targets ∧
        i'.checkpoints.map uncompressedOffset=taken.map Prod.snd) := by
    rintro c t c' t' s i i' hc ht hspot ⟨hrec,taken,htargets,hsame⟩ hi
    obtain ⟨more,hmore,hps,hat⟩:=takeIfDue_appends hi
    rw [hps]
    refine ⟨@Recorded.append _ d file members c t _ hrec ⟨c',t',s⟩ hc ht hspot _,taken++more,?_,?_⟩
    · rw [htargets,hmore,append_assoc]
    · rw [map_append,map_append,map_replicate]
      congr 1
      exact (eq_replicate_iff.mpr ⟨length_map _,fun u hu => by
        obtain ⟨q,hq,rfl⟩:=mem_map.mp hu
        exact (hat q hq).1⟩).symm
  obtain ⟨htotal,c,hrec,htaken⟩:=@walk_rule _ _ d file io (importRecorder strict) hd members
    (fun c t i => Recorded d file members c t i.checkpoints ∧ ∃taken,targets=taken++i.targets ∧
      i.checkpoints.map uncompressedOffset=taken.map Prod.snd)
    hkeep hkeep [] members 0 0 turns ⟨[],targets⟩ h result rfl hlayout (le_refl 0)
    ⟨recorded_nil 0 0,[],rfl,rfl⟩ hok
  exact ⟨htotal,⟨c,hrec⟩,htaken⟩

/-- What a reader relies on. The dummy checkpoint of a file without members is no place, but is never used. -/
structure GzipSeekIndex.Sound (d : Decoder S) (file : Bytes) (members : List Member) (index : GzipSeekIndex S) :
    Prop where
  size : index.uncompressedSize = (content members).length
  ordered : index.checkpoints.Pairwise fun a b => a.uncompressedOffset ≤ b.uncompressedOffset
  placed : content members ≠ [] →
    ∀ p ∈ index.checkpoints, Spot d file members p.compressedOffset p.uncompressedOffset p.restore
  first : content members ≠ [] → ∃ p ∈ index.checkpoints, p.uncompressedOffset = 0

theorem orDummy_ordered (h : ps.Pairwise fun a b => a.uncompressedOffset≤b.uncompressedOffset) :
    (orDummy d ps).Pairwise fun a b => a.uncompressedOffset≤b.uncompressedOffset := by
  rw [orDummy]
  split_ifs
  · exact pairwise_singleton _ _
  · exact h

theorem orDummy_ne_nil : orDummy d ps≠[] := by
  rw [orDummy]
  split_ifs with hnil
  · exact cons_ne_nil _ _
  · exact hnil

theorem orDummy_of_mem (hp : p∈ps) : orDummy d ps=ps :=
  if_neg (ne_nil_of_mem hp)

theorem buildIndex_sound (hd : Steady d) (hlayout : Layout d file 0 members)
    (hok : buildIndex d io spacing turns h = .ok index) : index.Sound d file members := by
  obtain ⟨result,hwalk,hindex⟩:=bind_ok hok
  rw [←Except.ok.inj hindex]
  obtain ⟨htotal,c,hrec⟩:=walk_spacing hd hlayout hwalk
  have hstart : content members≠[]→∃p∈result.2.checkpoints,p.uncompressedOffset=0 := by
    intro hne
    cases members with
    | nil => exact absurd rfl hne
    | cons m ms => exact ⟨_,@walk_spacing_starts _ d file io hd spacing [] m ms [] 0 turns _ _ _ hlayout hwalk,rfl⟩
  refine ⟨htotal,orDummy_ordered (hrec.ordered.imp fun h => h.2),?_,?_⟩
  · intro hne p hp
    obtain ⟨q,hq,-⟩:=hstart hne
    simp only [orDummy_of_mem hq] at hp
    exact hrec.placed p hp
  · intro hne
    obtain ⟨q,hq,hzero⟩:=hstart hne
    refine ⟨q,?_,hzero⟩
    simp only [orDummy_of_mem hq]
    exact hq

theorem usable_first (h : gzipSeekPointsUsable points=true) : ∃q∈points,q.2=0 := by
  cases points with
  | nil => cases h
  | cons q points =>
    rw [gzipSeekPointsUsable,Bool.and_eq_true] at h
    exact ⟨q,mem_cons_self,by simpa using h.1⟩

theorem importSeekPoints_sound (hd : Steady d) (hlayout : Layout d file 0 members) {expected : ℕ}
    (hok : importSeekPointsWithMode d io points spacing expected strict turns h = .ok index) :
    index.Sound d file members := by
  rw [importSeekPointsWithMode] at hok
  simp only at hok
  split_ifs at hok with hempty husable
  · obtain ⟨built,hbuilt,hok⟩:=bind_ok hok
    split_ifs at hok
    rw [←Except.ok.inj hok]
    exact buildIndex_sound hd hlayout hbuilt
  · obtain ⟨result,hwalk,hok⟩:=bind_ok hok
    split_ifs at hok with hmissed hsize
    rw [←Except.ok.inj hok]
    obtain ⟨htotal,⟨c,hrec⟩,taken,htaken,hsame⟩:=walk_import hd hlayout hwalk
    rw [not_not.mp hmissed,append_nil] at htaken
    have hfirst : ∃p∈result.2.checkpoints,p.uncompressedOffset=0 := by
      obtain ⟨q,hq,hzero⟩:=usable_first (by simpa using husable)
      have hmem : q.2∈taken.map Prod.snd:=mem_map_of_mem (htaken ▸ mem_mergeSort.mpr hq)
      rw [←hsame,hzero] at hmem
      exact mem_map.mp hmem
    obtain ⟨q,hq,hzero⟩:=hfirst
    refine ⟨htotal,orDummy_ordered (hrec.ordered.imp fun h => h.2),?_,?_⟩
    · intro _ p hp
      simp only [orDummy_of_mem hq] at hp
      exact hrec.placed p hp
    · intro _
      refine ⟨q,?_,hzero⟩
      simp only [orDummy_of_mem hq]
      exact hq

def sampleMember (body : Bytes) : Bytes := [0x1f,0x8b,8,0,0,0,0,0,0,0] ++ (body ++ Bytes.zeros 8)

def oneMember : Bytes := sampleMember [65,0]

def twoMembers : Bytes := sampleMember [65,0] ++ sampleMember [66,0]

theorem layout_oneMember : Layout literal oneMember 0 [⟨10,[65],2⟩] :=
  .member (by decide +kernel) (literal_byte (by decide) (literal_zero _)) (by decide +kernel) (.last (by decide +kernel))

theorem layout_twoMembers : Layout literal twoMembers 0 [⟨10,[65],2⟩,⟨30,[66],2⟩] :=
  .member (by decide +kernel) (literal_byte (by decide) (literal_zero _)) (by decide +kernel)
    (.member (by decide +kernel) (literal_byte (by decide) (literal_zero _)) (by decide +kernel)
      (.last (by decide +kernel)))

def oneIndex : GzipSeekIndex Bool := ⟨[⟨10,0,false⟩,⟨11,1,false⟩],1,1,20⟩

def twoIndex : GzipSeekIndex Bool := ⟨[⟨10,0,false⟩,⟨11,1,false⟩,⟨30,1,false⟩,⟨31,2,false⟩],2,1,40⟩

theorem build_oneMember : buildIndex literal (Backend.whole oneMember) 1 4 (.file 0 0) = .ok oneIndex := by
  decide +kernel

theorem build_twoMembers : buildIndex literal (Backend.whole twoMembers) 1 5 (.file 0 0) = .ok twoIndex := by
  decide +kernel

end Ratarmount.Gzip
