import Ratarmount.GzipIndex

/-!
# Walks over the members

What the walk of a seek index meets: at every turn a place within a member, and at
the end the content of all members. Stated for any recorder, with the invariant as
a parameter.
-/

namespace Ratarmount.Gzip

open Streaming List Bytes

variable {S R : Type} {d : Decoder S} {file : Bytes} {io : Backend file} {rec : Recorder S R}

theorem outCap_pos (rec : Recorder S R) (total : ℕ) (r : R) : 0 < rec.outCap total r := by
  have hchunk : outputChunk=262144:=rfl
  rw [Recorder.outCap]
  split
  · split_ifs <;> omega
  · omega

/-- The decoder stands within the member `m`: `done` is written, `left` is to come. -/
def Inside (d : Decoder S) (file : Bytes) (m : Member) (base c t : ℕ) (s : S) : Prop :=
  ∃ done left used, m.out = done ++ left ∧ t = base + done.length ∧ c + used = m.start + m.used ∧
    Decodes d s (file.drop c) left used

variable {m : Member} {base c t turns offset : ℕ} {s : S} {r : R} {h : Handle}

theorem inside_start (hdec : Decodes d d.init (file.drop m.start) m.out m.used) (base : ℕ) :
    Inside d file m base m.start base d.init := ⟨[],m.out,m.used,rfl,rfl,rfl,hdec⟩

theorem Inside.le (hin : Inside d file m base c t s) : c ≤ m.start+m.used ∧ t≤base+m.out.length := by
  obtain ⟨done,left,used,hout,ht,hc,-⟩:=hin
  have hlength:=congrArg List.length hout
  rw [length_append] at hlength
  omega

theorem Inside.base_le (hin : Inside d file m base c t s) : base≤t := by
  obtain ⟨done,_,_,-,ht,-⟩:=hin
  omega

/-- Every call within a member succeeds, stays within it and gets on, and the last one stops at its end. -/
theorem Inside.call (hd : Steady d) {k room : ℕ} (hin : Inside d file m base c t s) (hk : 0<k) (hroom : 0 < room) :
    ∃res,d.call s (file.slice c k) room=some res ∧ res.written.length ≤ room ∧
      Inside d file m base (c+res.consumed) (t+res.written.length) res.state ∧
      res.written=m.out.slice (t-base) res.written.length ∧
      (res.ended=true → c+res.consumed=m.start+m.used ∧ t+res.written.length=base+m.out.length) ∧
      (res.ended=false → 0 < res.written.length+res.consumed) := by
  obtain ⟨done,left,used,hout,ht,hc,hdec⟩:=hin
  obtain ⟨res,left',used',hcall,hstep⟩:=hd hdec hk hroom
  have hused:=hstep.used_eq
  have hlength:=congrArg List.length hout
  have hleft:=congrArg List.length hstep.out_eq
  rw [length_append] at hlength hleft
  refine ⟨res,hcall,hstep.fits,⟨done++res.written,left',used',?_,?_,?_,?_⟩,?_,?_,?_⟩
  · rw [hout,hstep.out_eq,append_assoc]
  · rw [ht,length_append,Nat.add_assoc]
  · omega
  · rw [←drop_drop]
    exact hstep.left
  · rw [hout,hstep.out_eq]
    exact (slice_append done res.written left' (by omega) rfl).symm
  · intro hend
    obtain ⟨hnil,hzero⟩:=hstep.last hend
    rw [hnil,length_nil] at hleft
    omega
  · intro hend
    rcases hstep.moves hend with hw | hw
    · have hpos:=length_pos_of_ne_nil hw
      omega
    · omega

theorem slice_ne_nil {k : ℕ} (hk : 0<k) (hc : c<file.length) : file.slice c k≠[] := by
  intro hnil
  have hlength:=congrArg List.length hnil
  rw [length_slice,length_nil] at hlength
  omega

/-- One turn of the inner loop, from what it reads, decodes and records. -/
theorem walkMember_succ {r' : R} {h' : Handle} {input : Bytes} {res : Progress S}
    (hread : io.readAt c inputChunk h=(input,h')) (hcall : d.call s input (rec.outCap t r)=some res)
    (hdue : rec.due (c+res.consumed) (t+res.written.length) res.state r = .ok r') :
    walkMember d io rec (turns+1) s c t r h = if res.ended then .ok (c+res.consumed+8,t+res.written.length,r',h')
      else if input=[] ∧ res.consumed=0 then .error .endedUnexpectedly
      else walkMember d io rec turns res.state (c+res.consumed) (t+res.written.length) r' h' := by
  rw [walkMember,hread]
  simp only [hcall,hdue]
  rfl

/-- One turn within a member: what the call did, and how the loop went on. -/
theorem walkMember_turn (hd : Steady d) {result : ℕ × ℕ × R × Handle} (hin : Inside d file m base c t s)
    (hok : walkMember d io rec turns s c t r h = .ok result) :
    ∃turns' res r' h',turns=turns'+1 ∧ Inside d file m base (c+res.consumed) (t+res.written.length) res.state ∧
      d.call s (io.readAt c inputChunk h).1 (rec.outCap t r)=some res ∧ res.written.length ≤ rec.outCap t r ∧
      rec.due (c+res.consumed) (t+res.written.length) res.state r = .ok r' ∧
      ((res.ended=true ∧ result=(m.next,base+m.out.length,r',h') ∧ c+res.consumed=m.start+m.used ∧
          t+res.written.length=base+m.out.length) ∨
        (res.ended=false ∧ walkMember d io rec turns' res.state (c+res.consumed) (t+res.written.length) r' h' =
          .ok result)) := by
  cases turns with
  | zero => cases hok
  | succ turns =>
    obtain ⟨k,h',hread,-,hk⟩:=readAt_spec io c inputChunk h (by decide)
    obtain ⟨res,hcall,hfits,hin',-,hlast,-⟩:=hin.call hd hk (outCap_pos rec t r)
    cases hdue : rec.due (c+res.consumed) (t+res.written.length) res.state r with
    | error e =>
      rw [walkMember,hread] at hok
      simp only [hcall,hdue] at hok
      cases hok
    | ok r' =>
      rw [walkMember_succ hread hcall hdue] at hok
      refine ⟨turns,res,r',h',rfl,hin',by rw [hread]; exact hcall,hfits,hdue,?_⟩
      by_cases hend : res.ended=true
      · obtain ⟨hcEnd,htEnd⟩:=hlast hend
        rw [if_pos hend,hcEnd,htEnd] at hok
        exact .inl ⟨hend,(Except.ok.inj hok).symm,hcEnd,htEnd⟩
      · rw [if_neg hend] at hok
        split_ifs at hok
        exact .inr ⟨by simpa using hend,hok⟩

/-- What every call within a member keeps holds at its end. -/
theorem walkMember_rule (hd : Steady d) {m : Member} {base : ℕ} {J : ℕ → ℕ → R → Prop}
    (hdue : ∀{c t c' t' s r r'},c ≤ c' → t≤t' → Inside d file m base c' t' s → J c t r →
      rec.due c' t' s r = .ok r' → J c' t' r')
    {turns c t : ℕ} {s : S} {r : R} {h : Handle} {result : ℕ × ℕ × R × Handle} (hin : Inside d file m base c t s)
    (hJ : J c t r) (hok : walkMember d io rec turns s c t r h = .ok result) :
    result.1=m.next ∧ result.2.1=base+m.out.length ∧ J (m.start+m.used) (base+m.out.length) result.2.2.1 := by
  induction turns generalizing s c t r h with
  | zero => cases hok
  | succ turns ih =>
    obtain ⟨turns',res,r',h',hturns,hin',-,-,hdueOk,hcase⟩:=walkMember_turn hd hin hok
    have hJ':=hdue (Nat.le_add_right _ _) (Nat.le_add_right _ _) hin' hJ hdueOk
    obtain rfl : turns=turns':=Nat.succ.inj hturns
    rcases hcase with ⟨-,rfl,hc,ht⟩ | ⟨-,hrest⟩
    · rw [hc,ht] at hJ'
      exact ⟨rfl,rfl,hJ'⟩
    · exact ih hin' hJ' hrest

theorem lt_of_headerAt {headerEnd : ℕ} (h : headerAt file offset = .ok (some headerEnd)) : offset<file.length := by
  by_contra hge
  have hnil : ((Backend.whole file).readAt offset 10 (.file 0 0)).1=[] := by
    rw [readAt_whole,slice,drop_eq_nil_of_le (by omega),take_nil]
  obtain ⟨got,k,hgot⟩ : ∃got k,(Backend.whole file).readAt offset 10 (.file 0 0)=(got,k):=⟨_,_,rfl⟩
  rw [hgot] at hnil
  obtain rfl : got=[]:=hnil
  rw [headerAt,parseGzipHeader,hgot] at h
  cases h

/-- One turn of the multi-member loop. -/
theorem walk_turn {ms : List Member} {result : ℕ × R} (hlayout : Layout d file offset ms)
    (hok : walk d io rec turns offset t r h = .ok result) : (ms=[] ∧ result=(t,r)) ∨
    ∃turns' m ms' r' h' next,ms=m::ms' ∧ turns=turns'+1 ∧ rec.start m.start t d.init r = .ok r' ∧
      walkMember d io rec turns' d.init m.start t r' h' = .ok next ∧
      walk d io rec turns' next.1 next.2.1 next.2.2.1 next.2.2.2 = .ok result := by
  cases turns with
  | zero => cases hok
  | succ turns =>
    rw [walk] at hok
    cases hlayout with
    | last hend =>
      left
      split_ifs at hok with hlt
      · obtain ⟨⟨v,h'⟩,hparse,hok⟩:=bind_ok hok
        rw [headerAt_of_parse hparse] at hend
        obtain rfl : v=none:=Except.ok.inj hend
        exact ⟨rfl,(Except.ok.inj hok).symm⟩
      · exact ⟨rfl,(Except.ok.inj hok).symm⟩
    | @member _ m ms hheader hdec htrailer hrest =>
      right
      rw [if_pos (lt_of_headerAt hheader)] at hok
      obtain ⟨⟨v,h'⟩,hparse,hok⟩:=bind_ok hok
      rw [headerAt_of_parse hparse] at hheader
      obtain rfl : v=some m.start:=Except.ok.inj hheader
      obtain ⟨r',hstart,hok⟩:=bind_ok hok
      obtain ⟨next,hmember,hok⟩:=bind_ok hok
      exact ⟨turns,m,ms,r',h',next,rfl,rfl,hstart,hmember,hok⟩

/-- A place in the stream: within one of the members, with the later members laid out behind it. -/
def Spot (d : Decoder S) (file : Bytes) (members : List Member) (c t : ℕ) (s : S) : Prop :=
  ∃ before m after, members = before ++ m :: after ∧ m.next ≤ file.length ∧ Layout d file m.next after ∧
    Inside d file m (content before).length c t s

/-- What every recording keeps holds at the end of the walk, and the total is the length of the content. -/
theorem walk_rule (hd : Steady d) {members : List Member} {J : ℕ → ℕ → R → Prop}
    (hstart : ∀{c t c' t' s r r'},c ≤ c' → t≤t' → Spot d file members c' t' s → J c t r →
      rec.start c' t' s r = .ok r' → J c' t' r')
    (hdue : ∀{c t c' t' s r r'},c ≤ c' → t≤t' → Spot d file members c' t' s → J c t r →
      rec.due c' t' s r = .ok r' → J c' t' r')
    {before ms : List Member} {offset c turns : ℕ} {r : R} {h : Handle} {result : ℕ × R}
    (hmembers : members=before++ms) (hlayout : Layout d file offset ms) (hc : c≤offset)
    (hJ : J c (content before).length r) (hok : walk d io rec turns offset (content before).length r h = .ok result) :
    result.1=(content members).length ∧ ∃c,J c result.1 result.2 := by
  induction ms generalizing before offset c turns r h with
  | nil =>
    rcases walk_turn hlayout hok with ⟨-,rfl⟩ | ⟨_,_,_,_,_,_,hne,-⟩
    · exact ⟨by rw [hmembers,append_nil],c,hJ⟩
    · cases hne
  | cons m ms ih =>
    cases hlayout with
    | member hheader hdec htrailer hrest =>
      have hstartLe:=le_of_headerAt hheader
      rcases walk_turn (Layout.member hheader hdec htrailer hrest) hok with ⟨hne,-⟩ | ⟨turns',m',ms',r',h',next,heq,rfl,hs,hm,hw⟩
      · cases hne
      · cases heq
        have hin:=inside_start hdec (content before).length
        have hJ':=hstart (by omega) (le_refl _) ⟨before,m,ms,hmembers,htrailer,hrest,hin⟩ hJ hs
        obtain ⟨h1,h2,h3⟩:=walkMember_rule hd
          (fun hc ht hin hJ hok => hdue hc ht ⟨before,m,ms,hmembers,htrailer,hrest,hin⟩ hJ hok) hin hJ' hm
        rw [h1,h2,←length_content_concat] at hw
        rw [←length_content_concat] at h3
        exact @ih (before++[m]) m.next (m.start+m.used) turns' _ _ (by rw [hmembers,append_assoc]; rfl)
          hrest (Nat.le_add_right _ _) h3 hw

end Ratarmount.Gzip
