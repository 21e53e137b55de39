import Ratarmount.CommitJournalReplace

/-!
# What `replace` reports

What each error of a replacement says about the disk, and that the clean-up of a
stopped attempt, under any I/O faults, ends with the replacement done or with a
report that is true of the durable state.
-/

namespace Ratarmount.CommitJournal
open Interruptible Fallible Durability Job

variable {allowed : Call → Choice → Prop} {J : Job} {s : World}

/-- What each error says about the disk. -/
def Honest (allowed : Call → Choice → Prop) (J : Job) : ReplaceError → World → Prop
  | .refused _, w => Fresh J.orig J.new w
  | .rolledBack _ _, w =>
    w.archive.All (· = J.orig) ∧ (w.entry.All (· = none) ∨ LosesIdentity allowed)
  | .pending _, w => J.Tail w.archive.cur ∧ (w.entry.cur = none → w.archive.All (· = J.orig))
  | .committed _, w => w.archive.All (· = J.result)

def Reported (allowed : Call → Choice → Prop) (J : Job) (e : ReplaceError) (w : World) : Prop :=
  Flushed allowed w ∧ Honest allowed J e w

/-- The clean-up ends with the replacement done, or with an honest report. -/
abbrev Ends (allowed : Call → Choice → Prop) (J : Job) (m : Fallible Call Answer ReplaceError Unit) (w : World) : Prop :=
  Spec act allowed J.Inv (fun _ => Done J) (Reported allowed J) m w

variable {complete : Bool} {e : IoError} {stop : Stop}

/-- A journal that is still where it was published is reported as what it is. -/
theorem reported_unresolved (hfl : Flushed allowed s) (ht : J.Tail s.archive.cur)
    (hr : complete=false → J.Rolling s) (hl : complete=true → J.Landed s) :
    Reported allowed J (unresolved complete e) s := by
  cases complete with
  | true => exact ⟨hfl,(hl rfl).archive⟩
  | false => exact ⟨hfl,ht,fun hn => ((hr rfl).absent (hn ▸ s.entry.image_cur)).1⟩

theorem asks_authorizeStarted {started now : Stamp} (hino : started.ino=J.stamp.ino) (hd : now.dev=started.dev)
    (hi : now.ino=started.ino) : Asks allowed s (authorizeStarted started (parsePending J.journal complete) now) := by
  refine spec_ensure rfl (fun _ => trivial) (fun h => ?_)
  have hj : (parsePending J.journal complete).ino=started.ino.toNat := by
    rw [hino]
    exact journalBytes_ino
  simp [hj,hd,hi] at h

variable (hm : StoresMarker allowed)
include hm

theorem spec_undo {f : JournalFile} (hr : complete=false → J.Rolling s) (hl : complete=true → J.Landed s)
    (ht : J.Tail s.archive.cur) (hf : s.entry.cur=some f) (hino : s.ino=J.stamp.ino) :
    Ends allowed J (undo J.digests complete f.id e) s := by
  have hI : J.Inv s := by
    cases complete with
    | true => exact .inr (hl rfl)
    | false => exact .inl (hr rfl)
  have hunres : ∀x,Reported allowed J (unresolved complete x) s:=fun _ =>
    reported_unresolved (flushed_of_some hf) ht hr hl
  refine spec_bind (spec_attempt (spec_look (act_statJournal hf) hI (fun _ => ?_)
    (fun _ _ => spec_throw hI (hunres _))))
  refine spec_bind (spec_withError (spec_look (c := .fstat) (fun _ => rfl) hI (fun x => ?_) (fun _ _ => hunres _)))
  have herr : ∀x t,Reported allowed J (unresolved complete x) t → J.Inv t →
      Ends allowed J (throw (unresolved complete x)) t := fun _ _ h hi =>
    spec_throw hi h
  have hask : ∀y,Asks allowed s (authorizeStarted (s.stamp x) (parsePending J.journal complete) (s.stamp y)) :=
    fun _ => asks_authorizeStarted hino rfl rfl
  cases complete with
  | true =>
    refine spec_bind (spec_attempt ((Spec.mono
      (spec_rollback_landed hm (hl rfl) hf (by simp) hask) ?_ ?_).weaken (fun _ h => .inr h)))
    · intro _ t ht hd
      exact spec_pure (.inr ht) hd
    · rintro (y | y | y) t ht h
      all_goals exact herr _ t ⟨h.2,ht.archive⟩ (.inr ht)
  | false =>
    refine spec_bind (spec_attempt ((Spec.mono
      (spec_rollback_rolling hm ⟨hr rfl,fun _ : True => ht⟩ hf (by simp) hask) ?_ ?_).weaken
      (fun _ h => .inl h.1)))
    · intro _ t ht hu
      exact spec_throw (.inl ht.1) ⟨flushed_of_all hu.2,hu.1,.inl hu.2⟩
    · rintro (y | y | y) t ht h
      all_goals exact herr _ t (reported_unresolved h.2 (ht.2 trivial) (fun _ => ht.1) (by rintro ⟨⟩)) (.inl ht.1)

theorem spec_finishUnlinked {synced : Bool} (hl : J.Landed s) (hn : s.entry.cur=none) (hfl : Flushed allowed s)
    (hs : synced=true → s.entry.All (·=none)) : Ends allowed J (finishUnlinked synced e) s := by
  have hclear : ∀t : World,J.Landed t → t.entry.All (·=none) →
      Ends allowed J (do
          withError ReplaceError.committed (io .beforeWrite)
          let _ ← attempt clearMarker
          pure ()) t := by
    intro t ht hnone
    have hd : Done J t:=⟨ht.archive,ht.gone (hnone.cur ▸ t.entry.image_cur),hnone⟩
    refine spec_bind (spec_withError (spec_beforeWrite (.inr ht) ?_ (fun _ _ => ⟨flushed_of_all hnone,ht.archive⟩)))
    refine spec_bind (spec_attempt ((Spec.mono (spec_clearMarker_done hm ht hd) ?_ ?_).weaken
      (fun _ h => .inr h)))
    · intro _ u hu hd
      exact spec_pure (.inr hu) hd
    · intro _ u hu hd
      exact spec_pure (.inr hu) hd.2
  refine spec_bind (spec_onlyIf (.inr hl) (fun _ => ?_) (fun h => hclear s hl (hs (by simpa using h))))
  refine spec_withError (spec_io (c := .syncParent) (fun _ => rfl) (.inr hl) (fun _ => ⟨.inr hl.syncEntry,?_⟩)
    (fun x hx hf _ => ⟨hfl,hl.archive⟩))
  exact hclear _ hl.syncEntry ((Durable.all_settled _ _).mpr hn)

/-- Whether the attempt is complete, as the clean-up sees it. -/
theorem spec_isComplete (h : Stopped allowed J stop s) (hu : stop.attempt.unlinked=false) : Spec act allowed J.Inv
      (fun complete t => t=s ∧ (complete=false → J.Rolling s) ∧ (complete=true → J.Landed s))
      (Reported allowed J) (isComplete stop.attempt e) s := by
  rw [isComplete]
  split
  · next hc =>
    refine spec_pure h.inv ⟨rfl,by rintro ⟨⟩,fun _ => ?_⟩
    cases hp : stop.attempt.published with
    | none =>
      rw [(h.early hp).1] at hc
      cases hc
    | some id => exact h.inv.landed ((h.journal id hp hu).2 hc)
  · cases hp : stop.attempt.published with
    | none => exact spec_pure h.inv ⟨rfl,fun _ => (h.early hp).2.1,by rintro ⟨⟩⟩
    | some id =>
      obtain ⟨f,hf,-⟩:=(h.journal id hp hu).1
      have hsome : s.entry.cur≠none := by simp [hf]
      refine spec_bind (spec_withError (spec_getMarker hm h.inv ?_
        (fun _ _ => ⟨h.flushed,h.tail,fun hn => absurd hn hsome⟩)))
      exact spec_pure h.inv ⟨rfl,fun hfw => h.inv.rolling hfw hsome,h.inv.landed⟩

theorem spec_finishFailed (h : Stopped allowed J stop s) (hino : s.ino=J.stamp.ino) :
    Ends allowed J (finishFailed J.digests stop.attempt e) s := by
  cases hu : stop.attempt.unlinked with
  | true =>
    obtain ⟨hl,hn,hc,hs⟩:=h.unlinked hu
    rw [finishFailed,isComplete,if_pos hc]
    refine spec_bind (spec_pure h.inv ?_)
    refine spec_bind (spec_withError (spec_beforeWrite h.inv ?_ (fun _ _ => ⟨h.flushed,hl.archive⟩)))
    cases hp : stop.attempt.published with
    | none =>
      rw [(h.early hp).1] at hc
      cases hc
    | some id =>
      simp only [hu]
      exact spec_finishUnlinked hm hl hn h.flushed hs
  | false =>
    refine spec_bind (Spec.mono (spec_isComplete hm h hu) ?_ (fun _ _ _ hx => hx))
    rintro complete t - ⟨rfl,hr,hl⟩
    refine spec_bind (spec_withError (spec_beforeWrite h.inv ?_
      (fun _ _ => reported_unresolved h.flushed h.tail hr hl)))
    cases hp : stop.attempt.published with
    | none =>
      obtain ⟨-,hroll,ha,he⟩:=h.early hp
      have hset : J.Rolling (t.mark none):=hroll.setMarker rfl (by rintro ⟨⟩)
      have hback : ∀u : World,J.Rolling u → u.archive.All (·=J.orig) → u.entry=t.entry →
          Ends allowed J (throw (.rolledBack e none)) u := by
        intro u hru hau heu
        refine spec_throw (.inl hru) ⟨?_,hau,?_⟩
        · rw [Flushed,heu]
          exact h.flushed
        · rw [heu]
          exact he
      exact spec_bind (spec_attempt (spec_clearMarker hm h.inv (.inl hset) (.inl hset.sync)
        (hback _ hset.sync ha.sync rfl) (fun _ => hback t hroll ha rfl)
        (fun _ _ => ⟨hback t hroll ha rfl,hback _ hset ha rfl⟩)))
    | some id =>
      obtain ⟨⟨f,hf,rfl⟩,-⟩:=h.journal id hp hu
      simp only [hu]
      exact spec_undo hm hr hl h.tail hf hino

theorem spec_settle (h : Stopped allowed J stop s) (hino : s.ino=J.stamp.ino) :
    Ends allowed J (settle J.digests stop) s := by
  rw [settle]
  split
  · next hg =>
    simp only [Bool.and_eq_true,Bool.not_eq_true'] at hg
    exact spec_throw h.inv ⟨h.flushed,h.refused hg.1 hg.2⟩
  · refine spec_bind (spec_attempt (Spec.mono (spec_finishFailed hm h hino) ?_ ?_))
    · intro _ t ht hd
      exact spec_pure ht hd
    · intro x t ht hx
      cases x with
      | rolledBack e stamp =>
        exact spec_bind (spec_attempt (spec_look (c := .fstat) (fun _ => rfl) ht
          (fun _ => spec_throw ht hx) (fun _ _ => spec_throw ht hx)))
      | refused e => exact spec_throw ht hx
      | pending e => exact spec_throw ht hx
      | committed e => exact spec_throw ht hx

theorem spec_checkBefore {original : Option Stamp} {I : World → Prop} {Q : Stamp → World → Prop}
    {E : IoError → World → Prop} (hI : I s) (hok : ∀x,Q (s.stamp x) s) (herr : ∀e,E e s) : Spec act allowed I Q E (checkBefore original) s := by
  refine spec_bind (spec_look (c := .canonicalize) (fun _ => rfl) hI (fun _ => ?_) (fun _ => herr))
  refine spec_bind (spec_look (c := .openReadWrite) (fun _ => rfl) hI (fun _ => ?_) (fun _ => herr))
  refine spec_bind (spec_look (c := .flock) (fun _ => rfl) hI (fun _ => ?_) (fun _ => herr))
  refine spec_bind (spec_bind (spec_look (c := .journalExists) (fun _ => rfl) hI (fun _ => ?_) (fun _ => herr)))
  refine spec_bind (spec_getMarker hm hI (spec_pure hI ?_) (fun _ => herr))
  refine spec_bind (spec_ensure hI (fun _ => ?_) (fun _ => herr _))
  refine spec_bind (spec_look (c := .fstat) (fun _ => rfl) hI (fun x => ?_) (fun _ => herr))
  refine spec_bind (spec_ensure hI (fun _ => ?_) (fun _ => herr _))
  exact spec_bind (spec_beforeWrite hI (spec_pure hI (hok x)) (fun _ => herr))

/-! ## The whole replacement -/

section Replace

variable {D : Digests} {offset : ℕ} {orig new : Bytes}

/-- `J` is a replacement of the bytes of `orig` from `offset` on by `new`. -/
structure Job.IsFor (D : Digests) (offset : ℕ) (orig new : Bytes) (J : Job) : Prop where
  digests : J.digests = D
  offset : J.offset = offset
  orig : J.orig = orig
  new : J.new = new

/-- Some journal of this replacement explains the world. -/
def Underway (D : Digests) (offset : ℕ) (orig new : Bytes) (w : World) : Prop :=
  ∃ J : Job, J.IsFor D offset orig new ∧ J.Inv w

theorem spec_replace {original : Option Stamp} (h : Fresh orig new s)
    (hsize : orig.length+new.length+(headerLen+4)<2^64) : Spec act allowed (Underway D offset orig new)
      (fun _ t => ∃J : Job,J.IsFor D offset orig new ∧ Done J t)
      (fun x t => ∃J : Job,J.IsFor D offset orig new ∧ J.Inv t ∧ Reported allowed J x t)
      (replace D offset original) s := by
  have hlen : ∀x,(s.stamp x).len=orig.length := by
    simp [World.stamp,h.archive]
  let job : Choice → Job := fun x => ⟨D,s.stamp x,offset,orig,new,hlen x,hsize⟩
  have hjob : ∀x,(job x).IsFor D offset orig new:=fun _ => ⟨rfl,rfl,rfl,rfl⟩
  have hfresh : ∀x,Fresh (job x).orig (job x).new s:=fun _ => h
  have hstart : ∀x,(job x).Inv s:=fun x => .inl (hfresh x).rolling
  have hflushed : Flushed allowed s:=flushed_of_all (by simp [h.entry])
  have hany : Choice:=⟨none,0,0,0,0,0,0⟩
  refine spec_bind (spec_withError (spec_checkBefore hm ⟨job hany,hjob _,hstart _⟩ (fun x => ?_)
    (fun _ => ⟨job hany,hjob _,hstart _,hflushed,h⟩)))
  have hrun:=(spec_run hm (hfresh x)).frame (fun c y t ht => (act_ino c y t).trans ht) rfl
  refine spec_bind (spec_attempt ((Spec.mono hrun ?_ ?_).weaken (fun _ hi => ⟨job x,hjob x,hi⟩)))
  · intro _ t hi hd
    exact spec_pure ⟨job x,hjob x,hi⟩ ⟨job x,hjob x,hd.1⟩
  · intro stop t hi hs
    refine (Spec.mono (spec_settle hm hs.1 hs.2) ?_ ?_).weaken (fun _ hi => ⟨job x,hjob x,hi⟩)
    · intro _ u _ hd
      exact ⟨job x,hjob x,hd⟩
    · intro y u hi hr
      exact ⟨job x,hjob x,hi,hr⟩

end Replace

end Ratarmount.CommitJournal
