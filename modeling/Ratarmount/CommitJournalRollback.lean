import Ratarmount.CommitJournalRules

/-!
# Rolling back and rolling forward

`rollback` keeps the invariant of the side it is on: an attempt that has not landed
stays so until the old bytes are durable and the journal is gone, a landed one keeps
the result. An error is possible only where the environment can fail a call or the
archive's tail belongs to neither version.
-/

namespace Ratarmount.CommitJournal
open Interruptible Fallible Durability Job List Durable

variable {allowed : Call → Choice → Prop} {J : Job} {s : World} {f : JournalFile}

/-! ## Rolling back -/

def Unlanded (J : Job) (T : Prop) (w : World) : Prop := J.Rolling w ∧ (T → J.Tail w.archive.cur)

variable {T : Prop}

/-- The writes extend the archive at its end, so a prefix of them is all that a
failure can leave. -/
theorem spec_writeAll {fuel pos : ℕ} {bs : Bytes} {a : File} (ho : J.offset≤J.orig.length)
    (hn : ¬s.entry.Image none) (hr : J.Rolling { s with archive := a }) (hfuel : bs.length≤fuel)
    (hpos : pos=a.cur.length) (hoff : J.offset≤pos) (hT : T → J.Tail (a.cur++bs)) :
    Spec act allowed (Unlanded J T)
      (fun _ t => ∃b : File,t={ s with archive := b } ∧ b.cur=a.cur++bs)
      (fun _ t => Faulty allowed ∧ ∃b : File,t={ s with archive := b })
      (writeAll fuel pos bs) { s with archive := a } := by
  induction fuel generalizing pos bs a with
  | zero =>
    have hb : bs=[]:=eq_nil_of_length_eq_zero (by omega)
    subst hb
    exact spec_pure ⟨hr,by simpa using hT⟩ ⟨a,rfl,by simp⟩
  | succ fuel ih =>
    have hI : Unlanded J T { s with archive:=a } :=
      ⟨hr,fun h => (hT h).shorten (prefix_append _ _)⟩
    cases bs with
    | nil => exact spec_pure hI ⟨a,rfl,by simp⟩
    | cons b rest =>
      have hcur : ∀k,(a.push (.write pos ((b::rest).take k)) : File).cur =
          a.cur++(b::rest).take k := by
        intro k
        rw [hpos]
        exact writeAt_end _ _
      have hinv : ∀k,Unlanded J T { s with archive:=a.push (.write pos ((b::rest).take k)) } := by
        intro k
        refine ⟨hr.update hoff hn ho,fun h => (hT h).shorten ?_⟩
        rw [hcur]
        exact (prefix_append_right_inj _).mpr ( take_prefix _ _)
      refine spec_bind ⟨⟨hI,fun x hx => ?_⟩⟩
      cases hfault : x.fault with
      | some e =>
        simp only [act,hfault]
        exact ⟨hinv _,⟨_,x,hx,by simp [hfault]⟩,_,rfl⟩
      | none =>
        simp only [act,hfault]
        refine ⟨hinv _,?_⟩
        have hlen : takenBytes x (b::rest)≤(b::rest).length:=min_le_right _ _
        have hpos' : 0<takenBytes x (b::rest) := by simp [takenBytes]
        generalize takenBytes x (b::rest)=n at hlen hpos'
        have hsplit : a.cur++(b::rest).take n++(b::rest).drop n=a.cur++(b::rest) := by simp
        have hrest:=@ih (pos+n) ((b::rest).drop n) (a.push (.write pos ((b::rest).take n)))
          (hinv n).1 (by rw [length_drop]; omega)
          (by rw [hcur,length_append,length_take,hpos]; omega) (by omega)
          (by rw [hcur,hsplit]; exact hT)
        rw [hcur,hsplit] at hrest
        exact hrest

variable {seconds nanos : ℕ} {header : Header} {expected : Option ℕ} {authorize : Authorize}

theorem spec_restoreMtime {I : World → Prop} {Q : Unit → World → Prop} {E : IoError → World → Prop} (hI : I s)
    (hok : Q () s) (herr : Faulty allowed→∀e,E e s) : Spec act allowed I Q E (restoreMtime seconds nanos) s := by
  have hset : Spec act allowed I (fun _ t => t=s) (fun _ t => Faulty allowed ∧ t=s)
      (do io .beforeWrite; io (.setTimes seconds nanos)) s := by
    refine spec_bind (spec_beforeWrite hI ?_ (fun hf _ => ⟨hf,rfl⟩))
    exact spec_look (c := .setTimes seconds nanos) (fun _ => rfl) hI (fun _ => rfl) (fun hf _ => ⟨hf,rfl⟩)
  refine spec_bind (spec_attempt (Spec.mono hset ?_ ?_))
  · rintro _ t _ rfl
    exact spec_pure hI hok
  · rintro e t _ ⟨hf,rfl⟩
    split
    · exact spec_pure hI hok
    · next he =>
      cases he
      exact spec_throw hI (herr hf _)
    · next he => cases he

/-- The old tail is put back over a truncated archive. -/
theorem spec_restoreOld (hI : Unlanded J T s) (hf : s.entry.cur=some f) (hne : s.archive.cur≠J.orig) :
    Spec act allowed (Unlanded J T) (fun _ t => t.archive.cur=J.orig ∧ t.entry=s.entry)
      (fun _ t => Faulty allowed ∧ t.entry=s.entry)
      (restoreOld J.journal J.offset J.orig.length seconds nanos) s := by
  have hr:=hI.1
  have hj:=hr.entry.cur f hf
  have ho:=hj.offset_le
  have hn : ¬s.entry.Image none:=fun h => hne (hr.absent h).1.cur
  have hk:=hr.archive.cur.keeps ho
  have hcut : (s.archive.push (.setLen J.offset) : File).cur=J.orig.take J.offset := by
    rw [←hk.2]
    exact setLength_of_le hk.1
  have hold : (J.journal.drop headerLen).take (J.orig.length-J.offset)=J.orig.drop J.offset := by
    have hslice:=@journalBytes_old J.digests J.stamp J.offset J.orig J.new _ le_rfl
    rw [←length_drop,take_length,length_drop] at hslice
    exact hslice
  have hroom : J.orig.length-J.offset≤(J.journal.drop headerLen).length := by
    rw [length_drop,journal,length_journalBytes]
    omega
  have hinv : Unlanded J T { s with archive:=s.archive.push (.setLen J.offset) } := by
    refine ⟨hr.update le_rfl hn ho,fun _ => tail_orig.shorten ?_⟩
    rw [hcut]
    exact take_prefix _ _
  rw [restoreOld,copyExact,hold]
  refine spec_bind (spec_beforeWrite hI ?_ (fun h _ => ⟨h,rfl⟩))
  refine spec_bind (spec_io (c := .setLen J.offset) (fun _ => rfl) hI (fun _ => ⟨hinv,?_⟩)
    (fun x hx h _ => ⟨⟨_,x,hx,h⟩,rfl⟩))
  have hsync : Unlanded J T (World.sync { s with archive:=s.archive.push (.setLen J.offset) }) :=
    ⟨hinv.1.sync,hinv.2⟩
  refine spec_bind (spec_io (c := .syncAll) (fun _ => rfl) hinv (fun _ => ⟨hsync,?_⟩)
    (fun x hx h _ => ⟨⟨_,x,hx,h⟩,rfl⟩))
  generalize hu : World.sync { s with archive := s.archive.push (.setLen J.offset) }=u at hsync
  have hentry : u.entry=s.entry := by rw [←hu]; rfl
  have hcur : u.archive.cur=J.orig.take J.offset := by rw [←hu,World.sync,cur_sync,hcut]
  have hwhole : u.archive.cur++J.orig.drop J.offset=J.orig := by rw [hcur,take_append_drop]
  have hwrite : Spec act allowed (Unlanded J T)
      (fun _ t => ∃b : File,t={ u with archive := b } ∧ b.cur=u.archive.cur++J.orig.drop J.offset)
      (fun _ t => Faulty allowed ∧ ∃b : File,t={ u with archive := b })
      (writeAll (J.orig.drop J.offset).length J.offset (J.orig.drop J.offset)) u :=
    spec_writeAll ho (by rw [hentry]; exact hn) hsync.1 le_rfl
      (by rw [hcur,length_take,min_eq_left ho]) le_rfl
      (fun _ => by rw [hwhole]; exact tail_orig)
  refine spec_bind (spec_bind (Spec.mono hwrite ?_ ?_))
  · rintro _ _ hb ⟨b,rfl,hbcur⟩
    refine spec_ensure hb (fun _ => ?_) (fun hshort => ?_)
    · refine spec_bind (spec_restoreMtime hb ?_ (fun h _ => ⟨h,hentry⟩))
      exact spec_io (c := .syncAll) (fun _ => rfl) hb
        (fun _ => ⟨⟨hb.1.sync,hb.2⟩,hbcur.trans hwhole,hentry⟩)
        (fun x hx h _ => ⟨⟨_,x,hx,h⟩,hentry⟩)
    · simp only [decide_eq_false_iff_not] at hshort
      exact absurd hroom hshort
  · rintro _ _ _ ⟨h,b,rfl⟩
    exact ⟨h,hentry⟩

def Undone (J : Job) (w : World) : Prop := w.archive.All (· = J.orig) ∧ w.entry.All (· = none)

theorem Job.Rolling.unlanded {w : World} (h : J.Rolling w) (hc : w.archive.cur=J.orig) : Unlanded J T w :=
  ⟨h,fun _ => hc ▸ tail_orig⟩

/-- A locator is cleared after a rollback without touching the rest. -/
theorem spec_clearMarker_undone (hm : StoresMarker allowed) (h : J.Rolling s) (hu : Undone J s) :
    Spec act allowed (Unlanded J T) (fun _ => Undone J) (fun _ t => Faulty allowed ∧ Undone J t) clearMarker s := by
  have hset : J.Rolling (s.mark none):=h.setMarker rfl (by rintro ⟨⟩)
  have hsync : Undone J (s.mark none).sync:=⟨hu.1.sync,hu.2⟩
  exact spec_clearMarker hm (h.unlanded hu.1.cur) (hset.unlanded hu.1.cur) (hset.sync.unlanded hu.1.cur) hsync
    (fun _ => hu) (fun hf _ => ⟨⟨hf,hu⟩,hf,hu⟩)

/-- The end of `dropJournal`: the journal goes, durably, before the locator. -/
theorem spec_unlinkJournal {I D : World → Prop} {a : Applied} (hf : s.entry.cur=some f) (hI : I s)
    (hgone : I { s with entry := s.entry.push ⟨none⟩ }) (hsync : I { s with entry := (s.entry.push ⟨none⟩).sync })
    (hclear : Spec act allowed I (fun _ => D) (fun _ t => Faulty allowed ∧ D t) clearMarker
      { s with entry := (s.entry.push ⟨none⟩).sync }) :
    Spec act allowed I (fun _ => D) (fun _ t => Faulty allowed ∧ Flushed allowed t)
      (do
        io .beforeWrite
        io .removeFile
        io .syncParent
        io .beforeWrite
        let _ ← attempt clearMarker
        pure a : Io Applied) s := by
  have hfl : Flushed allowed s:=flushed_of_some hf
  refine spec_bind (spec_beforeWrite hI ?_ (fun h _ => ⟨h,hfl⟩))
  refine spec_bind (spec_io (act_removeFile hf) hI (fun _ => ⟨hgone,?_⟩) (fun x hx h _ => ⟨⟨_,x,hx,h⟩,hfl⟩))
  refine spec_bind (spec_io (c := .syncParent) (fun _ => rfl) hgone (fun _ => ⟨hsync,?_⟩)
    (fun x hx h _ => ⟨⟨_,x,hx,h⟩,.inr ⟨x,hx,h⟩⟩))
  refine spec_bind (spec_beforeWrite hsync ?_ (fun h _ => ⟨h,flushed_of_all ((all_settled _ _).mpr rfl)⟩))
  refine spec_bind (spec_attempt (Spec.mono hclear ?_ ?_))
  · intro _ t ht hd
    exact spec_pure ht hd
  · intro _ t ht hd
    exact spec_pure ht hd.2

/-- The end of a rollback: the old bytes are durable before the journal goes. -/
theorem spec_dropJournal_rolling (hm : StoresMarker allowed) (hr : J.Rolling s) (hc : s.archive.cur=J.orig)
    (hf : s.entry.cur=some f) : Spec act allowed (Unlanded J T) (fun _ => Undone J)
      (fun _ t => Faulty allowed ∧ Flushed allowed t) (dropJournal false header) s := by
  have hI : Unlanded J T s:=hr.unlanded hc
  have hfl : Flushed allowed s:=flushed_of_some hf
  refine spec_bind (spec_beforeWrite hI ?_ (fun h _ => ⟨h,hfl⟩))
  have hset : J.Rolling (s.mark (some .prepare)):=hr.setMarker rfl (by rintro ⟨⟩)
  refine spec_bind (spec_marker (p := .prepare) hI (hset.unlanded hc) (hset.sync.unlanded hc) ?_
    (fun h _ => ⟨⟨h,hfl⟩,h,hfl⟩))
  have hru:=hset.sync
  have hau : (s.mark (some .prepare)).sync.archive.All (·=J.orig):=(all_settled _ _).mpr hc
  have hmu : (s.mark (some .prepare)).sync.marker.All
      (·≠some .active) := (all_settled _ _).mpr (by rintro ⟨⟩)
  have hfu : (s.mark (some .prepare)).sync.entry.cur=some f:=hf
  generalize (s.mark (some .prepare)).sync=u at hru hau hmu hfu
  have hIu : Unlanded J T u:=hru.unlanded hau.cur
  have hflu : Flushed allowed u:=flushed_of_some hfu
  refine spec_bind (spec_appliedOf hIu (fun a => ?_) (fun h _ => ⟨h,hflu⟩))
  refine spec_bind (spec_look (c := .beforeUnlink a) (fun _ => rfl) hIu (fun _ => ?_) (fun h _ => ⟨h,hflu⟩))
  refine spec_bind (spec_onlyIf hIu (fun h => by cases h) (fun _ => ?_))
  have hgone:=hru.unlink hau hmu
  exact spec_unlinkJournal hfu hIu (hgone.unlanded hau.cur) (hgone.syncEntry.unlanded hau.cur)
    (spec_clearMarker_undone hm hgone.syncEntry ⟨hau,(all_settled _ _).mpr rfl⟩)

/-- The journal of an unlanded attempt is rolled back, or the call fails with the
attempt still recoverable. -/
theorem spec_rollback_rolling (hm : StoresMarker allowed) (hI : Unlanded J T s) (hf : s.entry.cur=some f)
    (hexp : expected.all (· == f.id)=true)
    (hask : ∀x,Asks allowed s (authorize (parsePending J.journal false) (s.stamp x))) :
    Spec act allowed (Unlanded J T) (fun _ => Undone J) (fun _ t => (Faulty allowed ∨ ¬T) ∧ Flushed allowed t)
      (rollback J.digests false expected authorize) s := by
  have hj:=hI.1.entry.cur f hf
  have hk:=hI.1.archive.cur.keeps hj.offset_le
  have hfl : Flushed allowed s:=flushed_of_some hf
  have hfault : Faulty allowed→(Faulty allowed ∨ ¬T) ∧ Flushed allowed s:=fun h => ⟨.inl h,hfl⟩
  refine spec_bind (spec_withError (spec_validate hI hf hj hk hexp ?_ ?_))
  swap
  · rintro (h | h) _
    · exact hfault h
    · exact ⟨.inr (fun hT => h (hI.2 hT)),hfl⟩
  intro header hh hold _
  refine spec_bind (spec_withError (spec_look (c := .fstat) (fun _ => rfl) hI (fun x => ?_) (fun h _ => hfault h)))
  refine spec_bind (spec_withError (Asks.spec (hh ▸ hask x) hI ?_ (fun h _ => hfault h)))
  refine spec_bind (spec_withError (spec_beforeWrite hI ?_ (fun h _ => hfault h)))
  have hdrop : ∀t,J.Rolling t → t.archive.cur=J.orig → t.entry.cur=some f →
      Spec act allowed (Unlanded J T) (fun _ => Undone J)
        (fun _ t => (Faulty allowed ∨ ¬T) ∧ Flushed allowed t)
        (withError (late false) (dropJournal false header)) t := by
    intro t hr hc he
    refine spec_withError (Spec.mono (spec_dropJournal_rolling hm hr hc he) (fun _ _ _ h => h) ?_)
    intro _ _ _ h
    exact ⟨.inl h.1,h.2⟩
  refine spec_bind (spec_onlyIf hI (fun hne => ?_) (fun he => ?_))
  · have hoff : header.pending.offset=J.offset := by
      rw [hh]
      exact journalBytes_offset hj.fits
    have hlen : header.pending.len=J.orig.length := by
      rw [hh]
      exact journalBytes_len hj.fits
    have hne' : s.archive.cur≠J.orig := by
      intro hc
      rw [hold.mpr hc] at hne
      cases hne
    rw [hoff,hlen]
    refine spec_withError (Spec.mono (spec_restoreOld hI hf hne') ?_ ?_)
    · rintro _ t ht ⟨hc,he⟩
      exact hdrop t ht.1 hc (he ▸ hf)
    · rintro _ t _ ⟨h,he⟩
      exact ⟨.inl h,flushed_of_some (he ▸ hf)⟩
  · exact hdrop s hI.1 (hold.mp (by simpa using he)) hf

/-! ## Rolling forward -/

structure Done (J : Job) (w : World) : Prop where
  archive : w.archive.All (· = J.result)
  committed : w.committed = true
  entry : w.entry.All (· = none)

theorem spec_clearMarker_done (hm : StoresMarker allowed) (h : J.Landed s) (hd : Done J s) :
    Spec act allowed J.Landed (fun _ => Done J) (fun _ t => Faulty allowed ∧ Done J t) clearMarker s := by
  have hset:=h.removeMarker hd.committed hd.entry
  have hpush : Done J (s.mark none):=⟨hd.archive,hd.committed,hd.entry⟩
  have hsync : Done J (s.mark none).sync:=⟨hd.archive.sync,by simp [World.sync,hd.committed],hd.entry⟩
  exact spec_clearMarker hm h hset hset.sync hsync (fun _ => hd) (fun hf _ => ⟨⟨hf,hd⟩,hf,hpush⟩)

/-- Removing the journal of a durable commit. -/
theorem spec_dropJournal_landed (hm : StoresMarker allowed) (hl : J.Landed s) (hf : s.entry.cur=some f) :
    Spec act allowed J.Landed (fun _ => Done J)
      (fun _ t => Faulty allowed ∧ Flushed allowed t) (dropJournal true header) s := by
  have hfl : Flushed allowed s:=flushed_of_some hf
  refine spec_bind (spec_beforeWrite hl ?_ (fun h _ => ⟨h,hfl⟩))
  have hset : J.Landed (s.mark (some .complete)):=hl.setMarker rfl
  refine spec_bind (spec_marker (p := .complete) hl hset hset.sync ?_ (fun h _ => ⟨⟨h,hfl⟩,h,hfl⟩))
  have hcu:=hset.committed_sync (by rintro ⟨⟩)
  have hlu:=hset.sync
  have hfu : (s.mark (some .complete)).sync.entry.cur=some f:=hf
  generalize (s.mark (some .complete)).sync=u at hcu hlu hfu
  have hflu : Flushed allowed u:=flushed_of_some hfu
  refine spec_bind (spec_appliedOf hlu (fun a => ?_) (fun h _ => ⟨h,hflu⟩))
  refine spec_bind (spec_look (c := .beforeUnlink a) (fun _ => rfl) hlu (fun _ => ?_) (fun h _ => ⟨h,hflu⟩))
  have hset' : J.Landed (u.mark (some .done)):=hlu.setMarker rfl
  refine spec_bind (spec_onlyIf hlu (fun _ => ?_) (fun h => by cases h))
  refine spec_bind (spec_beforeWrite hlu ?_ (fun h _ => ⟨h,hflu⟩))
  refine spec_marker (p := .done) hlu hset' hset'.sync ?_ (fun h _ => ⟨⟨h,hflu⟩,h,hflu⟩)
  have hcv:=hset'.committed_sync (by rintro ⟨⟩)
  have hlv:=hset'.sync
  have hfv : (u.mark (some .done)).sync.entry.cur=some f:=hfu
  generalize (u.mark (some .done)).sync=v at hcv hlv hfv
  have hgone:=hlv.unlink hcv
  exact spec_unlinkJournal hfv hlv hgone hgone.syncEntry
    (spec_clearMarker_done hm hgone.syncEntry ⟨hlv.archive,hcv,(all_settled _ _).mpr rfl⟩)

/-- The journal of a landed attempt: the new bytes stay. -/
theorem spec_rollback_landed (hm : StoresMarker allowed) (hl : J.Landed s) (hf : s.entry.cur=some f)
    (hexp : expected.all (· == f.id)=true)
    (hask : ∀x,Asks allowed s (authorize (parsePending J.journal true) (s.stamp x))) :
    Spec act allowed J.Landed (fun _ => Done J) (fun _ t => Faulty allowed ∧ Flushed allowed t)
      (rollback J.digests true expected authorize) s := by
  have hj:=hl.entry.cur f hf
  have hc:=hl.archive.cur
  have hk:=hc ▸ (kept_result hj.offset_le).keeps hj.offset_le
  have hfl : Flushed allowed s:=flushed_of_some hf
  refine spec_bind (spec_withError (spec_validate hl hf hj hk hexp ?_ ?_))
  swap
  · rintro (h | h) _
    · exact ⟨h,hfl⟩
    · exact absurd hc h
  intro header hh _ _
  refine spec_bind (spec_withError (spec_look (c := .fstat) (fun _ => rfl) hl (fun x => ?_) (fun h _ => ⟨h,hfl⟩)))
  refine spec_bind (spec_withError (Asks.spec (hh ▸ hask x) hl ?_ (fun h _ => ⟨h,hfl⟩)))
  refine spec_bind (spec_withError (spec_beforeWrite hl ?_ (fun h _ => ⟨h,hfl⟩)))
  refine spec_bind (spec_onlyIf hl (fun h => by cases h) (fun _ => ?_))
  exact spec_withError (spec_dropJournal_landed hm hl hf)

end Ratarmount.CommitJournal
