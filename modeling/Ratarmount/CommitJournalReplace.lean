import Ratarmount.CommitJournalAttempt

/-!
# The replacement of the bytes

From the published journal to the cleared locator: truncation, copy, the complete
locator and the removal of the journal.
-/

namespace Ratarmount.CommitJournal
open Interruptible Fallible Durability Job List Durable

variable {allowed : Call → Choice → Prop} {J : Job} {s : World}

/-- The copy loop appends the new suffix chunk by chunk. -/
theorem spec_copySuffix {fuel done : ℕ} {a : File} (ho : J.offset≤J.orig.length)
    (hn : ¬s.entry.Image none) (hs : s.suffix=J.new) (hr : J.Rolling { s with archive := a })
    (hcur : a.cur=J.orig.take J.offset++J.new.take done) (hdone : done≤J.new.length)
    (hfuel : J.new.length-done<fuel) :
    Spec act allowed (Unlanded J True)
      (fun _ t => ∃b : File,t={ s with archive := b } ∧ b.cur=J.result)
      (fun _ t => ∃b : File,t={ s with archive := b })
      (copySuffix fuel (J.offset+done) done) { s with archive := a } := by
  have htail : ∀k,J.Tail (J.orig.take J.offset++J.new.take k) := by
    intro k
    refine (tail_result ho).shorten ?_
    exact (prefix_append_right_inj _).mpr ( take_prefix _ _)
  induction fuel generalizing done a with
  | zero => omega
  | succ fuel ih =>
    have hI : Unlanded J True { s with archive:=a } := ⟨hr,fun _ => hcur ▸ htail done⟩
    refine spec_bind (spec_look (c := .readSuffix done 65536) (v := fun _ => J.new.slice done 65536)
      (fun _ => by simp [act,hs]) hI (fun _ => ?_) (fun _ _ => ⟨a,rfl⟩))
    have hlen : (J.new.slice done 65536).length=min 65536 (J.new.length-done):=Bytes.length_slice _ _ _
    have happ : J.new.take done++J.new.slice done 65536 =
        J.new.take (done+(J.new.slice done 65536).length) := by
      rw [Bytes.slice,take_add,length_take,←take_take,take_length]
    generalize J.new.slice done 65536=buf at hlen happ
    split
    · next hempty =>
      have hb : buf=[] := by simpa using hempty
      subst hb
      have hend : done=J.new.length := by
        rw [length_nil] at hlen
        omega
      refine spec_pure hI ⟨a,rfl,?_⟩
      rw [hcur,hend,take_length,result]
    · next hne =>
      have hpos : 0<buf.length := by
        rw [length_pos_iff]
        simpa using hne
      have hnext : a.cur++buf=J.orig.take J.offset++J.new.take (done+buf.length) := by
        rw [hcur,append_assoc,happ]
      refine spec_bind (Spec.mono (spec_writeAll ho hn hr le_rfl ?_ (Nat.le_add_right _ _)
        (fun _ => hnext ▸ htail _)) ?_ (fun _ _ _ h => h.2))
      · rw [hcur,length_append,length_take,length_take,min_eq_left ho,min_eq_left hdone]
      · rintro _ _ hb ⟨b,rfl,hbcur⟩
        rw [add_assoc]
        exact ih hb.1 (hbcur.trans hnext) (by omega) (by omega)

def completedRecord (id : ℕ) : Attempt := { published id with completed := true }

structure Standing (J : Job) (f : JournalFile) (w : World) : Prop where
  landed : J.Landed w
  committed : w.committed = true
  entry : w.entry.cur = some f
  marker : rollsForward w.marker.cur = true

section Overwrite

variable {f : JournalFile}

theorem stopped_rolling {e : IoError} {g : Bool} {w : World} (hr : J.Rolling w) (ht : J.Tail w.archive.cur)
    (hf : w.entry.cur=some f) : Stopped allowed J ⟨e,published f.id,g⟩ w :=
  stopped_published (.inl hr) ht hf rfl rfl rfl (by rintro ⟨⟩)

theorem At.stopped {xs : Bytes} {p : Phase} {e : IoError} {g : Bool} (h : At J xs p f s)
    (hr : J.Rolling s) (ht : J.Tail xs) : Stopped allowed J ⟨e,published f.id,g⟩ s :=
  stopped_rolling hr (by simpa [h.archive] using ht) h.cur

theorem spec_activate (h : At J J.orig .prepare f s) : Spec act allowed J.Inv (fun _ => At J J.orig .active f)
      (Stopped allowed J) (activate (published f.id)) s := by
  have hr:=h.rolling rfl (.inl rfl)
  have hset : J.Rolling (s.mark (some .active)):=hr.setMarker rfl (fun _ => h.present)
  have htail : J.Tail s.archive.cur := by
    rw [h.archive]
    exact tail_orig
  refine spec_bind (spec_withError (spec_beforeWrite (.inl hr) ?_ (fun _ _ => h.stopped hr tail_orig)))
  refine spec_withError (spec_marker (p := .active) (.inl hr) (.inl hset) (.inl hset.sync) ?_
    (fun _ _ => ⟨h.stopped hr tail_orig,stopped_rolling hset htail h.cur⟩))
  exact ⟨by simp [World.sync,sync,h.archive],rfl,h.entry,h.journal,hset.sync.uncommitted,
    h.suffix⟩

theorem spec_truncate (h : At J J.orig .active f s) :
    Spec act allowed J.Inv (fun _ => At J (J.orig.take J.offset) .active f)
      (Stopped allowed J) (truncate J.offset (published f.id)) s := by
  have ho:=h.journal.offset_le
  have hr:=h.rolling rfl (.inl rfl)
  have hcut : (s.archive.push (.setLen J.offset) : File).cur=J.orig.take J.offset := by
    rw [h.archive]
    exact setLength_of_le ho
  have hrc : J.Rolling { s with archive:=s.archive.push (.setLen J.offset) } :=
    hr.update le_rfl h.present ho
  have htc : J.Tail (s.archive.push (.setLen J.offset) : File).cur := by
    rw [hcut]
    exact tail_orig.shorten ( take_prefix _ _)
  refine spec_bind (spec_withError (spec_beforeWrite (.inl hr) ?_ (fun _ _ => h.stopped hr tail_orig)))
  refine spec_bind (spec_withError (spec_io (c := .setLen J.offset) (fun _ => rfl) (.inl hr)
    (fun _ => ⟨.inl hrc,?_⟩) (fun _ _ _ _ => h.stopped hr tail_orig)))
  refine spec_withError (spec_io (c := .syncAll) (fun _ => rfl) (.inl hrc)
    (fun _ => ⟨.inl hrc.sync,?_⟩) (fun _ _ _ _ => stopped_rolling hrc htc h.cur))
  exact ⟨by rw [World.sync,sync,hcut],by simp [World.sync,sync,h.marker],h.entry,
    h.journal,hrc.sync.uncommitted,h.suffix⟩

theorem spec_fill (h : At J (J.orig.take J.offset) .active f s) :
    Spec act allowed J.Inv (fun _ => At J J.result .active f) (Stopped allowed J)
      (fill J.offset (J.offset+J.new.length) (published f.id)) s := by
  have ho:=h.journal.offset_le
  have htail : J.Tail (J.orig.take J.offset):=tail_orig.shorten ( take_prefix _ _)
  have hkept : J.Kept (J.orig.take J.offset) := by
    have happ:=@Keeps.append J.offset J.orig [] ho
    rw [append_nil] at happ
    exact .inr happ
  have hr:=h.rolling rfl hkept
  have hcur : s.archive.cur=J.orig.take J.offset++J.new.take 0 := by simp [h.archive]
  refine spec_bind (spec_withError (spec_beforeWrite (.inl hr) ?_ (fun _ _ => h.stopped hr htail)))
  have hcopy : Spec act allowed (Unlanded J True)
      (fun _ t => ∃b : File,t={ s with archive := b } ∧ b.cur=J.result)
      (fun _ t => ∃b : File,t={ s with archive := b })
      (copySuffix (J.offset+J.new.length-J.offset+1) J.offset 0) s :=
    spec_copySuffix ho h.present h.suffix hr hcur (Nat.zero_le _) (by omega)
  refine spec_bind (spec_withError ((Spec.mono hcopy ?_ ?_).weaken (fun _ hu => .inl hu.1)))
  · rintro _ _ hu ⟨b,rfl,hb⟩
    refine spec_withError (spec_io (c := .syncAll) (fun _ => rfl) (.inl hu.1)
      (fun _ => ⟨.inl hu.1.sync,?_⟩) (fun _ _ _ _ => stopped_rolling hu.1 (hu.2 trivial) h.cur))
    exact ⟨by rw [World.sync,sync,hb],by simp [World.sync,sync,h.marker],h.entry,
      h.journal,hu.1.sync.uncommitted,h.suffix⟩
  · rintro _ _ hu ⟨b,rfl⟩
    exact stopped_rolling hu.1 (hu.2 trivial) h.cur

theorem spec_overwrite (h : At J J.orig .prepare f s) :
    Spec act allowed J.Inv (fun a t => a=completedRecord f.id ∧ Standing J f t) (Stopped allowed J)
      (overwrite J.offset (J.offset+J.new.length) (published f.id)) s := by
  have ho:=h.journal.offset_le
  refine spec_bind (Spec.mono (spec_activate h) ?_ (fun _ _ _ hs => hs))
  intro _ t _ ht
  refine spec_bind (Spec.mono (spec_truncate ht) ?_ (fun _ _ _ hs => hs))
  intro _ t _ ht
  refine spec_bind (Spec.mono (spec_fill ht) ?_ (fun _ _ _ hs => hs))
  intro _ t _ ht
  have hr:=ht.rolling rfl (kept_result ho)
  have hset : J.Landed (t.mark (some .complete)) :=
    hr.land rfl (by simp [ht.archive]) (by simp [ht.entry]) (by simp [ht.marker])
  refine spec_bind (spec_withError (spec_beforeWrite (.inl hr) ?_ (fun _ _ => ht.stopped hr (tail_result ho))))
  refine spec_bind (spec_withError (spec_marker (p := .complete) (.inl hr) (.inr hset) (.inr hset.sync) ?_
    (fun _ _ => ⟨ht.stopped hr (tail_result ho),?_⟩)))
  · exact spec_pure (.inr hset.sync) ⟨rfl,hset.sync,hset.committed_sync (by rintro ⟨⟩),ht.cur,rfl⟩
  · refine stopped_published (.inr hset) ?_ ht.cur rfl rfl rfl (by rintro ⟨⟩)
    rw [ht.archive]
    exact tail_result ho

end Overwrite

/-! ## The end of `run` -/

section Retire

variable {f : JournalFile}

theorem Standing.stopped {e : IoError} {g : Bool} (h : Standing J f s) :
    Stopped allowed J ⟨e,completedRecord f.id,g⟩ s := by
  have ho:=(h.landed.entry.cur f h.entry).offset_le
  refine stopped_published (.inr h.landed) ?_ h.entry rfl rfl rfl (fun _ => h.marker)
  rw [h.landed.archive.cur]
  exact tail_result ho

/-- After the unlink only its durability and the locator are owed. -/
theorem stopped_unlinked {e : IoError} {g synced : Bool} {id : ℕ} {w : World} (hl : J.Landed w)
    (ho : J.offset≤J.orig.length) (hn : w.entry.cur=none) (hfl : Flushed allowed w)
    (hs : synced=true → w.entry.All (·=none)) :
    Stopped allowed J ⟨e,{ completedRecord id with unlinked := true, synced := synced },g⟩ w where
  inv := .inr hl
  tail := by
    rw [hl.archive.cur]
    exact tail_result ho
  flushed := hfl
  refused := by rintro _ ⟨⟩
  early := by rintro ⟨⟩
  journal := by rintro _ _ ⟨⟩
  unlinked _ := ⟨hl,hn,rfl,hs⟩

theorem spec_retire {stamp : Stamp} {newLen : ℕ} (hm : StoresMarker allowed) (h : Standing J f s) :
    Spec act allowed J.Inv (fun _ => Done J) (Stopped allowed J) (retire stamp newLen (completedRecord f.id)) s := by
  have ho:=(h.landed.entry.cur f h.entry).offset_le
  have hI : J.Inv s:=.inr h.landed
  refine spec_bind (spec_withError (spec_appliedOf hI (fun a => ?_) (fun _ _ => h.stopped)))
  refine spec_bind (spec_withError (spec_look (c := .beforeUnlink a) (fun _ => rfl) hI (fun _ => ?_)
    (fun _ _ => h.stopped)))
  refine spec_bind (spec_withError (spec_beforeWrite hI ?_ (fun _ _ => h.stopped)))
  have hset : J.Landed (s.mark (some .done)):=h.landed.setMarker rfl
  have hpush : Standing J f (s.mark (some .done)):=⟨hset,h.committed,h.entry,rfl⟩
  refine spec_bind (spec_withError (spec_marker (p := .done) hI (.inr hset) (.inr hset.sync) ?_
    (fun _ _ => ⟨h.stopped,hpush.stopped⟩)))
  have hu : Standing J f (s.mark (some .done)).sync:=⟨hset.sync,hset.committed_sync (by rintro ⟨⟩),h.entry,rfl⟩
  generalize (s.mark (some .done)).sync=u at hu
  refine spec_bind (spec_withError (spec_beforeWrite (.inr hu.landed) ?_ (fun _ _ => hu.stopped)))
  have hgone:=hu.landed.unlink hu.committed
  refine spec_bind (spec_withError (spec_io (act_removeFile hu.entry) (.inr hu.landed)
    (fun _ => ⟨.inr hgone,?_⟩) (fun _ _ _ _ => hu.stopped)))
  have hdone : Done J { u with entry:=(u.entry.push ⟨none⟩).sync } :=
    ⟨hu.landed.archive,hu.committed,(all_settled _ _).mpr rfl⟩
  have hIv : J.Inv { u with entry:=(u.entry.push ⟨none⟩).sync } := .inr hgone.syncEntry
  refine spec_bind (spec_withError (spec_io (c := .syncParent) (fun _ => rfl) (.inr hgone) (fun _ => ⟨hIv,?_⟩)
    (fun x hx hf _ => stopped_unlinked hgone ho rfl (.inr ⟨x,hx,hf⟩) (by rintro ⟨⟩))))
  refine spec_bind (spec_withError (spec_beforeWrite hIv ?_
    (fun _ _ => stopped_unlinked hgone.syncEntry ho rfl (flushed_of_all hdone.entry) (fun _ => hdone.entry))))
  refine spec_withError ((Spec.mono (spec_clearMarker_done hm hgone.syncEntry hdone) ?_ ?_).weaken
    (fun _ hl => .inr hl))
  · intro _ t _ hd
    exact hd
  · intro _ t hl hd
    exact stopped_unlinked hl ho hd.2.entry.cur (flushed_of_all hd.2.entry) (fun _ => hd.2.entry)

end Retire

/-- `run` finishes with the result in place, or stops with a true record. -/
theorem spec_run (hm : StoresMarker allowed) (h : Fresh J.orig J.new s) :
    Spec act allowed J.Inv (fun _ => Done J) (Stopped allowed J) (run J.digests J.offset J.stamp) s := by
  refine spec_bind (spec_withError ((Spec.mono (spec_buildJournal h) ?_ ?_).weaken (fun _ hr => .inl hr)))
  · rintro _ t _ ⟨ht,hj,rfl⟩
    refine spec_bind (Spec.mono (spec_publish ht hj) ?_ (fun _ _ _ hs => hs))
    rintro _ u _ ⟨rfl,hu⟩
    refine spec_bind (Spec.mono (spec_overwrite hu) ?_ (fun _ _ _ hs => hs))
    rintro _ v _ ⟨rfl,hv⟩
    exact spec_retire hm hv
  · intro _ t _ ht
    exact stopped_start ht

end Ratarmount.CommitJournal
