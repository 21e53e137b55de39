import Ratarmount.CommitJournalRollback

/-!
# Recovery

`recover` keeps the invariant at every call, and where it succeeds the archive is one
of the two versions.
-/

namespace Ratarmount.CommitJournal
open Interruptible Fallible Durability Job

variable {allowed : Call → Choice → Prop} {J : Job} {s : World} {T : Prop}

/-! ## `recover` -/

/-- The archive is one of the two versions: the new one exactly if the commit had
become durable. No journal is left. -/
structure Recovered (J : Job) (w : World) : Prop where
  archive : (w.archive.All (· = J.orig) ∧ w.committed = false) ∨
    (w.archive.All (· = J.result) ∧ w.committed = true)
  entry : w.entry.cur = none

theorem Job.Rolling.recovered {w : World} (h : J.Rolling w) (hn : w.entry.cur=none) : Recovered J w :=
  ⟨.inl ⟨(h.absent (hn ▸ w.entry.image_cur)).1,h.uncommitted⟩,hn⟩

theorem Job.Landed.recovered {w : World} (h : J.Landed w) (hn : w.entry.cur=none) : Recovered J w :=
  ⟨.inr ⟨h.archive,h.gone (hn ▸ w.entry.image_cur)⟩,hn⟩

theorem Job.Inv.recovered {w : World} (h : J.Inv w) (hn : w.entry.cur=none) : Recovered J w := by
  rcases h with h | h
  · exact h.recovered hn
  · exact h.recovered hn

theorem asks_caller (j : PendingJournal) (m : Stamp) : Asks allowed s (askCaller j m) :=
  spec_look (c := .authorize j m) (fun _ => rfl) rfl (fun _ => trivial) (fun h _ => h)

theorem spec_syncParentIfPresent {I : World → Prop} {Q : Unit → World → Prop} {E : IoError → World → Prop}
    (hI : I s) (hsync : I { s with entry := s.entry.sync } ∧ Q () { s with entry := s.entry.sync })
    (hskip : ∀x,allowed .syncParent x → x.fault≠none → Q () s ∧ ∀e,E e s) :
    Spec act allowed I Q E syncParentIfPresent s := by
  refine spec_bind (spec_attempt (spec_io (c := .syncParent) (fun _ => rfl) hI
    (fun _ => ⟨hsync.1,spec_pure hsync.1 hsync.2⟩) (fun x hx h e => ?_)))
  split
  · exact spec_pure hI (hskip x hx h).1
  · next he =>
    cases he
    exact spec_throw hI ((hskip x hx h).2 _)
  · next he => cases he

theorem spec_clearStale (hm : StoresMarker allowed) (hr : J.Rolling s) (hn : s.entry.cur=none)
    (hfl : Flushed allowed s) :
    Spec act allowed J.Rolling (fun _ t => Recovered J t ∧ Flushed allowed t)
      (fun _ t => Faulty allowed ∧ Flushed allowed t) clearStale s := by
  have hclear : ∀t : World,J.Rolling t → t.entry.cur=none → Flushed allowed t →
      Spec act allowed J.Rolling (fun _ t => Recovered J t ∧ Flushed allowed t)
        (fun _ t => Faulty allowed ∧ Flushed allowed t)
        (do
          withError RecoverError.refused (io .beforeWrite)
          withError .journal clearMarker
          pure (none : Option Applied)) t := by
    intro t ht hn hfl
    refine spec_bind (spec_withError (spec_beforeWrite ht ?_ (fun h _ => ⟨h,hfl⟩)))
    have hset : J.Rolling (t.mark none):=ht.setMarker rfl (by rintro ⟨⟩)
    exact spec_bind (spec_withError (spec_clearMarker hm ht hset hset.sync
      (spec_pure hset.sync ⟨hset.sync.recovered hn,hfl⟩) (fun _ => spec_pure ht ⟨ht.recovered hn,hfl⟩)
      (fun h _ => ⟨⟨h,hfl⟩,h,hfl⟩)))
  refine spec_bind (spec_withError (spec_beforeWrite hr ?_ (fun h _ => ⟨h,hfl⟩)))
  refine spec_bind (spec_withError (spec_syncParentIfPresent hr ⟨hr.syncEntry,?_⟩ ?_))
  · exact hclear _ hr.syncEntry hn (flushed_of_all ((Durable.all_settled _ _).mpr hn))
  · intro x hx h
    exact ⟨hclear s hr hn hfl,fun _ => ⟨⟨_,x,hx,h⟩,hfl⟩⟩

/-- What `recover` promises of an error: something failed, or there was no readable
journal to apply. -/
def RecoverFailed (allowed : Call → Choice → Prop) (T : Prop) (s t : World) : Prop :=
  (Faulty allowed ∨ ¬ T ∨ s.entry.cur = none) ∧ Flushed allowed t

theorem spec_recoverLocked (hm : StoresMarker allowed) (hI : J.Inv s) (hfl : Flushed allowed s)
    (hT : T → rollsForward s.marker.cur=false → J.Tail s.archive.cur) : Spec act allowed J.Inv
      (fun r t => (Recovered J t ∧ Flushed allowed t) ∧ (s.entry.cur≠none → r.isSome=true))
      (fun _ => RecoverFailed allowed T s) (recoverLocked J.digests s.marker.cur) s := by
  have hfail : Faulty allowed → RecoverFailed allowed T s s:=fun h => ⟨.inl h,hfl⟩
  refine spec_bind (spec_withError (spec_look (c := .journalExists) (fun _ => rfl) hI (fun _ => ?_)
    (fun h _ => hfail h)))
  cases hf : s.entry.cur with
  | some f =>
    refine spec_bind (spec_withError (spec_beforeWrite hI ?_ (fun h _ => hfail h)))
    cases hfw : rollsForward s.marker.cur with
    | true =>
      refine spec_bind (Spec.mono ((spec_rollback_landed hm (hI.landed hfw) hf rfl
        (fun _ => asks_caller _ _)).weaken (fun _ h => .inr h)) ?_ ?_)
      · intro a t ht hd
        exact spec_pure ht ⟨⟨⟨.inr ⟨hd.archive,hd.committed⟩,hd.entry.cur⟩,flushed_of_all hd.entry⟩,fun _ => rfl⟩
      · intro _ t _ h
        exact ⟨.inl h.1,h.2⟩
    | false =>
      have hr : J.Rolling s:=hI.rolling hfw (by rw [hf]; simp)
      refine spec_bind ((Spec.mono (spec_rollback_rolling hm ⟨hr,fun h => hT h hfw⟩ hf rfl
        (fun _ => asks_caller _ _)) ?_ ?_).weaken (fun _ h => .inl h.1))
      · intro a t ht hu
        exact spec_pure (.inl ht.1) ⟨⟨ht.1.recovered hu.2.cur,flushed_of_all hu.2⟩,fun _ => rfl⟩
      · rintro _ t _ ⟨h | h,h'⟩
        · exact ⟨.inl h,h'⟩
        · exact ⟨.inr (.inl h),h'⟩
  | none =>
    have hend : (Recovered J s ∧ Flushed allowed s) ∧
        ((none : Option JournalFile)≠none→(none : Option Applied).isSome=true) :=
      ⟨⟨hI.recovered hf,hfl⟩,fun h => absurd rfl h⟩
    rcases hm' : s.marker.cur with _ | (_ | _ | _ | _)
    · exact spec_pure hI hend
    · -- a stale `P`: only an attempt that never landed can have left it
      have hr : J.Rolling s := by
        rcases hI with h | h
        · exact h
        · rcases h.marker_cur with hc | hc
          · rw [hm'] at hc
            cases hc
          · rw [hm'] at hc
            cases hc
      refine (Spec.mono (spec_clearStale hm hr hf hfl) ?_ ?_).weaken (fun _ h => .inl h)
      · intro _ t _ h
        exact ⟨h,fun h' => absurd rfl h'⟩
      · intro _ t _ h
        exact ⟨.inl h.1,h.2⟩
    · exact spec_throw hI ⟨.inr (.inr hf),hfl⟩
    · exact spec_throw hI ⟨.inr (.inr hf),hfl⟩
    · exact spec_pure hI hend

/-- `recover` from any state of the invariant, as long as the archive can be opened. -/
theorem spec_recover (hm : StoresMarker allowed) (hopen : ∀x,allowed .openRead x → x.fault=none)
    (hI : J.Inv s) (hfl : Flushed allowed s)
    (hT : T → rollsForward s.marker.cur=false → J.Tail s.archive.cur) :
    Spec act allowed J.Inv
      (fun r t => (Recovered J t ∧ Flushed allowed t) ∧ (s.entry.cur≠none → r.isSome=true))
      (fun _ => RecoverFailed allowed T s) (recover J.digests) s := by
  have hfail : Faulty allowed → RecoverFailed allowed T s s:=fun h => ⟨.inl h,hfl⟩
  refine spec_bind (spec_attempt (spec_io (c := .openRead) (fun _ => rfl) hI (fun _ => ⟨hI,?_⟩)
    (fun x hx h => absurd (hopen x hx) h)))
  refine spec_bind (spec_withError (spec_look (c := .fstat) (fun _ => rfl) hI (fun _ => ?_)
    (fun h _ => hfail h)))
  refine spec_bind (spec_withError (spec_getMarker hm hI ?_ (fun h _ => hfail h)))
  have hlock : Spec act allowed J.Inv
      (fun r t => (Recovered J t ∧ Flushed allowed t) ∧ (s.entry.cur≠none → r.isSome=true))
      (fun _ => RecoverFailed allowed T s)
      (do
        withError RecoverError.journal (io .openReadWrite)
        withError .journal (io .flock)
        let state ← withError .journal (io .getMarker)
        recoverLocked J.digests state) s := by
    refine spec_bind (spec_withError (spec_look (c := .openReadWrite) (fun _ => rfl) hI (fun _ => ?_)
      (fun h _ => hfail h)))
    refine spec_bind (spec_withError (spec_look (c := .flock) (fun _ => rfl) hI (fun _ => ?_)
      (fun h _ => hfail h)))
    refine spec_bind (spec_withError (spec_getMarker hm hI ?_ (fun h _ => hfail h)))
    exact spec_recoverLocked hm hI hfl hT
  refine spec_bind ?_
  cases s.marker.cur with
  | some p => exact spec_pure hI hlock
  | none =>
    refine spec_withError (spec_look (c := .journalExists) (fun _ => rfl) hI (fun _ => ?_) (fun h _ => hfail h))
    cases hf : s.entry.cur with
    | some f => simpa [hf] using hlock
    | none => exact spec_pure hI ⟨⟨hI.recovered hf,hfl⟩,fun h => absurd rfl h⟩

end Ratarmount.CommitJournal
