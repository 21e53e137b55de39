import Ratarmount.CommitJournalRecovery

/-!
# The attempt up to its published journal

Each stage of `run` knows exactly the state it is in, so where it stops the record of
the attempt describes the disk (`Stopped`).
-/

namespace Ratarmount.CommitJournal
open Interruptible Fallible Durability Job Durable

variable {allowed : Call → Choice → Prop} {J : Job} {s : World}

/-- No journal or locator is pending and nothing of this attempt exists. -/
structure Fresh (orig new : Bytes) (w : World) : Prop where
  archive : w.archive = .settled orig
  marker : w.marker = .settled none
  entry : w.entry = .settled none
  uncommitted : w.committed = false
  suffix : w.suffix = new

variable {w : World} {xs : Bytes} {Q : Unit → World → Prop} {E : IoError → World → Prop} {e : IoError} {a : Attempt}
  {g : Bool} {f : JournalFile} {p : Phase}

theorem Fresh.rolling (h : Fresh J.orig J.new w) : J.Rolling w where
  uncommitted := h.uncommitted
  marker := by simp [h.marker,rollsForward]
  archive := by simp [h.archive,Kept]
  entry := by simp [h.entry]
  absent _ := by simp [h.archive,h.marker]

theorem Fresh.all_orig (h : Fresh J.orig J.new w) : w.archive.All (·=J.orig) := by simp [h.archive]

/-! ## Building the journal -/

/-- The temporary journal holds `xs` so far. -/
def Building (J : Job) (xs : Bytes) (w : World) : Prop := Fresh J.orig J.new w ∧ w.temp.data.cur = xs

theorem spec_tempWrite {bs : Bytes} (h : Building J xs s) (hok : ∀t,Building J (xs++bs) t → Q () t)
    (herr : ∀e t,Fresh J.orig J.new t → E e t) : Spec act allowed J.Rolling Q E (io (.tempWrite bs)) s := by
  have hcur : (s.temp.data.push (.write s.temp.data.cur.length bs) : File).cur=xs++bs := by
    rw [←h.2]
    exact writeAt_end _ _
  have hnext : Building J (xs++bs)
      { s with temp.data := s.temp.data.push (.write s.temp.data.cur.length bs) } :=
    ⟨⟨h.1.archive,h.1.marker,h.1.entry,h.1.uncommitted,h.1.suffix⟩,hcur⟩
  exact spec_io (c := .tempWrite bs) (fun _ => rfl) h.1.rolling (fun _ => ⟨hnext.1.rolling,hok _ hnext⟩)
    (fun _ _ _ e => herr e s h.1)

theorem spec_writeJournal {parts : List Bytes} (h : Building J xs s)
    (hok : ∀t,Building J (xs++parts.flatten) t → Q () t) (herr : ∀e t,Fresh J.orig J.new t → E e t) :
    Spec act allowed J.Rolling Q E (writeJournal parts) s := by
  induction parts generalizing xs s with
  | nil => exact spec_pure h.1.rolling (hok s (by simpa using h))
  | cons bs rest ih =>
    refine spec_bind (spec_tempWrite h (fun t ht => ih ht (fun u hu => hok u ?_)) herr)
    simpa using hu

theorem spec_copyExact_temp {source : Bytes} {len : ℕ} (h : Building J xs s) (hlen : source.length=len)
    (hok : ∀t,Building J (xs++source) t → Q () t) (herr : ∀e t,Fresh J.orig J.new t → E e t) :
    Spec act allowed J.Rolling Q E (copyExact source len (fun bs => io (.tempWrite bs))) s := by
  refine spec_bind (spec_tempWrite h (fun t ht => ?_) herr)
  rw [List.take_of_length_le (Nat.le_of_eq hlen)] at ht
  refine spec_ensure ht.1.rolling (fun _ => hok t ht) (fun hshort => ?_)
  simp [hlen] at hshort

theorem Fresh.act_readArchive (h : Fresh J.orig J.new s) (x : Choice) :
    act .readArchive x s=unlessFault x s (.ok J.orig,s) := by
  simp [act,h.archive]

theorem Fresh.act_suffixLen (h : Fresh J.orig J.new s) (x : Choice) :
    act .suffixLen x s=unlessFault x s (.ok J.new.length,s) := by
  simp [act,h.suffix]

theorem Fresh.act_readSuffix (h : Fresh J.orig J.new s) (x : Choice) :
    act (.readSuffix 0 J.new.length) x s=unlessFault x s (.ok J.new,s) := by
  simp [act,h.suffix]

/-- The synced temporary file is the journal of this job. -/
theorem spec_buildJournal (h : Fresh J.orig J.new s) : Spec act allowed J.Rolling
      (fun newLen t => Fresh J.orig J.new t ∧ J.IsJournal t.temp ∧ newLen=J.offset+J.new.length)
      (fun _ => Fresh J.orig J.new) (buildJournal J.digests J.offset J.stamp) s := by
  have hr:=h.rolling
  have herr : ∀e : IoError,∀t,Fresh J.orig J.new t→(fun (_ : IoError) t => Fresh J.orig J.new t) e t:=fun _ _ ht => ht
  refine spec_bind (spec_ensure hr (fun ho => ?_) (fun _ => h))
  have ho' : J.offset≤J.orig.length := by simpa [J.len_eq] using ho
  refine spec_bind (spec_look h.act_suffixLen hr (fun _ => ?_) (fun _ _ => h))
  refine spec_bind (spec_ensure hr (fun _ => ?_) (fun _ => h))
  refine spec_bind (spec_look h.act_readArchive hr (fun _ => ?_) (fun _ _ => h))
  have hnew : ∀x : Choice,Building J [] { s with temp:=⟨x.fresh,.settled []⟩ } := fun x =>
    ⟨⟨h.archive,h.marker,h.entry,h.uncommitted,h.suffix⟩,rfl⟩
  refine spec_bind (spec_io (c := .tempCreate) (fun _ => rfl) hr (fun x => ⟨(hnew x).1.rolling,?_⟩)
    (fun _ _ _ _ => h))
  refine spec_bind (spec_writeJournal (hnew x) (fun t ht => ?_) herr)
  refine spec_bind (spec_tempWrite ht (fun t ht => ?_) herr)
  refine spec_bind (spec_look ht.1.act_readArchive ht.1.rolling (fun _ => ?_) (fun _ _ => ht.1))
  refine spec_bind (spec_copyExact_temp ht (by rw [List.length_drop,J.len_eq]) (fun t ht => ?_) herr)
  refine spec_bind (spec_look ht.1.act_readSuffix ht.1.rolling (fun _ => ?_) (fun _ _ => ht.1))
  refine spec_bind (spec_copyExact_temp ht rfl (fun t ht => ?_) herr)
  have hbody : t.temp.data.cur=journalBody J.digests J.stamp J.offset J.orig J.new := by
    rw [ht.2]
    simp [journalBody,headerBytes,headerWords]
  refine spec_bind (spec_look (c := .tempRead) (fun _ => rfl) ht.1.rolling (fun _ => ?_) (fun _ _ => ht.1))
  refine spec_bind (spec_tempWrite ⟨ht.1,hbody⟩ (fun u hu => ?_) herr)
  have hsync : Fresh J.orig J.new { u with temp.data:=u.temp.data.sync } :=
    ⟨hu.1.archive,hu.1.marker,hu.1.entry,hu.1.uncommitted,hu.1.suffix⟩
  refine spec_bind (spec_io (c := .tempSync) (fun _ => rfl) hu.1.rolling (fun _ => ⟨hsync.rolling,?_⟩)
    (fun _ _ _ _ => hu.1))
  refine spec_pure hsync.rolling ⟨hsync,⟨ho',?_⟩,rfl⟩
  rw [sync,hu.2,hbody]
  rfl

/-! ## Where `run` stops -/

/-- The fstat of the journal just published can fail. -/
def LosesIdentity (allowed : Call → Choice → Prop) : Prop := ∃ x, allowed .statPublished x ∧ x.fault ≠ none

/-- The record of the attempt describes the disk. -/
structure Stopped (allowed : Call → Choice → Prop) (J : Job) (stop : Stop) (w : World) : Prop where
  inv : J.Inv w
  tail : J.Tail w.archive.cur
  flushed : Flushed allowed w
  refused : stop.guardRefused = true → stop.attempt.prepared = false → Fresh J.orig J.new w
  early : stop.attempt.published = none → stop.attempt.completed = false ∧ J.Rolling w ∧
    w.archive.All (· = J.orig) ∧ (w.entry.All (· = none) ∨ LosesIdentity allowed)
  journal : ∀ id, stop.attempt.published = some id → stop.attempt.unlinked = false →
    (∃ f, w.entry.cur = some f ∧ f.id = id) ∧
      (stop.attempt.completed = true → rollsForward w.marker.cur = true)
  unlinked : stop.attempt.unlinked = true → J.Landed w ∧ w.entry.cur = none ∧
    stop.attempt.completed = true ∧ (stop.attempt.synced = true → w.entry.All (· = none))

theorem stopped_early (hr : J.Rolling w) (ha : w.archive.All (·=J.orig)) (he : w.entry.All (·=none))
    (hp : a.published=none) (hc : a.completed=false) (hu : a.unlinked=false)
    (hg : g=true → a.prepared=false → Fresh J.orig J.new w) : Stopped allowed J ⟨e,a,g⟩ w where
  inv := .inl hr
  tail := ha.cur ▸ tail_orig
  flushed := flushed_of_all he
  refused := hg
  early _ := ⟨hc,hr,ha,.inl he⟩
  journal id h _ := by
    rw [hp] at h
    cases h
  unlinked h := by
    rw [hu] at h
    cases h

theorem stopped_start (h : Fresh J.orig J.new w) : Stopped allowed J ⟨e,.start,g⟩ w :=
  stopped_early h.rolling h.all_orig (by simp [h.entry]) rfl rfl rfl (fun _ _ => h)

theorem stopped_published (hi : J.Inv w) (ht : J.Tail w.archive.cur) (hf : w.entry.cur=some f)
    (hp : a.published=some f.id) (hprep : a.prepared=true) (hu : a.unlinked=false)
    (hc : a.completed=true → rollsForward w.marker.cur=true) : Stopped allowed J ⟨e,a,g⟩ w where
  inv := hi
  tail := ht
  flushed := flushed_of_some hf
  refused _ h := by
    rw [hprep] at h
    cases h
  early h := by
    rw [hp] at h
    cases h
  journal id h _ := by
    rw [hp] at h
    cases h
    exact ⟨⟨f,hf,rfl⟩,hc⟩
  unlinked h := by
    rw [hu] at h
    cases h

/-! ## The stages of `run` -/

/-- Everything is durable: the archive is `xs`, the locator `p`, the journal `f`. -/
structure At (J : Job) (xs : Bytes) (p : Phase) (f : JournalFile) (w : World) : Prop where
  archive : w.archive = .settled xs
  marker : w.marker = .settled (some p)
  entry : w.entry = .settled (some f)
  journal : J.IsJournal f
  uncommitted : w.committed = false
  suffix : w.suffix = J.new

theorem At.cur (h : At J xs p f w) : w.entry.cur=some f := by simp [h.entry]

theorem At.present (h : At J xs p f w) : ¬w.entry.Image none := by simp [h.entry]

theorem At.rolling (h : At J xs p f w) (hp : rollsForward (some p)=false) (hk : J.Kept xs) : J.Rolling w where
  uncommitted := h.uncommitted
  marker := by simp [h.marker,hp]
  archive := by simp [h.archive,hk]
  entry := by
    rw [h.entry,all_settled]
    rintro g ⟨⟩
    exact h.journal
  absent hn := absurd hn h.present

def published (id : ℕ) : Attempt := { Attempt.start with prepared := true, published := some id }

theorem spec_publish (h : Fresh J.orig J.new s) (hj : J.IsJournal s.temp) : Spec act allowed J.Inv
      (fun a t => a=published s.temp.id ∧ At J J.orig .prepare s.temp t) (Stopped allowed J) publish s := by
  have hnone : s.entry.All (·=none) := by simp [h.entry]
  refine spec_bind (spec_withError (spec_beforeWrite (.inl h.rolling) ?_ (fun _ _ => stopped_start h)))
  have hset : J.Rolling (s.mark (some .prepare)):=h.rolling.setMarker rfl (by rintro ⟨⟩)
  refine spec_bind (spec_withError (spec_marker (.inl h.rolling) (.inl hset) (.inl hset.sync) ?_
    (fun _ _ => ⟨stopped_start h,stopped_early hset h.all_orig hnone rfl rfl rfl (by rintro ⟨⟩)⟩)))
  have hmark : (s.mark (some .prepare)).sync.marker = .settled (some .prepare):=rfl
  have harch : (s.mark (some .prepare)).sync.archive = .settled J.orig := by simp [World.sync,sync,h.archive]
  have hsuf : (s.mark (some .prepare)).sync.suffix=J.new:=h.suffix
  have hent : (s.mark (some .prepare)).sync.entry = .settled none:=h.entry
  have htemp : (s.mark (some .prepare)).sync.temp=s.temp:=rfl
  have hru:=hset.sync
  generalize (s.mark (some .prepare)).sync=u at *
  have hstop : ∀e g,Stopped allowed J ⟨e,{ Attempt.start with prepared:=true },g⟩ u:=fun e g =>
    stopped_early hru (by simp [harch]) (by simp [hent]) rfl rfl rfl (by rintro _ ⟨⟩)
  refine spec_bind (spec_withError (spec_beforeWrite (.inl hru) ?_ (fun _ _ => hstop _ _)))
  have hpub:=hru.publish (htemp ▸ hj)
  refine spec_bind (spec_withError (spec_io (c := .persistNoclobber) (v := fun _ => ())
    (t := fun _ => { u with entry := u.entry.push ⟨some u.temp⟩ }) (fun _ => by simp [act,hent]) (.inl hru)
    (fun _ => ⟨.inl hpub,?_⟩) (fun _ _ _ _ => hstop _ _)))
  refine spec_bind (spec_withError (spec_io (c := .statPublished) (fun _ => rfl) (.inl hpub)
    (fun _ => ⟨.inl hpub,?_⟩) (fun x hx hf _ => ?_)))
  swap
  · exact {
      inv := .inl hpub
      tail := by
        rw [harch]
        exact tail_orig
      flushed := flushed_of_some rfl
      refused := by rintro ⟨⟩
      early := fun _ => ⟨rfl,hpub,by simp [harch],.inr ⟨x,hx,hf⟩⟩
      journal := by rintro id ⟨⟩
      unlinked := by rintro ⟨⟩ }
  have hat : At J J.orig .prepare s.temp { u with entry:=(u.entry.push ⟨some u.temp⟩).sync } :=
    ⟨harch,hmark,by rw [htemp]; rfl,hj,hru.uncommitted,hsuf⟩
  refine spec_bind (spec_withError (spec_io (c := .syncParent) (fun _ => rfl) (.inl hpub)
    (fun _ => ⟨.inl hpub.syncEntry,?_⟩) (fun _ _ _ _ => ?_)))
  · exact spec_pure (.inl hpub.syncEntry) ⟨by rw [←htemp]; rfl,hat⟩
  · refine stopped_published (.inl hpub) ?_ rfl rfl rfl rfl (by rintro ⟨⟩)
    rw [harch]
    exact tail_orig

end Ratarmount.CommitJournal
