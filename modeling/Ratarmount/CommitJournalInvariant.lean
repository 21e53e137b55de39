import Ratarmount.CommitJournalSystem

/-!
# The invariant of a journaled replacement

A world is `Rolling` while no locator that rolls forward can be found in it: the
prefix is intact everywhere and, where the journal can be missing, the archive is
the original. It is `Landed` once such a locator has been installed: the archive is
the result. Both are statements about every image that a crash can leave, so one of
them holds again after a crash.
-/

namespace Ratarmount.CommitJournal
open Durability List Durable

/-- The world with the locator set, or removed, and not yet synced. -/
abbrev World.mark (w : World) (m : Option Phase) : World := { w with marker := w.marker.push ⟨m⟩ }

/-- One replacement: what is replaced and what the journal will say about it. -/
structure Job where
  digests : Digests
  stamp : Stamp
  offset : ℕ
  orig : Bytes
  new : Bytes
  len_eq : stamp.len = orig.length
  size_lt : orig.length + new.length + (headerLen + 4) < 2 ^ 64

namespace Job

variable (J : Job)

def result : Bytes := J.orig.take J.offset ++ J.new

def journal : Bytes := journalBytes J.digests J.stamp J.offset J.orig J.new

/-- The durable journal of this replacement. One exists only if the cut lies in the
archive. -/
structure IsJournal (f : JournalFile) : Prop where
  offset_le : J.offset ≤ J.orig.length
  data : f.data = .settled J.journal

/-- The archive is untouched, or its preserved prefix is. -/
def Kept (xs : Bytes) : Prop := xs = J.orig ∨ Keeps J.offset J.orig xs

/-- Past the prefix there is a part of the old tail or of the new one. -/
def Tail (xs : Bytes) : Prop := xs.drop J.offset <+: J.orig.drop J.offset ∨ xs.drop J.offset <+: J.new

structure Rolling (w : World) : Prop where
  uncommitted : w.committed = false
  marker : w.marker.All (fun m => rollsForward m = false)
  archive : w.archive.All J.Kept
  entry : w.entry.All (fun j => ∀ f, j = some f → J.IsJournal f)
  absent : w.entry.Image none → w.archive.All (· = J.orig) ∧ w.marker.All (· ≠ some .active)

structure Landed (w : World) : Prop where
  archive : w.archive.All (· = J.result)
  entry : w.entry.All (fun j => ∀ f, j = some f → J.IsJournal f)
  marker_cur : rollsForward w.marker.cur = true ∨ w.marker.cur = none
  cleared : w.marker.Image none → w.committed = true ∧ w.entry.All (· = none)
  unsynced : ∀ p, w.marker.Image (some p) → rollsForward (some p) = false →
    w.committed = false ∧ w.entry.All (· ≠ none)
  gone : w.entry.Image none → w.committed = true

/-- The invariant: it survives every call and every crash. -/
def Inv (w : World) : Prop := J.Rolling w ∨ J.Landed w

variable {J} {w t : World}

theorem IsJournal.fits {f : JournalFile} (h : J.IsJournal f) : Fits J.stamp J.offset J.orig J.new :=
  ⟨J.len_eq,h.offset_le,J.size_lt⟩

theorem Kept.keeps {xs : Bytes} (h : J.Kept xs) (ho : J.offset≤J.orig.length) : Keeps J.offset J.orig xs := by
  rcases h with rfl | h
  · exact Keeps.refl ho
  · exact h

theorem kept_result (ho : J.offset≤J.orig.length) : J.Kept J.result := .inr (Keeps.append ho)

theorem drop_result (ho : J.offset≤J.orig.length) : J.result.drop J.offset=J.new := by
  rw [result,drop_append_of_le_length (by simp [ho])]
  simp

theorem Tail.shorten {xs ys : Bytes} (h : J.Tail ys) (hp : xs <+: ys) : J.Tail xs := by
  obtain ⟨zs,rfl⟩:=hp
  have hd : xs.drop J.offset <+: (xs++zs).drop J.offset := by
    rw [drop_append]
    exact prefix_append _ _
  rcases h with h | h
  · exact .inl (hd.trans h)
  · exact .inr (hd.trans h)

theorem tail_orig : J.Tail J.orig := .inl prefix_rfl

theorem tail_result (ho : J.offset≤J.orig.length) : J.Tail J.result := by
  rw [Tail,drop_result ho]
  exact .inr prefix_rfl

/-- A crash leaves the journal that was there, or none. -/
theorem entry_of_crash (h : w.entry.All fun j => ∀f,j=some f → J.IsJournal f) (hc : Crash w t) :
    t.entry.All fun j => ∀f,j=some f → J.IsJournal f := by
  obtain ⟨j,hj,hte⟩:=hc.entry
  cases j with
  | none => simp [hte]
  | some f =>
    obtain ⟨ys,hys,hte⟩:=hte
    have hf:=h _ hj f rfl
    have hys' : ys=J.journal := by simpa [hf.data] using hys
    subst hys'
    rw [hte,all_settled]
    rintro g ⟨⟩
    exact ⟨hf.offset_le,rfl⟩

/-! ## What each update preserves while rolling -/

namespace Rolling

variable (h : J.Rolling w)
include h

theorem sync : J.Rolling w.sync where
  uncommitted := by simp [World.sync,h.uncommitted,h.marker.cur]
  marker := h.marker.sync
  archive := h.archive.sync
  entry := h.entry
  absent hn := ⟨(h.absent hn).1.sync,(h.absent hn).2.sync⟩

theorem setMarker {m : Option Phase} (hm : rollsForward m=false) (ha : m=some .active→¬w.entry.Image none) :
    J.Rolling (w.mark m) where
  uncommitted := h.uncommitted
  marker := h.marker.assign hm
  archive := h.archive
  entry := h.entry
  absent hn := ⟨(h.absent hn).1,(h.absent hn).2.assign (fun e => ha e hn)⟩

/-- The archive is written only while the journal is certain to be found. -/
theorem update {u : FileUpdate} (hu : u.Above J.offset) (hn : ¬w.entry.Image none)
    (ho : J.offset≤J.orig.length) : J.Rolling { w with archive := w.archive.push u } where
  uncommitted := h.uncommitted
  marker := h.marker
  archive := ((h.archive.mono (fun _ hx => hx.keeps ho)).keeps hu).mono (fun _ hx => .inr hx)
  entry := h.entry
  absent hn' := absurd hn' hn

theorem publish {f : JournalFile} (hf : J.IsJournal f) : J.Rolling { w with entry := w.entry.push ⟨some f⟩ } where
  uncommitted := h.uncommitted
  marker := h.marker
  archive := h.archive
  entry := h.entry.assign (by rintro g ⟨⟩; exact hf)
  absent hn := h.absent (by
    rcases image_assign.mp hn with hn | hn
    · exact hn
    · cases hn)

theorem unlink (ha : w.archive.All (·=J.orig)) (hm : w.marker.All (·≠some .active)) :
    J.Rolling { w with entry := w.entry.push ⟨none⟩ } where
  uncommitted := h.uncommitted
  marker := h.marker
  archive := h.archive
  entry := h.entry.assign (by rintro f ⟨⟩)
  absent _ := ⟨ha,hm⟩

theorem syncEntry : J.Rolling { w with entry := w.entry.sync } where
  uncommitted := h.uncommitted
  marker := h.marker
  archive := h.archive
  entry := h.entry.sync
  absent hn := h.absent (by
    have hc : none=w.entry.cur:=hn
    exact hc ▸ w.entry.image_cur)

/-- A crash cannot make a locator roll forward that none of the images does. -/
theorem crash (hc : Crash w t) : J.Rolling t := by
  obtain ⟨xs,hxs,hta⟩:=hc.archive
  obtain ⟨m,hm,htm,htc⟩:=hc.marker
  obtain ⟨j,hj,hte⟩:=hc.entry
  have hm':=h.marker m hm
  refine ⟨by simp [htc,h.uncommitted,hm'],?_,?_,entry_of_crash h.entry hc,?_⟩
  · simpa [htm] using hm'
  · simpa [hta] using h.archive xs hxs
  · intro hn
    cases j with
    | some f =>
      obtain ⟨ys,_,hte⟩:=hte
      simp [hte] at hn
    | none =>
      have hcase:=h.absent hj
      refine ⟨?_,?_⟩
      · simpa [hta] using hcase.1 xs hxs
      · simpa [htm] using hcase.2 m hm

end Rolling

/-- Installing the first locator that rolls forward. -/
theorem Rolling.land {p : Phase} (h : J.Rolling w) (hp : rollsForward (some p)=true)
    (ha : w.archive.All (·=J.result)) (he : w.entry.All (·≠none)) (hm : w.marker.All (·≠none)) :
    J.Landed (w.mark (some p)) where
  archive := ha
  entry := h.entry
  marker_cur := .inl hp
  cleared hn := by
    rcases image_assign.mp hn with hn | hn
    · exact absurd rfl (hm none hn)
    · cases hn
  unsynced _ _ _ := ⟨h.uncommitted,he⟩
  gone hn := absurd rfl (he none hn)

/-! ## What each update preserves once landed -/

namespace Landed

variable (h : J.Landed w)
include h

theorem sync : J.Landed w.sync where
  archive := h.archive.sync
  entry := h.entry
  marker_cur := h.marker_cur
  cleared hn := by
    have hc:=Eq.symm hn
    have := h.cleared (hc ▸ w.marker.image_cur)
    exact ⟨by simp [World.sync,this.1],this.2⟩
  unsynced p hi hf := by
    have hc : w.marker.cur=some p:=Eq.symm hi
    rcases h.marker_cur with hcur | hcur
    · rw [hc,hf] at hcur
      cases hcur
    · rw [hc] at hcur
      cases hcur
  gone hn := by simp [World.sync,h.gone hn]

theorem committed_sync (hm : w.marker.cur≠none) : w.sync.committed=true := by
  rcases h.marker_cur with hc | hc
  · simp [World.sync,hc]
  · exact absurd hc hm

theorem setMarker {p : Phase} (hp : rollsForward (some p)=true) : J.Landed (w.mark (some p)) where
  archive := h.archive
  entry := h.entry
  marker_cur := .inl hp
  cleared hn := by
    rcases image_assign.mp hn with hn | hn
    · exact h.cleared hn
    · cases hn
  unsynced q hi hf := by
    rcases image_assign.mp hi with hi | hi
    · exact h.unsynced q hi hf
    · rw [hi,hp] at hf
      cases hf
  gone := h.gone

theorem removeMarker (hc : w.committed=true) (he : w.entry.All (·=none)) : J.Landed (w.mark none) where
  archive := h.archive
  entry := h.entry
  marker_cur := .inr rfl
  cleared _ := ⟨hc,he⟩
  unsynced q hi hf := by
    rcases image_assign.mp hi with hi | hi
    · exact h.unsynced q hi hf
    · cases hi
  gone := h.gone

theorem unlink (hc : w.committed=true) : J.Landed { w with entry := w.entry.push ⟨none⟩ } where
  archive := h.archive
  entry := h.entry.assign (by rintro f ⟨⟩)
  marker_cur := h.marker_cur
  cleared hn := ⟨hc,(h.cleared hn).2.assign rfl⟩
  unsynced q hi hf := by
    have := (h.unsynced q hi hf).1
    rw [hc] at this
    cases this
  gone _ := hc

theorem syncEntry : J.Landed { w with entry := w.entry.sync } where
  archive := h.archive
  entry := h.entry.sync
  marker_cur := h.marker_cur
  cleared hn := ⟨(h.cleared hn).1,(h.cleared hn).2.sync⟩
  unsynced q hi hf := ⟨(h.unsynced q hi hf).1,(h.unsynced q hi hf).2.sync⟩
  gone hn := h.gone (by
    have hc : none=w.entry.cur:=hn
    exact hc ▸ w.entry.image_cur)

/-- A crash takes the commit back only while it is not durable. -/
theorem crash (hc : Crash w t) : J.Inv t := by
  obtain ⟨xs,hxs,hta⟩:=hc.archive
  obtain ⟨m,hm,htm,htc⟩:=hc.marker
  obtain ⟨j,hj,hte⟩:=hc.entry
  have hx:=h.archive xs hxs
  have hentry:=entry_of_crash h.entry hc
  have harch : t.archive.All (·=J.result) := by simp [hta,hx]
  by_cases hf : rollsForward m=true
  · have hcom : t.committed=true := by simp [htc,hf]
    refine .inr ⟨harch,hentry,.inl (by simp [htm,hf]),?_,?_,fun _ => hcom⟩
    · intro hn
      have hmn : none=m := by simpa [htm] using hn
      subst hmn
      cases hf
    · intro p hp hpf
      have hmp : some p=m := by simpa [htm] using hp
      rw [hmp,hf] at hpf
      cases hpf
  · have hf' : rollsForward m=false := by simpa using hf
    cases m with
    | none =>
      obtain ⟨hcom,hnone⟩:=h.cleared hm
      have hjn : j=none:=hnone j hj
      subst hjn
      refine .inr ⟨harch,hentry,.inr (by simp [htm]),fun _ => ⟨by simp [htc,hcom],by simp [hte]⟩,?_,
        fun _ => by simp [htc,hcom]⟩
      intro p hp
      simp [htm] at hp
    | some p =>
      obtain ⟨hcom,hsome⟩:=h.unsynced p hm hf'
      cases j with
      | none => exact absurd rfl (hsome none hj)
      | some f =>
        obtain ⟨ys,_,hte⟩:=hte
        have ho:=(h.entry _ hj f rfl).offset_le
        refine .inl ⟨by simp [htc,hcom,hf'],by simp [htm,hf'],?_,hentry,?_⟩
        · exact harch.mono (fun _ hy => hy ▸ kept_result ho)
        · intro hn
          simp [hte] at hn

end Landed

theorem Inv.crash (h : J.Inv w) (hc : Crash w t) : J.Inv t := by
  rcases h with h | h
  · exact .inl (h.crash hc)
  · exact h.crash hc

/-- A visible locator that rolls forward means that the result is in place. -/
theorem Inv.landed (h : J.Inv w) (hm : rollsForward w.marker.cur=true) : J.Landed w := by
  rcases h with h | h
  · rw [h.marker.cur] at hm
    cases hm
  · exact h

/-- A visible journal without such a locator is one to roll back. -/
theorem Inv.rolling (h : J.Inv w) (hm : rollsForward w.marker.cur=false) (he : w.entry.cur≠none) : J.Rolling w := by
  rcases h with h | h
  · exact h
  · rcases h.marker_cur with hc | hc
    · rw [hm] at hc
      cases hc
    · exact absurd (h.cleared (hc ▸ w.marker.image_cur)).2.cur he

end Job

end Ratarmount.CommitJournal
