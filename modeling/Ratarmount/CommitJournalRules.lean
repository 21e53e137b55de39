import Ratarmount.CommitJournalPrograms
import Ratarmount.CommitJournalInvariant

/-!
# Rules for the calls of the commit journal

Specifications of single calls, of the locator updates and of `validate`, for every
environment whose choices `allowed` admits.
-/

namespace Ratarmount.CommitJournal
open Interruptible Fallible Durability Job

variable {allowed : Call → Choice → Prop}

def Faulty (allowed : Call → Choice → Prop) : Prop := ∃ c x, allowed c x ∧ x.fault ≠ none

/-- The journal's absence is durable, unless a directory sync can fail. -/
def Flushed (allowed : Call → Choice → Prop) (w : World) : Prop :=
  (w.entry.cur = none → w.entry.All (· = none)) ∨ ∃ x, allowed .syncParent x ∧ x.fault ≠ none

def StoresMarker (allowed : Call → Choice → Prop) : Prop :=
  ∀ x, allowed .getMarker x → x.fault ≠ some .notSupported

theorem flushed_of_some {w : World} {f : JournalFile} (h : w.entry.cur=some f) : Flushed allowed w :=
  .inl (fun hn => by rw [h] at hn; cases hn)

theorem flushed_of_all {w : World} (h : w.entry.All (·=none)) : Flushed allowed w := .inl (fun _ => h)

section Present

variable {w : World} {f : JournalFile} (h : w.entry.cur = some f) (x : Choice)
include h

theorem act_statJournal : act .statJournal x w=unlessFault x w (.ok (),w) := by simp [act,h]

theorem act_openJournal : act .openJournal x w=unlessFault x w (.ok f.id,w) := by simp only [act,h]

theorem act_readJournal {J : Job} (hj : J.IsJournal f) : act .readJournal x w=unlessFault x w (.ok J.journal,w) := by
  simp only [act,h,hj.data]
  rfl

theorem act_removeFile : act .removeFile x w=unlessFault x w (.ok (),{ w with entry := w.entry.push ⟨none⟩ }) := by
  simp [act,h]

end Present

section Calls

variable {I : World → Prop} {s : World}

theorem spec_io {c : Call} {Q : c.Value → World → Prop} {E : IoError → World → Prop}
    {v : Choice → c.Value} {t : Choice → World} (ha : ∀x,act c x s=unlessFault x s (.ok (v x),t x)) (hI : I s)
    (hok : ∀x,I (t x) ∧ Q (v x) (t x))
    (herr : ∀x,allowed c x → x.fault≠none→∀e,E e s) : Spec act allowed I Q E (io c) s := by
  refine ⟨⟨hI,fun x hx => ?_⟩⟩
  rw [ha x]
  cases hf : x.fault with
  | none =>
    rw [unlessFault,hf]
    exact hok x
  | some e =>
    rw [unlessFault,hf]
    exact ⟨hI,herr x hx (by simp [hf]) _⟩

theorem spec_look {c : Call} {Q : c.Value → World → Prop} {E : IoError → World → Prop}
    {v : Choice → c.Value} (ha : ∀x,act c x s=unlessFault x s (.ok (v x),s)) (hI : I s)
    (hok : ∀x,Q (v x) s) (herr : Faulty allowed→∀e,E e s) : Spec act allowed I Q E (io c) s :=
  spec_io ha hI (fun x => ⟨hI,hok x⟩) (fun x hx hf => herr ⟨c,x,hx,hf⟩)

theorem spec_beforeWrite {Q : Unit → World → Prop} {E : IoError → World → Prop} (hI : I s) (hok : Q () s)
    (herr : Faulty allowed→∀e,E e s) : Spec act allowed I Q E (io .beforeWrite) s :=
  spec_look (c := .beforeWrite) (fun _ => rfl) hI (fun _ => hok) herr

theorem spec_getMarker {Q : Option Phase → World → Prop} {E : IoError → World → Prop}
    (hm : StoresMarker allowed) (hI : I s) (hok : Q s.marker.cur s)
    (herr : Faulty allowed→∀e,E e s) : Spec act allowed I Q E (io .getMarker) s := by
  refine ⟨⟨hI,fun x hx => ?_⟩⟩
  simp only [act,if_neg (hm x hx)]
  cases hf : x.fault with
  | none => simpa [unlessFault,hf] using ⟨hI,hok⟩
  | some e => simpa [unlessFault,hf] using ⟨hI,herr ⟨_,x,hx,by simp [hf]⟩ _⟩

variable {Q : Unit → World → Prop} {E : IoError → World → Prop}

theorem spec_marker {p : Phase} (hI : I s) (hset : I (s.mark (some p))) (hsync : I (s.mark (some p)).sync)
    (hok : Q () (s.mark (some p)).sync) (herr : Faulty allowed→∀e,E e s ∧ E e (s.mark (some p))) :
    Spec act allowed I Q E (marker p) s := by
  refine spec_bind (spec_io (c := .setMarker p) (fun _ => rfl) hI (fun _ => ⟨hset,?_⟩)
    (fun x hx hf e => (herr ⟨_,x,hx,hf⟩ e).1))
  exact spec_io (c := .syncAll) (fun _ => rfl) hset (fun _ => ⟨hsync,hok⟩)
    (fun x hx hf e => (herr ⟨_,x,hx,hf⟩ e).2)

theorem spec_clearMarker (hm : StoresMarker allowed) (hI : I s)
    (hset : I (s.mark none)) (hsync : I (s.mark none).sync)
    (hok : Q () (s.mark none).sync) (hnone : s.marker.cur=none → Q () s)
    (herr : Faulty allowed→∀e,E e s ∧ E e (s.mark none)) : Spec act allowed I Q E clearMarker s := by
  refine spec_bind (spec_getMarker hm hI ?_ (fun hf e => (herr hf e).1))
  refine spec_onlyIf hI (fun _ => ?_) (fun hc => hnone (by simpa using hc))
  refine spec_bind (spec_io (c := .removeMarker) (fun _ => rfl) hI (fun _ => ⟨hset,?_⟩)
    (fun x hx hf e => (herr ⟨_,x,hx,hf⟩ e).1))
  exact spec_io (c := .syncAll) (fun _ => rfl) hset (fun _ => ⟨hsync,hok⟩)
    (fun x hx hf e => (herr ⟨_,x,hx,hf⟩ e).2)

theorem spec_appliedOf {forward : Bool} {len newLen : ℕ} {mtime : ℤ} {Q : Applied → World → Prop}
    (hI : I s) (hok : ∀a,Q a s) (herr : Faulty allowed→∀e,E e s) :
    Spec act allowed I Q E (appliedOf forward len mtime newLen) s :=
  spec_bind (spec_look (fun _ => rfl) hI (fun _ => spec_pure hI (hok _)) herr)

/-- A question to the caller: it changes nothing, and only an environment that can
refuse answers with an error. -/
def Asks (allowed : Call → Choice → Prop) (s : World) (p : Io Unit) : Prop :=
  Spec act allowed (· = s) (fun _ _ => True) (fun _ _ => Faulty allowed) p s

theorem Asks.spec {p : Io Unit} (h : Asks allowed s p) (hI : I s) (hok : Q () s)
    (herr : Faulty allowed→∀e,E e s) : Spec act allowed I Q E p s := by
  refine (Spec.mono h ?_ ?_).weaken (fun _ ht => ht ▸ hI)
  · rintro _ _ rfl _
    exact hok
  · rintro e _ rfl hf
    exact herr hf e

end Calls

/-! ## `validate` -/

variable {J : Job} {s : World} {f : JournalFile}

/-- The condition on the archive under which a journal is accepted. -/
def Acceptable (J : Job) (complete : Bool) (xs : Bytes) : Prop :=
  if complete then xs = J.result else J.Tail xs

theorem acceptable_iff {complete : Bool} {xs : Bytes} (hj : J.IsJournal f) (hk : Keeps J.offset J.orig xs) :
    (if complete then newMatches xs J.journal && xs.length == word J.journal 56
      else oldMatches xs J.journal || newMatches xs J.journal)=true ↔ Acceptable J complete xs := by
  have hn:=newMatches_iff (D:=J.digests) hj.fits hk.1
  have ho:=oldMatches_iff (D:=J.digests) hj.fits hk.1
  cases complete with
  | false => simp [Acceptable,Tail,journal,hn,ho]
  | true =>
    simp only [Acceptable,if_true,Bool.and_eq_true,beq_iff_eq,journal,journalBytes_newLen hj.fits,hn]
    constructor
    · rintro ⟨hp,hl⟩
      have hd:=hp.eq_of_length (by rw [List.length_drop]; omega)
      rw [←List.take_append_drop J.offset xs,hk.2,hd,result]
    · rintro rfl
      rw [drop_result hj.offset_le]
      refine ⟨List.prefix_rfl,?_⟩
      simp [result,hj.offset_le]

theorem spec_validate {complete : Bool} {expected : Option ℕ} {I : World → Prop}
    {Q : Header × Bytes → World → Prop} {E : IoError → World → Prop} (hI : I s)
    (hf : s.entry.cur=some f) (hj : J.IsJournal f) (hk : Keeps J.offset J.orig s.archive.cur)
    (hexp : expected.all (· == f.id)=true) (hok : ∀h : Header,h.pending=parsePending J.journal complete →
      (h.oldInPlace=true ↔ s.archive.cur=J.orig) → Acceptable J complete s.archive.cur → Q (h,J.journal) s)
    (herr : Faulty allowed ∨ ¬Acceptable J complete s.archive.cur→∀e,E e s) :
    Spec act allowed I Q E (validate J.digests complete expected) s := by
  have hfault : Faulty allowed→∀e,E e s:=fun h => herr (.inl h)
  have hold : oldInPlace s.archive.cur J.journal s.archive.cur.length=true ↔ s.archive.cur=J.orig :=
    oldInPlace_iff (D := J.digests) hj.fits hk.1 hk.2
  refine spec_bind (spec_look (act_statJournal hf) hI (fun _ => ?_) hfault)
  refine spec_bind (spec_look (act_openJournal hf) hI (fun _ => ?_) hfault)
  refine spec_bind (spec_ensure hI (fun _ => ?_) (fun h => ?_))
  swap
  · rw [hexp] at h
    cases h
  refine spec_bind (spec_look (fun x => act_readJournal hf x hj) hI (fun _ => ?_) hfault)
  refine spec_bind (spec_ensure hI (fun _ => ?_) (fun h => ?_))
  swap
  · rw [journal,headerOk_journalBytes hj.fits] at h
    cases h
  refine spec_bind (spec_ensure hI (fun _ => ?_) (fun h => ?_))
  swap
  · rw [journal,crcOk_journalBytes] at h
    cases h
  refine spec_bind (spec_look (fun _ => rfl) hI (fun _ => ?_) hfault)
  refine spec_bind (spec_ensure hI (fun _ => ?_) (fun h => ?_))
  swap
  · rw [journal,prefixOk_of_take_eq hj.fits hk.1 hk.2] at h
    cases h
  refine spec_bind (spec_look (fun _ => rfl) hI (fun _ => ?_) hfault)
  refine spec_bind (spec_look (fun _ => rfl) hI (fun _ => ?_) hfault)
  refine spec_bind (spec_ensure hI (fun h => ?_) (fun h => ?_))
  swap
  · refine herr (.inr (fun hacc => ?_)) _
    rw [(acceptable_iff hj hk).mpr hacc] at h
    cases h
  refine spec_bind (spec_look (fun _ => rfl) hI (fun _ => ?_) hfault)
  refine spec_pure hI (hok _ ?_ ?_ ?_)
  · rfl
  · simpa only [World.stamp] using hold
  · exact (acceptable_iff hj hk).mp h

end Ratarmount.CommitJournal
