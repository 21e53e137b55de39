import Ratarmount.CommitJournalOutcome

/-!
# Crash atomicity and honest outcomes of the commit journal

The results about whole histories: a replacement cut anywhere, followed by
recoveries cut anywhere, ends in the old or the new bytes; and what `replace`
returns under I/O faults describes the archive.
-/

namespace Ratarmount.CommitJournal
open Interruptible Fallible Durability Job Prog

/-- The calls that ask somebody else: the caller's guards, the lock. -/
def Call.asks : Call → Bool
  | .beforeWrite | .authorize _ _ | .beforeUnlink _ | .flock => true
  | _ => false

/-- Crashes and refusals, but no I/O error. -/
def CrashOnly (c : Call) (x : Choice) : Prop := c.asks = true ∨ x.fault = none

/-- Any call fails, short of two kinds of fault: a file system that stores
extended attributes does not deny doing so, and the fstat of the journal just
published succeeds. -/
def Faults (c : Call) (x : Choice) : Prop :=
  (c = .getMarker → x.fault ≠ some .notSupported) ∧ (c = .statPublished → x.fault = none)

def Quiet (_ : Call) (x : Choice) : Prop := x.fault = none

/-! ## A sample world -/

/-- Digests of the right widths that tell nothing apart. -/
def sampleDigests : Digests where
  sha256 _ := List.replicate 32 0
  crc32 _ := 0
  sha256_length _ := rfl
  crc32_lt _ := by decide

/-- The archive `[1, 2]`; the suffix `[3]` will replace its second byte. -/
def sample : World where
  archive := .settled [1,2]
  marker := .settled none
  entry := .settled none
  temp := ⟨0,.settled []⟩
  suffix := [3]
  dev := 1
  ino := 7
  committed := false

theorem sample_fresh : Fresh [1,2] [3] sample := ⟨rfl,rfl,rfl,rfl,rfl⟩

def answer (fault : Option Errno) : Choice := ⟨fault,0,0,0,0,0,9⟩

def smooth : Schedule Call Choice := fun _ _ => answer none

/-! ## Histories -/

/-- The histories that end in a crash or in a recovery that failed, and leave the
next recovery to run. -/
inductive Interrupted (D : Digests) (offset : ℕ) (original : Option Stamp) (w : World) : World → Prop
  | replaceCut {e : Schedule Call Choice} {k : ℕ} {t : World} (he : e.Admits CrashOnly)
      (hc : Crash (after act (replace D offset original).run e k w) t) :
      Interrupted D offset original w t
  | replaceReturned {e : Schedule Call Choice} (he : e.Admits CrashOnly) :
      Interrupted D offset original w (Prog.run act (replace D offset original).run e w).2
  | recoverCut {e : Schedule Call Choice} {k : ℕ} {t u : World} (h : Interrupted D offset original w t)
      (he : e.Admits CrashOnly) (hc : Crash (after act (recover D).run e k t) u) :
      Interrupted D offset original w u
  | recoverFailed {e : Schedule Call Choice} {t u : World} {x : RecoverError}
      (h : Interrupted D offset original w t) (he : e.Admits CrashOnly)
      (hr : Prog.run act (recover D).run e t = (.error x,u)) : Interrupted D offset original w u

theorem crashOnly_storesMarker : StoresMarker CrashOnly := by
  rintro x (h | h)
  · cases h
  · simp [h]

theorem crashOnly_flushed {w : World} (h : Flushed CrashOnly w) (hn : w.entry.cur=none) : w.entry.All (·=none) := by
  rcases h with h | ⟨x,hx | hx,hf⟩
  · exact h hn
  · cases hx
  · exact absurd hx hf

theorem Crash.flushed {allowed : Call → Choice → Prop} {w t : World} (h : Crash w t) : Flushed allowed t := by
  refine .inl (fun hn => ?_)
  obtain ⟨j,_,hj⟩:=h.entry
  cases j with
  | none => simp [hj]
  | some f =>
    obtain ⟨xs,_,hj⟩:=hj
    simp [hj] at hn

section Histories

variable {D : Digests} {offset : ℕ} {orig new : Bytes} {original : Option Stamp} {w t u : World}

/-- Between the runs one journal of the replacement explains the world. -/
def Resting (D : Digests) (offset : ℕ) (orig new : Bytes) (w : World) : Prop :=
  Underway D offset orig new w ∧ Flushed CrashOnly w

theorem Underway.crash (h : Underway D offset orig new w) (hc : Crash w t) : Resting D offset orig new t := by
  obtain ⟨J,hj,hi⟩:=h
  exact ⟨⟨J,hj,hi.crash hc⟩,hc.flushed⟩

theorem spec_recover_resting (h : Resting D offset orig new w) :
    ∃J : Job,J.IsFor D offset orig new ∧ Spec act CrashOnly J.Inv
      (fun _ t => Recovered J t ∧ Flushed CrashOnly t) (fun _ => Flushed CrashOnly) (recover D) w := by
  obtain ⟨⟨J,hj,hi⟩,hfl⟩:=h
  have hopen : ∀x,CrashOnly .openRead x → x.fault=none := by
    rintro x (h | h)
    · cases h
    · exact h
  refine ⟨J,hj,?_⟩
  have hspec:=spec_recover (T:=False) crashOnly_storesMarker hopen hi hfl (by rintro ⟨⟩)
  rw [hj.digests] at hspec
  exact Spec.mono hspec (fun _ _ _ hq => hq.1) (fun _ _ _ he => he.2)

theorem interrupted_resting (hsize : orig.length+new.length+(headerLen+4)<2^64)
    (hw : Fresh orig new w) (h : Interrupted D offset original w t) : Resting D offset orig new t := by
  have hspec:=@spec_replace CrashOnly w crashOnly_storesMarker D offset orig new original hw hsize
  induction h with
  | replaceCut he hc => exact (hspec.after he _).crash hc
  | @replaceReturned e he =>
    rcases hr : Prog.run act (replace D offset original).run e w with ⟨_ | _,t⟩
    · obtain ⟨_,J,hj,hi,hrep⟩:=hspec.run_error he hr
      exact ⟨⟨J,hj,hi⟩,hrep.1⟩
    · obtain ⟨hi,J,hj,hd⟩:=hspec.run_ok he hr
      exact ⟨hi,flushed_of_all hd.entry⟩
  | recoverCut _ he hc ih =>
    obtain ⟨J,hj,hrec⟩:=spec_recover_resting ih
    exact Underway.crash ⟨J,hj,hrec.after he _⟩ hc
  | recoverFailed _ he hr ih =>
    obtain ⟨J,hj,hrec⟩:=spec_recover_resting ih
    obtain ⟨hi,hfl⟩:=hrec.run_error he hr
    exact ⟨⟨J,hj,hi⟩,hfl⟩

/-- The sample's replacement after its truncation became durable. -/
def truncated : World := after act (replace sampleDigests 1 none).run smooth 40 sample

theorem truncated_crash : Crash (after act (replace sampleDigests 1 none).run smooth 40 sample) truncated := by
  change Crash truncated truncated
  have ha : truncated.archive = .settled [1] := by decide +kernel
  have hm : truncated.marker = .settled (some .active) := by decide +kernel
  have he : truncated.entry = .settled (some ⟨9,.settled
      (journalBytes sampleDigests (sample.stamp (answer none)) 1 [1,2] [3])⟩) := by decide +kernel
  have hc : truncated.committed=false := by decide +kernel
  refine ⟨⟨[1],by simp [ha],ha⟩,⟨some .active,by simp [hm],hm,by rw [hc]; rfl⟩,
    ⟨some ⟨9,.settled _⟩,?_,_,rfl,he⟩⟩
  rw [he]
  rfl

theorem sample_size : [(1 : UInt8),2].length+[(3 : UInt8)].length+(headerLen+4)<2^64 := by
  decide +kernel

theorem smooth_admits : smooth.Admits CrashOnly := fun _ _ => .inr rfl

/-- The first recovery that succeeds leaves exactly one of the two versions: the new
one if and only if a complete or done locator had become durable. Its journal is gone,
durably. -/
theorem recover_crash_atomic (hsize : orig.length + new.length + (headerLen + 4) < 2 ^ 64)
    (hw : Fresh orig new w) (h : Interrupted D offset original w t) {e : Schedule Call Choice}
    (he : e.Admits CrashOnly) {r : Option Applied} (hr : Prog.run act (recover D).run e t = (.ok r,u)) :
    ((u.archive.All (· = orig) ∧ u.committed = false) ∨
      (u.archive.All (· = orig.take offset ++ new) ∧ u.committed = true)) ∧
      u.entry.All (· = none) := by
  obtain ⟨J,hj,hrec⟩ := spec_recover_resting (interrupted_resting hsize hw h)
  obtain ⟨-,hdone,hfl⟩ := hrec.run_ok he hr
  refine ⟨?_,crashOnly_flushed hfl hdone.entry⟩
  have hver := hdone.archive
  rw [result,hj.orig,hj.offset,hj.new] at hver
  exact hver

/-- A crash over the truncated archive `[1]`: the recovery reports a rollback. -/
theorem recover_crash_atomic_truncated : truncated.archive.cur = [1] ∧ ∃ a u,
    Prog.run act (recover sampleDigests).run smooth truncated = (.ok (some a),u) ∧
      ((u.archive.All (· = [1,2]) ∧ u.committed = false) ∨
        (u.archive.All (· = [1,2].take 1 ++ [3]) ∧ u.committed = true)) ∧ u.entry.All (· = none) := by
  have hr : (Prog.run act (recover sampleDigests).run smooth truncated).1 =
      .ok (some ⟨false,2,0,2,1,7,2,0⟩) := by decide +kernel
  generalize hrun : Prog.run act (recover sampleDigests).run smooth truncated = out at hr
  obtain ⟨r,u⟩ := out
  obtain rfl : r = _ := hr
  exact ⟨by decide +kernel,_,u,rfl,recover_crash_atomic sample_size sample_fresh
    (.replaceCut smooth_admits truncated_crash) smooth_admits hrun⟩

/-! ## The outcome under I/O faults -/

/-- A recovery that nothing disturbs brings back one of the two versions. -/
def Restorable (D : Digests) (offset : ℕ) (orig new : Bytes) (t : World) : Prop :=
  ∀ e : Schedule Call Choice, e.Admits Quiet → ∃ a u,
    Prog.run act (recover D).run e t = (.ok (some a),u) ∧
      (u.archive.All (· = orig) ∨ u.archive.All (· = orig.take offset ++ new)) ∧ u.entry.All (· = none)

/-- What the value returned by `replace` says about the disk. -/
def Describes (D : Digests) (offset : ℕ) (orig new : Bytes) : Except ReplaceError Unit → World → Prop
  | .ok (), t => t.archive.All (· = orig.take offset ++ new) ∧ t.entry.All (· = none)
  | .error (.refused _), t => Fresh orig new t
  | .error (.rolledBack _ _), t => t.archive.All (· = orig) ∧ t.entry.All (· = none)
  | .error (.committed _), t => t.archive.All (· = orig.take offset ++ new)
  | .error (.pending _), t => (t.entry.cur = none ∧ t.archive.All (· = orig)) ∨
      (t.entry.cur ≠ none ∧ Restorable D offset orig new t)

theorem restorable_of_tail {J : Job} (hj : J.IsFor D offset orig new) (hi : J.Inv t)
    (ht : J.Tail t.archive.cur) (he : t.entry.cur≠none) : Restorable D offset orig new t := by
  intro e hq
  have hfl : Flushed Quiet t:=.inl (fun hn => absurd hn he)
  have hstores : StoresMarker Quiet := by
    intro x hx
    rw [show x.fault=none from hx]
    simp
  have hspec:=spec_recover (T:=True) hstores (fun _ hx => hx) hi hfl (fun _ _ => ht)
  rw [hj.digests] at hspec
  rcases hr : Prog.run act (recover D).run e t with ⟨x | r,u⟩
  · obtain ⟨-,hfail,-⟩:=hspec.run_error hq hr
    rcases hfail with ⟨c,y,hy,hf⟩ | h | h
    · exact absurd hy hf
    · exact absurd trivial h
    · exact absurd h he
  · obtain ⟨-,⟨hrec,hflu⟩,hsome⟩:=hspec.run_ok hq hr
    obtain ⟨a,rfl⟩:=Option.isSome_iff_exists.mp (hsome he)
    refine ⟨a,u,rfl,?_,?_⟩
    · have hver:=hrec.archive
      rw [result,hj.orig,hj.offset,hj.new] at hver
      rcases hver with h | h
      · exact .inl h.1
      · exact .inr h.1
    · rcases hflu with h | ⟨y,hy,hf⟩
      · exact h hrec.entry
      · exact absurd hy hf

def guardTurns (n : ℕ) : Schedule Call Choice := fun k c =>
  if c = .beforeWrite ∧ n ≤ k then answer (some .other) else answer none

theorem guardTurns_admits (n : ℕ) : (guardTurns n).Admits Faults := by
  intro k c
  unfold guardTurns
  split
  · next h =>
    rw [h.1]
    exact ⟨by rintro ⟨⟩,by rintro ⟨⟩⟩
  · exact ⟨fun _ => by simp [answer],fun _ => rfl⟩

/-- Whatever fails, in the attempt or in its clean-up, the returned value describes
the disk. -/
theorem replace_outcome_honest (hsize : orig.length + new.length + (headerLen + 4) < 2 ^ 64)
    (hw : Fresh orig new w) {e : Schedule Call Choice} (he : e.Admits Faults) :
    Describes D offset orig new (Prog.run act (replace D offset original).run e w).1
      (Prog.run act (replace D offset original).run e w).2 := by
  have hstores : StoresMarker Faults := fun x hx => hx.1 rfl
  have hid : ¬ LosesIdentity Faults := by
    rintro ⟨x,hx,hf⟩
    exact hf (hx.2 rfl)
  have hspec := @spec_replace Faults w hstores D offset orig new original hw hsize
  rcases hr : Prog.run act (replace D offset original).run e w with ⟨x | _,t⟩
  · obtain ⟨-,J,hj,hi,-,hon⟩ := hspec.run_error he hr
    have hres : J.result = orig.take offset ++ new := by rw [result,hj.orig,hj.offset,hj.new]
    cases x with
    | refused _ => simpa [Describes,Honest,hj.orig,hj.new] using hon
    | rolledBack _ _ =>
      obtain ⟨ha,hn | hn⟩ := hon
      · exact ⟨hj.orig ▸ ha,hn⟩
      · exact absurd hn hid
    | committed _ => simpa [Describes,Honest,hres] using hon
    | pending _ =>
      obtain ⟨ht,habs⟩ := hon
      by_cases hc : t.entry.cur = none
      · exact .inl ⟨hc,hj.orig ▸ habs hc⟩
      · exact .inr ⟨hc,restorable_of_tail hj hi ht hc⟩
  · obtain ⟨-,J,hj,hd⟩ := hspec.run_ok he hr
    refine ⟨?_,hd.entry⟩
    have ha := hd.archive
    rwa [result,hj.orig,hj.offset,hj.new] at ha

/-- The guard turns while the suffix is copied: the journal stays and restores. -/
theorem replace_outcome_honest_pending :
    (Prog.run act (replace sampleDigests 1 none).run (guardTurns 40) sample).1 =
        .error (.pending (.os .other)) ∧
      Describes sampleDigests 1 [1,2] [3]
        (Prog.run act (replace sampleDigests 1 none).run (guardTurns 40) sample).1
        (Prog.run act (replace sampleDigests 1 none).run (guardTurns 40) sample).2 :=
  ⟨by decide +kernel,@replace_outcome_honest sampleDigests 1 [1,2] [3] none sample sample_size sample_fresh
    (guardTurns 40) (guardTurns_admits 40)⟩

/-- The guard turns right after the first locator: the attempt is reported as pending
though no journal was ever published. -/
theorem replace_pending_without_journal :
    (Prog.run act (replace sampleDigests 1 none).run (guardTurns 29) sample).1 =
        .error (.pending (.os .other)) ∧
      (Prog.run act (replace sampleDigests 1 none).run (guardTurns 29) sample).2.entry.cur = none := by
  decide +kernel

end Histories

end Ratarmount.CommitJournal
