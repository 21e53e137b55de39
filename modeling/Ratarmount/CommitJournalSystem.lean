import Ratarmount.InterruptiblePrograms
import Ratarmount.DurableObjects
import Ratarmount.CommitJournalFormat

/-!
# The durable state of a journaled replacement and the calls on it

Three objects outlive a crash: the archive's bytes, the locator in its extended
attribute and the directory entry of the sibling journal. Each call of
`commit_journal.rs` reads or updates one of them; the environment decides whether
it fails, how many bytes a write takes and which times the file system stamps.
-/

namespace Ratarmount.CommitJournal
open Interruptible Durability

/-- The state byte of the locator: `P`, `A`, `C`, `D`. -/
inductive Phase where
  | prepare
  | active
  | complete
  | done
  deriving DecidableEq, Repr

def rollsForward : Option Phase → Bool
  | some .complete => true
  | some .done => true
  | _ => false

/-- A journal file; `id` stands for its device and inode. -/
structure JournalFile where
  id : ℕ
  data : File
  deriving DecidableEq, Repr

structure World where
  archive : File
  marker : Durable (Option Phase) (Assign (Option Phase))
  /-- The entry at `journal_path`. -/
  entry : Durable (Option JournalFile) (Assign (Option JournalFile))
  /-- The `NamedTempFile` of the running attempt. -/
  temp : JournalFile
  suffix : Bytes
  dev : UInt64
  ino : UInt64
  /-- A complete or done locator has become durable; no call reads this. -/
  committed : Bool
  deriving DecidableEq, Repr

inductive Errno where
  | notFound
  | notADirectory
  | permissionDenied
  | notPermitted
  | notSupported
  | other
  deriving DecidableEq, Repr

inductive IoError where
  | os (e : Errno)
  | message (text : String)
  | joined (first second : IoError)
  deriving DecidableEq, Repr

structure Applied where
  rolledForward : Bool
  preLen : ℕ
  preMtimeNs : ℤ
  newLen : ℕ
  dev : UInt64
  ino : UInt64
  finalLen : ℕ
  finalMtimeNs : ℤ
  deriving DecidableEq, Repr

inductive Call where
  | beforeWrite
  | authorize (journal : PendingJournal) (file : Stamp)
  | beforeUnlink (applied : Applied)
  | canonicalize
  | openRead
  | openReadWrite
  | flock
  | fstat
  | readArchive
  | setLen (n : ℕ)
  | write (pos : ℕ) (bs : Bytes)
  | setTimes (seconds nanos : ℕ)
  | syncAll
  | getMarker
  | setMarker (state : Phase)
  | removeMarker
  | suffixLen
  | readSuffix (pos len : ℕ)
  | tempCreate
  | tempWrite (bs : Bytes)
  | tempRead
  | tempSync
  | persistNoclobber
  | statPublished
  | journalExists
  | statJournal
  | openJournal
  | readJournal
  | removeFile
  | syncParent
  deriving DecidableEq

abbrev Call.Value : Call → Type
  | .fstat => Stamp
  | .readArchive | .readSuffix _ _ | .tempRead | .readJournal => Bytes
  | .write _ _ => ℕ
  | .getMarker => Option Phase
  | .suffixLen | .statPublished | .openJournal => ℕ
  | .journalExists => Bool
  | _ => Unit

abbrev Answer (c : Call) : Type := Except IoError c.Value

structure Choice where
  fault : Option Errno
  /-- Bytes that a write takes, or leaves behind when it fails. -/
  amount : ℕ
  mtime : UInt64
  mtimeNsec : Fin 1000000000
  ctime : UInt64
  ctimeNsec : Fin 1000000000
  /-- Identity of a newly created file. -/
  fresh : ℕ
  deriving DecidableEq, Repr

namespace World

def stamp (w : World) (x : Choice) : Stamp where
  dev := w.dev
  ino := w.ino
  len := w.archive.cur.length
  mtime := x.mtime
  mtimeNsec := x.mtimeNsec
  ctime := x.ctime
  ctimeNsec := x.ctimeNsec

/-- `fsync` of the archive makes its bytes and its attribute durable. -/
def sync (w : World) : World :=
  { w with
    archive := w.archive.sync
    marker := w.marker.sync
    committed := w.committed || rollsForward w.marker.cur }

end World

def unlessFault {c : Call} (x : Choice) (w : World) (ok : Answer c × World) : Answer c × World :=
  match x.fault with
  | some e => (.error (.os e),w)
  | none => ok

/-- A `write(2)` takes at least one byte of a nonempty buffer, and not always all. -/
def takenBytes (x : Choice) (bs : Bytes) : ℕ := min (x.amount + 1) bs.length

def act : (c : Call) → Choice → World → Answer c × World
  | .beforeWrite, x, w | .authorize _ _, x, w | .beforeUnlink _, x, w | .canonicalize, x, w
  | .openRead, x, w | .openReadWrite, x, w | .flock, x, w | .setTimes _ _, x, w =>
    unlessFault x w (.ok (),w)
  | .fstat, x, w => unlessFault x w (.ok (w.stamp x),w)
  | .readArchive, x, w => unlessFault x w (.ok w.archive.cur,w)
  | .setLen n, x, w => unlessFault x w (.ok (),{ w with archive := w.archive.push (.setLen n) })
  | .write pos bs, x, w =>
    match x.fault with
    | some e =>
      (.error (.os e),{ w with archive := w.archive.push (.write pos (bs.take x.amount)) })
    | none =>
      (.ok (takenBytes x bs),
        { w with archive := w.archive.push (.write pos (bs.take (takenBytes x bs))) })
  | .syncAll, x, w => unlessFault x w (.ok (),w.sync)
  | .getMarker, x, w =>
    -- a file system without extended attributes has no locator
    if x.fault = some .notSupported then (.ok none,w) else unlessFault x w (.ok w.marker.cur,w)
  | .setMarker p, x, w => unlessFault x w (.ok (),{ w with marker := w.marker.push ⟨some p⟩ })
  | .removeMarker, x, w => unlessFault x w (.ok (),{ w with marker := w.marker.push ⟨none⟩ })
  | .suffixLen, x, w => unlessFault x w (.ok w.suffix.length,w)
  | .readSuffix pos len, x, w => unlessFault x w (.ok (w.suffix.slice pos len),w)
  | .tempCreate, x, w => unlessFault x w (.ok (),{ w with temp := ⟨x.fresh,.settled []⟩ })
  | .tempWrite bs, x, w =>
    unlessFault x w
      (.ok (),{ w with temp.data := w.temp.data.push (.write w.temp.data.cur.length bs) })
  | .tempRead, x, w => unlessFault x w (.ok w.temp.data.cur,w)
  | .tempSync, x, w => unlessFault x w (.ok (),{ w with temp.data := w.temp.data.sync })
  | .persistNoclobber, x, w =>
    if w.entry.cur.isSome then (.error (.os .other),w)
    else unlessFault x w (.ok (),{ w with entry := w.entry.push ⟨some w.temp⟩ })
  | .statPublished, x, w => unlessFault x w (.ok w.temp.id,w)
  | .journalExists, x, w => unlessFault x w (.ok w.entry.cur.isSome,w)
  | .statJournal, x, w =>
    if w.entry.cur.isSome then unlessFault x w (.ok (),w) else (.error (.os .notFound),w)
  | .openJournal, x, w =>
    match w.entry.cur with
    | some j => unlessFault x w (.ok j.id,w)
    | none => (.error (.os .notFound),w)
  | .readJournal, x, w =>
    match w.entry.cur with
    | some j => unlessFault x w (.ok j.data.cur,w)
    | none => (.error (.os .notFound),w)
  | .removeFile, x, w =>
    if w.entry.cur.isSome then unlessFault x w (.ok (),{ w with entry := w.entry.push ⟨none⟩ })
    else (.error (.os .notFound),w)
  | .syncParent, x, w => unlessFault x w (.ok (),{ w with entry := w.entry.sync })

/-- No call changes the inode. -/
theorem act_ino (c : Call) (x : Choice) (w : World) : (act c x w).2.ino=w.ino := by
  have hu : ∀(c : Call) (ok : Answer c × World),ok.2.ino=w.ino→(unlessFault x w ok).2.ino=w.ino := by
    intro c ok hok
    unfold unlessFault
    split
    · rfl
    · exact hok
  cases c with
  | write pos bs =>
    simp only [act]
    split <;> rfl
  | getMarker | persistNoclobber | statJournal | removeFile =>
    simp only [act]
    split
    · first | rfl | exact hu _ _ rfl
    · first | rfl | exact hu _ _ rfl
  | openJournal | readJournal =>
    simp only [act]
    split
    · exact hu _ _ rfl
    · rfl
  | _ => exact hu _ _ rfl

/-- What a crash leaves: each object is one of its images, independently. The
temporary file of a crashed attempt is never at the journal's path. -/
structure Crash (w t : World) : Prop where
  archive : ∃ xs, w.archive.Image xs ∧ t.archive = .settled xs
  marker : ∃ m, w.marker.Image m ∧ t.marker = .settled m ∧
    t.committed = (w.committed || rollsForward m)
  entry : ∃ j, w.entry.Image j ∧ (match j with
    | none => t.entry = .settled none
    | some f => ∃ xs, f.data.Image xs ∧ t.entry = .settled (some ⟨f.id,.settled xs⟩))

end Ratarmount.CommitJournal
