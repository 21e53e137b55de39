import Ratarmount.CommitJournalSystem

/-!
# `replace`, its clean-up and `recover`

The functions of `commit_journal.rs` as programs over the calls of the system.
The fault and death seams of its tests are absent, as in a production build, and
the archive keeps the one name it was opened by, so the locator's path is always
the sibling journal.
-/

namespace Ratarmount.CommitJournal
open Interruptible Fallible

abbrev Io (α : Type) := Fallible Call Answer IoError α

def io (c : Call) : Io c.Value := ExceptT.mk (Prog.perform c)

variable (D : Digests)

/-! ## Locator -/

def marker (state : Phase) : Io Unit := do
  io (.setMarker state)
  io .syncAll

def clearMarker : Io Unit := do
  let present ← io .getMarker
  onlyIf present.isSome do
    io .removeMarker
    io .syncAll

/-- A parent directory that no longer exists has nothing to sync. -/
def syncParentIfPresent : Io Unit := do
  match ← attempt (io .syncParent) with
  | .error (.os .notFound) => pure ()
  | .error e => throw e
  | .ok () => pure ()

/-! ## Bytes -/

/-- `write_all`: the writes that a buffer takes; each takes at least one byte. -/
def writeAll : ℕ → ℕ → Bytes → Io Unit
  | 0, _, _ => pure ()
  | fuel + 1, pos, bs =>
    if bs.isEmpty then pure ()
    else do
      let n ← io (.write pos bs)
      writeAll fuel (pos + n) (bs.drop n)

/-- The copy loop of `run`: 64 KiB of the suffix at a time until a read is empty. -/
def copySuffix : ℕ → ℕ → ℕ → Io Unit
  | 0, _, _ => pure ()
  | fuel + 1, pos, done => do
    let buf ← io (.readSuffix done 65536)
    if buf.isEmpty then pure ()
    else do
      writeAll buf.length pos buf
      copySuffix fuel (pos + buf.length) (done + buf.length)

def writeJournal : List Bytes → Io Unit
  | [] => pure ()
  | bs :: rest => do
    io (.tempWrite bs)
    writeJournal rest

def shortCopy : IoError := .message "short archive or suffix while journaling"

/-- `copy_exact` once its source is read: a short source is an error. -/
def copyExact (source : Bytes) (len : ℕ) (sink : Bytes → Io Unit) : Io Unit := do
  sink (source.take len)
  ensure (len ≤ source.length) shortCopy

def appliedOf (rolledForward : Bool) (preLen : ℕ) (preMtimeNs : ℤ) (newLen : ℕ) : Io Applied := do
  let now ← io .fstat
  pure {
    rolledForward, preLen, preMtimeNs, newLen
    dev := now.dev
    ino := now.ino
    finalLen := now.len
    finalMtimeNs := mtimeNs now.mtime.toNat now.mtimeNsec }

/-! ## The replacement -/

/-- What the attempt did, each field set right after its step returned. -/
structure Attempt where
  published : Option ℕ
  prepared : Bool
  completed : Bool
  unlinked : Bool
  synced : Bool
  deriving DecidableEq, Repr

def Attempt.start : Attempt := ⟨none,false,false,false,false⟩

/-- An error of `run` with the record of the attempt at that point, and whether the
write guard returned it. -/
structure Stop where
  error : IoError
  attempt : Attempt
  guardRefused : Bool
  deriving DecidableEq, Repr

def step {α : Type} (a : Attempt) (p : Io α) : Fallible Call Answer Stop α := withError (⟨·,a,false⟩) p

def guarded (a : Attempt) : Fallible Call Answer Stop Unit :=
  withError (⟨·,a,true⟩) (io .beforeWrite)

/-- `run` up to the synced temporary journal; returns the new length. -/
def buildJournal (offset : ℕ) (stamp : Stamp) : Io ℕ := do
  ensure (offset ≤ stamp.len) (.message "append offset past archive EOF")
  let suffixLen ← io .suffixLen
  ensure (offset + suffixLen < 2 ^ 64) (.message "suffix length overflow")
  let kept ← io .readArchive
  io .tempCreate
  writeJournal (magic :: (headerValues stamp offset (offset + suffixLen)).map (Bytes.le 8))
  io (.tempWrite (fingerprint D kept offset))
  let old ← io .readArchive
  copyExact (old.drop offset) (stamp.len - offset) (fun bs => io (.tempWrite bs))
  let new ← io (.readSuffix 0 suffixLen)
  copyExact new suffixLen (fun bs => io (.tempWrite bs))
  let body ← io .tempRead
  io (.tempWrite (Bytes.le 4 (D.crc32 body)))
  io .tempSync
  pure (offset + suffixLen)

/-- `run` from the locator `P` to the published journal. -/
def publish : Fallible Call Answer Stop Attempt := do
  guarded .start
  step .start (marker .prepare)
  let a : Attempt := { Attempt.start with prepared := true }
  guarded a
  step a (io .persistNoclobber)
  let id ← step a (io .statPublished)
  let a : Attempt := { a with published := some id }
  step a (io .syncParent)
  pure a

def activate (a : Attempt) : Fallible Call Answer Stop Unit := do
  guarded a
  step a (marker .active)

def truncate (offset : ℕ) (a : Attempt) : Fallible Call Answer Stop Unit := do
  guarded a
  step a (io (.setLen offset))
  step a (io .syncAll)

def fill (offset newLen : ℕ) (a : Attempt) : Fallible Call Answer Stop Unit := do
  guarded a
  step a (copySuffix (newLen - offset + 1) offset 0)
  step a (io .syncAll)

/-- `run` from the locator `A` to the locator `C`. -/
def overwrite (offset newLen : ℕ) (a : Attempt) : Fallible Call Answer Stop Attempt := do
  activate a
  truncate offset a
  fill offset newLen a
  guarded a
  step a (marker .complete)
  pure { a with completed := true }

/-- `run` from the hook to the cleared locator. -/
def retire (stamp : Stamp) (newLen : ℕ) (a : Attempt) : Fallible Call Answer Stop Unit := do
  let applied ← step a (appliedOf true stamp.len (mtimeNs stamp.mtime.toNat stamp.mtimeNsec) newLen)
  step a (io (.beforeUnlink applied))
  guarded a
  step a (marker .done)
  guarded a
  step a (io .removeFile)
  let a : Attempt := { a with unlinked := true }
  step a (io .syncParent)
  let a : Attempt := { a with synced := true }
  guarded a
  step a clearMarker

def run (offset : ℕ) (stamp : Stamp) : Fallible Call Answer Stop Unit := do
  let newLen ← step .start (buildJournal D offset stamp)
  let a ← publish
  let a ← overwrite offset newLen a
  retire stamp newLen a

/-! ## Recovery -/

inductive RecoverError where
  | refused (e : IoError)
  | journal (e : IoError)
  | committed (e : IoError)
  deriving DecidableEq, Repr

/-- `validate`; returns the header and the journal it was read from. -/
def validate (complete : Bool) (expected : Option ℕ) : Io (Header × Bytes) := do
  io .statJournal
  let opened ← io .openJournal
  ensure (expected.all (· == opened))
    (.message "commit journal is not the journal this attempt published")
  let journal ← io .readJournal
  ensure (headerOk journal) (.message "journal header/length mismatch")
  ensure (crcOk D journal) (.message "journal CRC mismatch")
  let file ← io .readArchive
  ensure (prefixOk D file journal) (.message "archive prefix fingerprint mismatch")
  let file ← io .readArchive
  let new := newMatches file journal
  let file ← io .readArchive
  let old := oldMatches file journal
  ensure (if complete then new && file.length == word journal 56 else old || new)
    (.message "archive tail fingerprint mismatch (external modification)")
  let now ← io .fstat
  pure ({ pending := parsePending journal complete
          seconds := word journal 40
          nanos := word journal 48
          oldInPlace := oldInPlace file journal now.len },journal)

/-- `EPERM` is what a writer who does not own the file gets. -/
def restoreMtime (seconds nanos : ℕ) : Io Unit := do
  match ← attempt (do io .beforeWrite; io (.setTimes seconds nanos)) with
  | .error (.os .notPermitted) => pure ()
  | .error e => throw e
  | .ok () => pure ()

def restoreOld (journal : Bytes) (offset len seconds nanos : ℕ) : Io Unit := do
  io .beforeWrite
  io (.setLen offset)
  io .syncAll
  copyExact (journal.drop headerLen) (len - offset) (fun bs => writeAll bs.length offset bs)
  restoreMtime seconds nanos
  io .syncAll

def late (complete : Bool) (e : IoError) : RecoverError :=
  if complete then .committed e else .journal e

abbrev Authorize := PendingJournal → Stamp → Io Unit

/-- `rollback` after the archive's bytes are what they will be. -/
def dropJournal (complete : Bool) (header : Header) : Io Applied := do
  io .beforeWrite
  marker (if complete then .complete else .prepare)
  let applied ← appliedOf complete header.pending.len header.pending.mtimeNs header.pending.newLen
  io (.beforeUnlink applied)
  onlyIf complete do
    io .beforeWrite
    marker .done
  io .beforeWrite
  io .removeFile
  io .syncParent
  io .beforeWrite
  let _ ← attempt clearMarker
  pure applied

def rollback (complete : Bool) (expected : Option ℕ) (authorize : Authorize) :
    Fallible Call Answer RecoverError Applied := do
  let (header,journal) ← withError .journal (validate D complete expected)
  let locked ← withError .journal (io .fstat)
  withError .refused (authorize header.pending locked)
  withError .refused (io .beforeWrite)
  onlyIf (!complete && !header.oldInPlace) (withError .journal
    (restoreOld journal header.pending.offset header.pending.len header.seconds header.nanos))
  withError (late complete) (dropJournal complete header)

def askCaller : Authorize := fun j m => io (.authorize j m)

/-- A `P` locator without its journal: no byte changed, or a rollback was made durable. -/
def clearStale : Fallible Call Answer RecoverError (Option Applied) := do
  withError .refused (io .beforeWrite)
  withError .journal syncParentIfPresent
  withError .refused (io .beforeWrite)
  withError .journal clearMarker
  pure none

/-- `recover` under the lock, with the locator read from the locked descriptor. -/
def recoverLocked (state : Option Phase) : Fallible Call Answer RecoverError (Option Applied) := do
  let present ← withError .journal (io .journalExists)
  if present then do
    withError .refused (io .beforeWrite)
    let applied ← rollback D (rollsForward state) none askCaller
    pure (some applied)
  else match state with
  | none => pure none
  | some .prepare => clearStale
  | some .done => pure none
  | some .complete => throw (.committed (.os .notFound))
  | some .active => throw (.journal (.message "active journal is missing or moved"))

/-- Open errors that `recover` leaves to its caller when no journal is visible. -/
def ordinaryOpenError : IoError → Bool
  | .os .notFound | .os .notADirectory | .os .permissionDenied => true
  | _ => false

def recover : Fallible Call Answer RecoverError (Option Applied) := do
  match ← attempt (io .openRead) with
  | .error e =>
    match ← attempt (io .statJournal) with
    | .error (_ : IoError) => if ordinaryOpenError e then pure none else throw (.journal e)
    | .ok () => throw (.journal e)
  | .ok () => do
    let _ ← withError .journal (io .fstat)
    let locator ← withError .journal (io .getMarker)
    let probed ← (if locator.isNone then withError .journal (io .journalExists) else pure true)
    if !probed then pure none
    else do
      withError .journal (io .openReadWrite)
      withError .journal (io .flock)
      let state ← withError .journal (io .getMarker)
      recoverLocked D state

/-! ## The outcome of a replacement -/

inductive ReplaceError where
  | refused (e : IoError)
  | rolledBack (e : IoError) (stamp : Option Stamp)
  | pending (e : IoError)
  | committed (e : IoError)
  deriving DecidableEq, Repr

def authorizeStarted (started : Stamp) : Authorize := fun j m =>
  ensure (j.ino == started.ino.toNat && (m.dev,m.ino) == (started.dev,started.ino))
    (.message "the archive carries a commit journal that this replacement did not start")

def unresolved (complete : Bool) (e : IoError) : ReplaceError :=
  if complete then .committed e else .pending e

/-- The end of `finish_failed`: the journal is published and still owed. -/
def undo (complete : Bool) (ours : ℕ) (error : IoError) : Fallible Call Answer ReplaceError Unit := do
  match ← attempt (io .statJournal) with
  | .error (_ : IoError) =>
    throw (unresolved complete (.joined error (.message "commit journal is missing or moved")))
  | .ok () => do
    let locked ← withError (fun x => unresolved complete (.joined error x)) (io .fstat)
    match ← attempt (rollback D complete (some ours) (authorizeStarted locked)) with
    | .ok _ => if complete then pure () else throw (.rolledBack error none)
    | .error (.refused x) => throw (unresolved complete (.joined error x))
    | .error (.journal x) => throw (unresolved complete (.joined error x))
    | .error (.committed x) => throw (unresolved complete (.joined error x))

/-- The journal is unlinked: owed are its durable absence and the locator. -/
def finishUnlinked (synced : Bool) (error : IoError) : Fallible Call Answer ReplaceError Unit := do
  onlyIf (!synced) (withError (fun x => .committed (.joined error x)) (io .syncParent))
  withError .committed (io .beforeWrite)
  let _ ← attempt clearMarker
  pure ()

/-- The locator of a published attempt that did not record `C`: an installed `C`
whose sync failed is still complete. -/
def isComplete (a : Attempt) (error : IoError) : Fallible Call Answer ReplaceError Bool := do
  if a.completed then pure true
  else if a.published.isNone then pure false
  else do
    let m ← withError (fun x => .pending (.joined error x)) (io .getMarker)
    pure (rollsForward m)

def finishFailed (a : Attempt) (error : IoError) : Fallible Call Answer ReplaceError Unit := do
  let complete ← isComplete a error
  withError (unresolved complete) (io .beforeWrite)
  match a.published with
  | none => do
    let _ ← attempt clearMarker
    throw (.rolledBack error none)
  | some ours => if a.unlinked then finishUnlinked a.synced error else undo D complete ours error

/-- `pending_refusal`, its message left out. -/
def pendingRefusal : Io Bool := do
  let journal ← io .journalExists
  let m ← io .getMarker
  pure (journal || m.isSome)

/-- The checks of `replace` under the lock, before anything is written. -/
def checkBefore (original : Option Stamp) : Io Stamp := do
  io .canonicalize
  io .openReadWrite
  io .flock
  let refused ← pendingRefusal
  ensure (!refused) (.message "pending journal; recover before preparing a commit")
  let stamp ← io .fstat
  ensure (original.all (· == stamp))
    (.message "archive changed while preparing append; retry with a fresh plan")
  io .beforeWrite
  pure stamp

/-- The clean-up and the stamp that a rolled-back outcome carries. -/
def settle (stop : Stop) : Fallible Call Answer ReplaceError Unit := do
  if stop.guardRefused && !stop.attempt.prepared then throw (.refused stop.error)
  else
    match ← attempt (finishFailed D stop.attempt stop.error) with
    | .error (.rolledBack e _) => do
      match ← attempt (io .fstat) with
      | .ok now => throw (.rolledBack e (some now))
      | .error (_ : IoError) => throw (.rolledBack e none)
    | .error e => throw e
    | .ok () => pure ()

def replace (offset : ℕ) (original : Option Stamp) : Fallible Call Answer ReplaceError Unit := do
  let stamp ← withError .refused (checkBefore original)
  match ← attempt (run D offset stamp) with
  | .ok () => pure ()
  | .error stop => settle D stop

end Ratarmount.CommitJournal
