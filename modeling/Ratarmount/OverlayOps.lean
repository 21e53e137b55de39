import Ratarmount.OverlayCopy

/-!
# Operations of the write overlay

Each operation as the stages it runs through. A stage makes its calls on the
overlay folder and then says what became of which path; that goes to the `files`
table and the tombstones before the next stage.
-/

namespace Ratarmount.Overlay

open Mount (Path components)
open Posix (FS Node Errno)

structure FdFlags where
  write : Bool
  create : Bool
  excl : Bool
  trunc : Bool
  append : Bool
  deriving DecidableEq

variable {π : Type} (c : Config π) (f : Faults)

/-- The internal names are refused in the caller's spelling. -/
def refuseInternal (path : Str) : OpM π Unit := refuse (isOverlayInternalPath path) .perm

/-! ## Descriptors -/

def registerFd (h : Handle) : OpM π Unit :=
  modify fun s => { s with fds := s.fds.insert s.nextFd h, nextFd := s.nextFd + 1 }

/-- The inode behind a descriptor that is open on a file, and how it is open. -/
def fdInode (fd : ℕ) : OpM π (ℕ × Handle) := fun s =>
  match s.fds.lookup fd with
  | some ⟨some i,write,append⟩ => .ok (i,⟨some i,write,append⟩) s
  | _ => .error .inval s

def nlink (fs : FS) (i : ℕ) : ℕ := fs.entries.keys.countP fun p => fs.node p = some (.file i)

def accountOrphan (i : ℕ) (p : Path) (added removed : ℕ) : OpM π Unit := fun s =>
  let entry := (s.growth.lookup i).getD (p,0)
  let removed := min removed entry.2
  account c (fun pol => pol.bytesChanged entry.1 added removed)
    { s with growth := s.growth.insert i (entry.1,entry.2 + added - removed) }

/-- The accounting of a change of an inode's length; a write that adds nothing to a named file is not
reported. -/
def accountInode (i : ℕ) (p : Path) (added removed : ℕ) (quiet : Bool) : OpM π Unit := fun s =>
  if c.policy.isNone then .ok () s
  else if nlink s.host i = 0 then accountOrphan c i p added removed s
  else if quiet && added = 0 then .ok () s
  else account c (fun pol => pol.bytesChanged p added removed) s

def inodeLength (i : ℕ) : OpM π ℕ := observe fun s => (s.host.inodes i).bytes.length

def setBytes (i : ℕ) (g : Bytes → Bytes) : OpM π Unit :=
  modify fun s => { s with host := s.host.setInode i { s.host.inodes i with bytes := g (s.host.inodes i).bytes } }

def writeInode (i : ℕ) (write : Bool) (p : Path) (offset : ℕ) (data : Bytes) (before : ℕ) : OpM π Unit := do
  checkWrite c p offset data.length before
  refuse (!write || f.fails .write) .io
  setBytes i fun bytes => Posix.overwrite bytes offset (data.take f.accepted)
  accountInode c i p (if data.take f.accepted = [] then 0 else offset + (data.take f.accepted).length - before) 0 true

/-- With `O_APPEND` the offset is the end. -/
def writeAt (fd : ℕ) (path : Str) (offset : ℕ) (data : Bytes) : OpM π Unit := do
  refuseInternal path
  checkMutation c .write [components path]
  let h ← fdInode fd
  let before ← inodeLength h.1
  writeInode c f h.1 h.2.write (components path) (if h.2.append then before else offset) data before

def truncateInode (i : ℕ) (write : Bool) (p : Path) (size : ℕ) : OpM π Unit := do
  checkMutation c .truncate [p]
  let before ← inodeLength i
  checkWrite c p size 0 before
  refuse (!write || f.fails .setLen) .io
  setBytes i fun bytes => Posix.resize bytes size
  accountInode c i p (size - before) (before - size) false

def truncateFile (fd : ℕ) (path : Str) (size : ℕ) : OpM π Unit := do
  refuseInternal path
  let h ← fdInode fd
  truncateInode c f h.1 h.2.write (components path) size

def cloneFd (fd : ℕ) : OpM π Unit := fun s =>
  match s.fds.lookup fd with
  | some h => registerFd h s
  | none => .error .inval s

/-- The growth of an unlinked inode is given back with its last descriptor. -/
def releaseGrowth (i : ℕ) : OpM π Unit := fun s =>
  if c.policy.isNone || s.fds.entries.any (fun e => e.2.ino = some i) then .ok () s
  else match s.growth.lookup i with
    | some (p,bytes) => account c (fun pol => pol.bytesChanged p 0 bytes) { s with growth := s.growth.erase i }
    | none => .ok () s

def releaseFd (fd : ℕ) : OpM π Unit := fun s =>
  match s.fds.lookup fd with
  | some ⟨some i,_,_⟩ => releaseGrowth c i { s with fds := s.fds.erase fd }
  | _ => .ok () { s with fds := s.fds.erase fd }

/-! ## Operations by path -/

def createFlags : Posix.FS.OpenFlags := ⟨true,true,false,true⟩

def hostOpen (p : Path) (flags : Posix.FS.OpenFlags) (mode : ℕ) : OpM π (Option ℕ) :=
  hostCall f .openHost fun fs => fs.openAt (c.hostPath p) flags (mode % 0o10000)

def fileSizeOf (p : Path) : OpM π ℕ := observe fun s => (policyFileSize c s.host p).getD 0

def setInodeMode (ino : Option ℕ) (mode : ℕ) : OpM π Unit :=
  match ino with
  | some i => modify fun s => { s with host := s.host.setInode i { s.host.inodes i with mode := mode } }
  | none => pure ()

/-- The file itself, truncated where it was there, with its permissions. -/
def createHostFile (p : Path) (mode : ℕ) : OpM π (Option ℕ) := do
  let ino ← hostOpen c f p createFlags mode
  refuse (f.fails .chmod) .io
  setInodeMode ino (mode % 0o10000)
  pure ino

/-- `create_file_inner` up to its row; the inode it leaves open. -/
def createFileInner (p : Path) (mode : ℕ) : OpM π (Option ℕ) := do
  refuse (Reserved p) .perm
  refuseControlPath c p
  checkMutation c .create [p]
  ensureParent c f p
  ensureUnderRoot c p
  ensureUnderRoot c p.dropLast
  createDirAll c f .dirs p.dropLast
  let size ← fileSizeOf c p
  checkWrite c p 0 0 size
  accounted c [p] (createHostFile c f p mode)

def createFile (p : Path) (mode : ℕ) : OpM π (Option FilesOp) := do
  let ino ← createFileInner c f p mode
  registerFd ⟨ino,true,false⟩
  pure (some (.present p (0o100000 ||| mode)))

def checkOpen (p : Path) (flags : FdFlags) : OpM π Unit :=
  if flags.write || flags.create || flags.trunc then do
    refuseControlPath c p
    checkMutation c .openWrite [p]
  else pure ()

def createMissing (p : Path) (flags : FdFlags) (mode : ℕ) : OpM π (Option FilesOp) := do
  let there ← hasEntry c p
  if !there && (flags.write || flags.create) then do
    let _ ← createFileInner c f p mode
    pure (some (.present p (0o100000 ||| mode)))
  else pure none

/-- An open up to the file it needs, which it creates where it is missing. -/
def openPrepare (p : Path) (flags : FdFlags) (mode : ℕ) : OpM π (Option FilesOp) := do
  checkOpen c p flags
  let seen ← observe fun s => (lookup c s p 0).isSome
  refuse (flags.create && flags.excl && seen) .exist
  ensureModifiableInner c f p (if flags.trunc && !flags.excl then some 0 else none)
  ensureUnderRoot c p
  createMissing c f p flags mode

def checkTrunc (p : Path) (flags : FdFlags) : OpM π Unit :=
  if flags.trunc && c.policy.isSome then do
    checkMutation c .truncate [p]
    let size ← fileSizeOf c p
    checkWrite c p 0 0 size
  else pure ()

/-- The open itself; the flags of creation are gone once the file was created. -/
def openFinish (p : Path) (flags : FdFlags) (mode : ℕ) (created : Bool) : OpM π (Option FilesOp) := do
  let there ← hasEntry c p
  refuse (!there) .noEnt
  checkTrunc c p flags
  let ino ← accounted c [p]
    (hostOpen c f p ⟨flags.write,flags.create && !created,flags.excl && !created,flags.trunc⟩ mode)
  registerFd ⟨ino,flags.write,flags.append⟩
  pure (some (.clearDeleted p))

def mkdir (p : Path) (mode : ℕ) : OpM π (Option FilesOp) := do
  checkMutation c .mkdir [p]
  ensureParent c f p
  ensureUnderRoot c p
  createDirAll c f .dirs p
  hostDo f .chmod fun fs => fs.chmod (c.hostPath p) (mode % 0o10000)
  pure (some (.present p (0o40000 ||| mode)))

def unlinkHost (p : Path) : OpM π Unit := do
  let there ← hasEntry c p
  if there then hostDo f .unlink fun fs => fs.unlink (c.hostPath p) else pure ()

def unlink (p : Path) : OpM π (Option FilesOp) := do
  checkMutation c .unlink [p]
  accounted c [p] (unlinkHost c f p)
  pure (some (.deleted p (c.baseExists p)))

/-- A directory of the view, and nothing in it. -/
def refuseRmdir (p : Path) : OpM π Unit := do
  let found ← observe fun s => lookup c s p 0
  refuse found.isNone .noEnt
  refuse (!(found.any fun fi => Mount.isDirMode fi.mode)) .notDir
  let children ← observe fun s => ((list c s p).map AList.keys).getD []
  refuse (children ≠ []) .notEmpty

def rmdirHost (p : Path) : OpM π Unit := do
  let there ← observe fun s => (s.host.stat (c.hostPath p)).toOption.isSome
  if there then hostDo f .rmdir fun fs => fs.rmdir (c.hostPath p) else pure ()

def rmdir (p : Path) : OpM π (Option FilesOp) := do
  checkMutation c .rmdir [p]
  ensureUnderRoot c p
  refuseRmdir c p
  rmdirHost c f p
  pure (some (.deleted p (c.baseExists p)))

def truncateOpened (p : Path) (size : ℕ) : Option ℕ → OpM π Unit
  | some i => truncateInode c f i true p size
  | none => throw .isDir

def truncate (p : Path) (size : ℕ) : OpM π (Option FilesOp) := do
  checkMutation c .truncate [p]
  ensureModifiableInner c f p (some size)
  ensureUnderRoot c p
  let ino ← hostOpen c f p ⟨true,false,false,false⟩ 0
  truncateOpened c f p size ino
  pure none

def createSymlink (p : Path) (target : Str) : OpM π (Option FilesOp) := do
  checkMutation c .symlink [p]
  refuse (target = []) .inval
  ensureParent c f p
  ensureUnderRoot c p
  let taken ← observe fun s => (c.lstat s.host p).isSome || (lookup c s p 0).isSome
  refuse taken .exist
  createDirAll c f .dirs p.dropLast
  checkWrite c p 0 (Utf8.encode target).length 0
  accounted c [p] (hostDo f .link fun fs => fs.symlink target (c.hostPath p))
  pure (some (.present p 0o120777))

/-- Neither end is the root or a directory, and there is something to rename. -/
def refuseRename (p q : Path) : OpM π Unit := do
  let there ← hasEntry c p
  refuse (!there) .noEnt
  let ontoDir ← observe fun s =>
    (c.lstat s.host q).any Node.isDir || (lookup c s q 0).any fun fi => Mount.isDirMode fi.mode
  refuse ontoDir .exist

/-- The attributes that go along with a rename, which are not kept here: those of a path that is not seen are refused, and
their rows can be unreadable. -/
def xattrsForPath (p : Path) : OpM π Unit := do
  let seen ← observe fun s => (lookup c s p 0).isSome
  refuse (!seen) .noEnt
  refuse (f.fails .xattrRows) .io

def rename (p q : Path) : OpM π (Option FilesOp) := do
  checkMutation c .rename [p,q]
  refuse (p = [] ∨ q = [] ∨ p = q) .inval
  ensureParent c f q
  let fromIsDir ← observe fun s => ((c.lstat s.host p).map Node.isDir).getD (c.baseIsDir p)
  refuse fromIsDir .isDir
  ensureModifiableInner c f p none
  ensureRenameConfined c p
  ensureRenameConfined c q
  refuseRename c p q
  createDirAll c f .dirs q.dropLast
  xattrsForPath c f p
  accounted c [p,q] (hostDo f .rename fun fs => fs.rename (c.hostPath p) (c.hostPath q))
  let mode ← observe fun s => ((c.lstat s.host q).map (nodeMode s.host)).getD (0o100000 + 0o644)
  pure (some (.rename p q mode (c.baseExists p)))

inductive Op
  | createFile (path : Str) (mode : ℕ)
  | openFd (path : Str) (flags : FdFlags) (mode : ℕ)
  | mkdir (path : Str) (mode : ℕ)
  | unlink (path : Str)
  | rmdir (path : Str)
  | truncate (path : Str) (size : ℕ)
  | createSymlink (path target : Str)
  | rename (src dst : Str)
  | writeAt (fd : ℕ) (path : Str) (offset : ℕ) (data : Bytes)
  | truncateFile (fd : ℕ) (path : Str) (size : ℕ)
  | cloneFd (fd : ℕ)
  | releaseFd (fd : ℕ)

def silent (m : OpM π Unit) : OpM π (Option FilesOp) := do
  m
  pure none

/-- An operation on a path, after the names the overlay keeps are refused. -/
def onPath (path : Str) (m : Path → OpM π (Option FilesOp)) : OpM π (Option FilesOp) := do
  refuseInternal path
  m (components path)

def onPaths (src dst : Str) (m : Path → Path → OpM π (Option FilesOp)) : OpM π (Option FilesOp) := do
  refuseInternal src
  refuseInternal dst
  m (components src) (components dst)

/-- The first stage of an operation, and the stages after it. -/
def opStages : Op → OpM π (Option FilesOp) × (Option FilesOp → List (OpM π (Option FilesOp)))
  | .createFile path mode => (onPath path fun p => createFile c f p mode,fun _ => [])
  | .openFd path flags mode => (onPath path fun p => openPrepare c f p flags mode,
      fun prepared => [openFinish c f (components path) flags mode prepared.isSome])
  | .mkdir path mode => (onPath path fun p => mkdir c f p mode,fun _ => [])
  | .unlink path => (onPath path fun p => unlink c f p,fun _ => [])
  | .rmdir path => (onPath path fun p => rmdir c f p,fun _ => [])
  | .truncate path size => (onPath path fun p => truncate c f p size,fun _ => [])
  | .createSymlink path target => (onPath path fun p => createSymlink c f p target,fun _ => [])
  | .rename src dst => (onPaths src dst fun p q => rename c f p q,fun _ => [])
  | .writeAt fd path offset data => (silent (writeAt c f fd path offset data),fun _ => [])
  | .truncateFile fd path size => (silent (truncateFile c f fd path size),fun _ => [])
  | .cloneFd fd => (silent (cloneFd fd),fun _ => [])
  | .releaseFd fd => (silent (releaseFd c fd),fun _ => [])

/-- `persist_files_op` and the change of the tombstones that follows it. -/
def record (op : Option FilesOp) : OpM π Unit :=
  match op with
  | none => pure ()
  | some op => modify fun s => { s with
      files := applyFilesOpSql s.files op
      tombstones := rememberOp s.tombstones op }

def runStages : List (OpM π (Option FilesOp)) → OpM π Unit
  | [] => pure ()
  | stage :: rest => do
    record (← stage)
    runStages rest

def perform (op : Op) : OpM π Unit := do
  let said ← (opStages c f op).1
  record said
  runStages ((opStages c f op).2 said)

def runOps : List (Op × Faults) → State π → State π
  | [], s => s
  | (op,f) :: ops, s =>
    match perform c f op s with
    | .ok _ s => runOps ops s
    | .error _ s => runOps ops s

end Ratarmount.Overlay
