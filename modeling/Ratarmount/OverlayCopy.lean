import Ratarmount.OverlayView

/-!
# Copy on write

The calls that operations of the overlay make, on the folder and on the policy,
and the copy of an entry of the base into the folder. A call of the host may fail
where the environment says so; the state then is the one the calls before it left.
-/

namespace Ratarmount.Overlay

open Mount (Path components)
open Posix (FS Node Errno)

/-- The places where the host can refuse a call. -/
inductive Site
  | parentDirs
  | dirs
  | openHost
  | chmod
  | baseOpen
  | stage
  | stageMeta
  | publish
  | dirSync
  | link
  | linkMeta
  | xattrRows
  | unlink
  | rmdir
  | rename
  | setLen
  | write
  deriving DecidableEq

/-- What the environment does during one operation: the calls that fail, the directories that can
still be made, where reading the base breaks off, and how much one write takes. -/
structure Faults where
  fails : Site → Bool
  room : Site → ℕ
  copied : Option ℕ
  accepted : ℕ

abbrev OpM (π α : Type) := EStateM Errno (State π) α

variable {π : Type} (c : Config π) (f : Faults)

def observe {α : Type} (g : State π → α) : OpM π α := fun s => .ok (g s) s

def refuse (b : Bool) (e : Errno) : OpM π Unit := if b then throw e else pure ()

/-! ## Policy calls -/

def runPolicy (call : Policy π → FS → π → Except Errno Unit × π) : OpM π Unit := fun s =>
  match c.policy with
  | none => .ok () s
  | some pol =>
    match call pol s.host s.policy with
    | (.ok _,st) => .ok () { s with policy := st }
    | (.error e,st) => .error e { s with policy := st }

def refuseControlPath (p : Path) : OpM π Unit := refuse (c.controlReserved && isControlReservedPath p) .perm

def checkMutation (op : Mutation) (ps : List Path) : OpM π Unit := do
  refuse (c.controlReserved && ps.any isControlReservedPath) .perm
  runPolicy c fun pol => pol.checkMutation op ps

def checkWrite (p : Path) (offset len current : ℕ) : OpM π Unit :=
  runPolicy c fun pol => pol.checkWrite p offset len current

def account (g : Policy π → π → π) : OpM π Unit := fun s =>
  match c.policy with
  | none => .ok () s
  | some pol => .ok () { s with policy := g pol s.policy }

def policyFileSize (fs : FS) (p : Path) : Option ℕ :=
  match c.lstat fs p with
  | some n => if n.isDir then none else some (nodeSize fs n)
  | none => none

/-- `PolicyAccounting::drop`. -/
def settle (pol : Policy π) (p : Path) (before after : Option ℕ) (st : π) : π :=
  let st := if before.isNone && after.isSome then pol.fileCreated p st else st
  let old := before.getD 0
  let new := after.getD 0
  let st := if old = new then st else pol.bytesChanged p (new - old) (old - new) st
  if before.isSome && after.isNone then pol.fileRemoved p st else st

/-- The guards of the paths are dropped at the end, the last first. -/
def dropGuards (pol : Policy π) (before : List (Path × Option ℕ)) (s : State π) : State π :=
  before.reverse.foldl
    (fun s b => { s with policy := settle pol b.1 b.2 (policyFileSize c s.host b.1) s.policy }) s

def accounted {α : Type} (ps : List Path) (m : OpM π α) : OpM π α := fun s =>
  match c.policy with
  | none => m s
  | some pol =>
    let before := ps.map fun p => (p,policyFileSize c s.host p)
    match m s with
    | .ok a s => .ok a (dropGuards c pol before s)
    | .error e s => .error e (dropGuards c pol before s)

/-! ## Calls on the overlay folder -/

def hostCall {α : Type} (site : Site) (call : FS → Except Errno (α × FS)) : OpM π α := fun s =>
  if f.fails site then .error .io s
  else match call s.host with
    | .ok (a,fs) => .ok a { s with host := fs }
    | .error e => .error e s

def hostDo (site : Site) (call : FS → Except Errno FS) : OpM π Unit :=
  hostCall f site fun fs => (call fs).map fun fs => ((),fs)

def createDirAll (site : Site) (p : Path) : OpM π Unit := fun s =>
  match s.host.createDirAll (f.room site) (c.hostPath p) with
  | (.ok _,fs) => .ok () { s with host := fs }
  | (.error e,fs) => .error e { s with host := fs }

def hasEntry (p : Path) : OpM π Bool := observe fun s => (c.lstat s.host p).isSome

/-- `path_is_under`. -/
def under (root q : Path) : Except Errno Unit := if root <+: q then .ok () else .error .perm

/-- The nearest entry among the ancestors of `p`, longest first, has to lead below the root. -/
def confinedAbove (root : Path) (fs : FS) (p : Path) : List Path → Except Errno Unit
  | [] => under root p
  | a :: rest =>
    match fs.lstat a with
    | .error _ => confinedAbove root fs p rest
    | .ok n =>
      match n, fs.realpath a with
      | _, .ok q => under root q
      | .link _, .error _ => .error .perm
      | _, .error e => .error e

def ensureOverlayUnderRoot (root : Path) (fs : FS) (p : Path) : Except Errno Unit :=
  match fs.lstat p with
  | .ok (.link _) => .error .perm
  | .ok _ => do under root (← fs.realpath p)
  | .error _ => confinedAbove root fs p p.inits.dropLast.reverse

def ensureOverlayParentConfined (root : Path) (fs : FS) (p : Path) : Except Errno Unit := do
  under root (← fs.realpath p.dropLast)

def liftHost {α : Type} (g : FS → Except Errno α) : OpM π α := fun s =>
  match g s.host with
  | .ok a => .ok a s
  | .error e => .error e s

def ensureUnderRoot (p : Path) : OpM π Unit := liftHost fun fs => ensureOverlayUnderRoot c.root fs (c.hostPath p)

/-- A link at the end only needs a confined parent: a rename does not follow it. -/
def ensureRenameConfined (p : Path) : OpM π Unit := liftHost fun fs =>
  match fs.lstat (c.hostPath p) with
  | .ok (.link _) => ensureOverlayParentConfined c.root fs (c.hostPath p)
  | _ => ensureOverlayUnderRoot c.root fs (c.hostPath p)

def ensureParent (p : Path) : OpM π Unit :=
  if p.dropLast = [] then pure ()
  else do
    ensureUnderRoot c p.dropLast
    let missing ← observe fun s => (s.host.stat (c.hostPath p.dropLast)).toOption.isNone
    if missing && c.baseIsDir p.dropLast then createDirAll c f .parentDirs p.dropLast else pure ()

/-! ## Copy on write -/

def memberBytes (fi : Info) : Bytes :=
  match fi.rest.data with
  | .member bytes => bytes
  | .overlay _ => []

def copyDir (p : Path) (fi : Info) : OpM π Unit := do
  createDirAll c f .dirs p
  hostDo f .chmod fun fs => fs.chmod (c.hostPath p) (fi.mode % 0o10000)

def copyLink (p : Path) (fi : Info) : OpM π Unit := do
  hostDo f .link fun fs => fs.symlink fi.linkname (c.hostPath p)
  refuse (f.fails .linkMeta) .io

/-- The rename of the staged copy onto the name; a name that is taken by then stays. -/
def publishStaged (p : Path) (bytes : Bytes) (mode : ℕ) (fs : FS) : Except Errno (Bool × FS) := do
  let q ← fs.locate (c.hostPath p)
  if (fs.node q).isSome then .ok (false,fs)
  else .ok (true,(fs.alloc ⟨bytes,mode⟩).2.put q (.file fs.next))

/-- The staging file needs the directory. -/
def stageIn (p : Path) : OpM π Unit := do
  refuse (f.fails .stage) .io
  liftHost fun fs => do
    match ← fs.stat (c.hostPath p.dropLast) with
    | .dir _ => .ok ()
    | _ => .error .notDir

/-- The copy without a policy: the whole member, whatever length the caller asked for. -/
def copyFile (p : Path) (fi : Info) : OpM π Unit := do
  refuse (f.fails .baseOpen) .io
  stageIn c f p
  refuse (f.copied.isSome || (memberBytes fi).length ≠ fi.rest.size) .io
  refuse (f.fails .stageMeta) .io
  let _ ← hostCall f .publish (publishStaged c p (memberBytes fi) (fi.mode % 0o10000))
  refuse (f.fails .dirSync) .io

def chunkSize : ℕ := 64 * 1024

def chunkEnds (n : ℕ) : List ℕ :=
  (List.range (n / chunkSize)).map (fun k => (k + 1) * chunkSize) ++ if n % chunkSize = 0 then [] else [n]

/-- A copy under way: the overlay, and the bytes that its reservation still holds. -/
abbrev CopyM (π α : Type) := EStateM Errno (State π × ℕ) α

def CopyM.lift {α : Type} (m : OpM π α) : CopyM π α := fun s =>
  match m s.1 with
  | .ok a s' => .ok a (s',s.2)
  | .error e s' => .error e (s',s.2)

def CopyM.refuse (b : Bool) (e : Errno) : CopyM π Unit := if b then throw e else pure ()

/-- A read up to `e`: the reservation grows where it does not hold that much. -/
def topUpTo (p : Path) (e : ℕ) : CopyM π Unit := fun s =>
  if s.2 < e then
    match CopyM.lift (do
      checkWrite c p 0 e s.2
      account c fun pol => pol.bytesChanged p (e - s.2) 0) s with
    | .ok _ s => .ok () (s.1,e)
    | .error err s => .error err s
  else .ok () s

def topUp (p : Path) : List ℕ → CopyM π Unit
  | [] => pure ()
  | e :: ends => do
    topUpTo c p e
    topUp p ends

def hintedData (fi : Info) : Option ℕ → Bytes
  | some n => (memberBytes fi).take n
  | none => memberBytes fi

def hintedSize (fi : Info) : Option ℕ → ℕ
  | some n => min fi.rest.size n
  | none => fi.rest.size

def hintedBytes (fi : Info) : Option ℕ → Bytes
  | some n => Posix.resize ((memberBytes fi).take n) n
  | none => memberBytes fi

/-- Where reading breaks off; a copy of nothing reads nothing. -/
def brokenAt (hint : Option ℕ) : Option ℕ := if hint = some 0 then none else f.copied

/-- `after_publish`: the reservation is settled to the published length, and the file counts. -/
def settleCopy (p : Path) (length : ℕ) : CopyM π Unit := fun s =>
  CopyM.lift (do
    account c fun pol => pol.bytesChanged p 0 (s.2 - length)
    account c fun pol => pol.fileCreated p) (s.1,0)

def copyReserved (p : Path) (fi : Info) (hint : Option ℕ) : CopyM π Unit := do
  CopyM.refuse (hint ≠ some 0 && f.fails .baseOpen) .io
  CopyM.lift (stageIn c f p)
  topUp c p (chunkEnds (((brokenAt f hint).map (min (hintedData fi hint).length)).getD (hintedData fi hint).length))
  CopyM.refuse ((brokenAt f hint).isSome || (hintedData fi hint).length ≠ hintedSize fi hint) .io
  CopyM.refuse (hint.isSome && f.fails .setLen) .io
  CopyM.refuse (f.fails .stageMeta) .io
  CopyM.lift (ensureUnderRoot c p)
  let published ← CopyM.lift (hostCall f .publish (publishStaged c p (hintedBytes fi hint) (fi.mode % 0o10000)))
  if published then do
    settleCopy c p (hintedBytes fi hint).length
    CopyM.refuse (f.fails .dirSync) .io
  else pure ()

/-- `CowReservation::drop`: what the reservation still holds is given back. -/
def dropReservation (p : Path) : EStateM.Result Errno (State π × ℕ) Unit → EStateM.Result Errno (State π) Unit
  | .ok _ (s,reserved) => account c (fun pol => pol.bytesChanged p 0 reserved) s
  | .error e (s,reserved) => (do
      account c fun pol => pol.bytesChanged p 0 reserved
      throw e : OpM π Unit) s

def withReservation (p : Path) (bytes : ℕ) (m : CopyM π Unit) : OpM π Unit := do
  account c fun pol => pol.bytesChanged p bytes 0
  fun s => dropReservation c p (m (s,bytes))

def copyInfoReserved (p : Path) (hint : Option ℕ) (fi : Info) : OpM π Unit :=
  if Mount.isDirMode fi.mode then copyDir c f p fi
  else if Mount.isLnkMode fi.mode then do
    checkWrite c p 0 (Utf8.encode fi.linkname).length 0
    accounted c [p] (copyLink c f p fi)
  else do
    checkMutation c .write [p]
    checkWrite c p 0 (hint.getD fi.rest.size) 0
    withReservation c p (hint.getD fi.rest.size) (copyReserved c f p fi hint)

def copyInfo (p : Path) (fi : Info) : OpM π Unit :=
  if Mount.isDirMode fi.mode then copyDir c f p fi
  else if Mount.isLnkMode fi.mode then do
    createDirAll c f .dirs p.dropLast
    copyLink c f p fi
  else copyFile c f p fi

/-- The part of both copies up to the entry of the base; nothing is done where the folder has one. -/
def copyUp (p : Path) (copy : Info → OpM π Unit) : OpM π Unit := do
  refuse (Reserved p) .perm
  ensureUnderRoot c p
  let there ← hasEntry c p
  if there then pure ()
  else do
    checkMutation c .copyOnWrite [p]
    ensureParent c f p
    match c.baseLookup p with
    | none => pure ()
    | some fi => copy fi

def copyWithReservation (p : Path) (hint : Option ℕ) : OpM π Unit := copyUp c f p (copyInfoReserved c f p hint)

/-- Without a policy the size hint has no effect. -/
def ensureModifiableInner (p : Path) (hint : Option ℕ) : OpM π Unit :=
  if c.policy.isSome then copyWithReservation c f p hint else copyUp c f p (copyInfo c f p)

end Ratarmount.Overlay
