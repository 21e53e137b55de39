import Ratarmount.OverlayNames
import Ratarmount.OverlayRows
import Ratarmount.PosixCalls

/-!
# The mounted view of a base under a write overlay

The overlay keeps changed entries in a host folder and deleted paths in a set.
Lookups prefer the folder and fall back to the base; a listing merges both.
-/

namespace Ratarmount.Overlay

open Mount (Path components)
open Posix (FS Node Errno)

/-- Where the content of an entry is: in the overlay folder, or in the base. -/
inductive UserData
  | overlay (path : Path)
  | member (bytes : Bytes)

structure Body where
  size : ℕ
  data : UserData

abbrev Info := Mount.FileInfo Body

abbrev Base := Mount.MountSource Body

inductive Mutation
  | copyOnWrite
  | create
  | openWrite
  | write
  | mkdir
  | unlink
  | rmdir
  | truncate
  | symlink
  | rename
  | reset
  deriving DecidableEq

/-- `OverlayPolicy`: checks and accounting with a state of their own, which may look at the host. -/
structure Policy (π : Type) where
  checkMutation : Mutation → List Path → FS → π → Except Errno Unit × π
  checkWrite : Path → ℕ → ℕ → ℕ → FS → π → Except Errno Unit × π
  bytesChanged : Path → ℕ → ℕ → π → π
  fileCreated : Path → π → π
  fileRemoved : Path → π → π

/-- What does not change while the overlay is mounted. The root is a canonical path. -/
structure Config (π : Type) where
  base : Base
  root : Path
  plain : ∀ x ∈ root, FS.Plain x
  controlReserved : Bool
  policy : Option (Policy π)

structure Handle where
  ino : Option ℕ
  write : Bool
  append : Bool

/-- The overlay folder, the deleted paths, the `files` table as it is once every pending row is
written, the open descriptors and the growth of unlinked files, and the policy's state. -/
structure State (π : Type) where
  host : FS
  tombstones : Finset Path
  files : Files
  fds : AList (fun _ : ℕ => Handle)
  nextFd : ℕ
  growth : AList (fun _ : ℕ => Path × ℕ)
  policy : π

variable {π : Type} (c : Config π) (s : State π)

def Config.hostPath (p : Path) : Path := c.root ++ p

def Config.baseLookup (p : Path) : Option Info := c.base.lookup p 0

def Config.baseExists (p : Path) : Bool := (c.baseLookup p).isSome

def Config.baseIsDir (p : Path) : Bool := (c.baseLookup p).any fun fi => Mount.isDirMode fi.mode

def State.isDeleted (p : Path) : Bool := p ≠ [] && p ∈ s.tombstones

def hostDirSize : ℕ := 4096

def nodeMode (fs : FS) : Node → ℕ
  | .dir mode => 0o40000 + mode % 0o10000
  | .link _ => 0o120777
  | .file i => 0o100000 + (fs.inodes i).mode % 0o10000

def nodeSize (fs : FS) : Node → ℕ
  | .dir _ => hostDirSize
  | .link target => (Utf8.encode target).length
  | .file i => (fs.inodes i).bytes.length

def fileInfoFromOverlayMeta (fs : FS) (p : Path) (n : Node) : Info where
  mode := nodeMode fs n
  linkname := match n with
    | .link target => target
    | _ => []
  rest := ⟨nodeSize fs n,.overlay p⟩

def Config.lstat (fs : FS) (p : Path) : Option Node := (fs.lstat (c.hostPath p)).toOption

def overlayFileInfo (p : Path) : Option Info := (c.lstat s.host p).map (fileInfoFromOverlayMeta s.host p)

def rootFileInfo : Info := ⟨0o40777,[],⟨0,.member []⟩⟩

def lookup (p : Path) (version : ℤ) : Option Info :=
  if Reserved p then none
  else if p = [] then some rootFileInfo
  else if s.isDeleted p then none
  else match overlayFileInfo c s p with
    | some fi => some fi
    | none => c.base.lookup p version

/-- The names `list_deleted` hides below `d`: tombstones, and the database with its companions. -/
def hiddenIn (d : Path) (name : Str) : Bool :=
  (d ++ [name] ∈ s.tombstones : Bool) ||
    (["","-journal","-shm","-wal",".used"].any fun suf => name = hiddenDb ++ suf.toList) || name = overlayMarker

abbrev Listing (α : Type) := AList (fun _ : Str => α)

/-- Entries of the base in a listing, as it gives them or by name. -/
def baseEntries (d : Path) : List (Str × Info) :=
  match c.base.list d with
  | none => []
  | some (.infos entries) => entries
  | some (.names names) => names.filterMap fun name => (c.baseLookup (d ++ [name])).map (name,·)

def hostNames (d : Path) : List Str := ((s.host.readDir (c.hostPath d)).toOption).getD []

def mergeEntries {α : Type} (shown : Str → Bool) (entries : List (Str × α)) (m : Listing α) : Listing α :=
  entries.foldl (fun m e => if shown e.1 then m.insert e.1 e.2 else m) m

/-- A name of the directory that no tombstone and no reserved name hides. -/
def State.shows (d : Path) (name : Str) : Bool := !hiddenIn s d name && !isOverlayInternalName name

/-- The listing of `d`, what it keeps of each entry given by `info`. -/
def merged {α : Type} (d : Path) (fromBase : List (Str × α)) (info : Info → α) : Listing α :=
  mergeEntries (s.shows d)
    ((hostNames c s d).filterMap fun name => (overlayFileInfo c s (d ++ [name])).map fun fi => (name,info fi))
    (mergeEntries (s.shows d) fromBase ∅)

def listed {α : Type} (d : Path) (m : Listing α) : Option (Listing α) :=
  if d = [] ∨ m.keys ≠ [] ∨ c.baseIsDir d = true then some m else none

def list (d : Path) : Option (Listing Info) :=
  if Reserved d then none
  else if s.isDeleted d then none
  else listed c d (merged c s d (baseEntries c d) id)

/-! ## Entries below the root -/

abbrev Named (p : Path) : Prop := ∀ x ∈ p, FS.Plain x

theorem named_components (path : Str) : Named (components path) := fun x hx =>
  let h := Mount.components_proper path x hx
  ⟨h.ne_nil,h.ne_dot,h.ne_dotdot⟩

theorem named_hostPath {π : Type} (c : Config π) {p : Path} (h : Named p) : ∀x∈c.hostPath p,FS.Plain x := by
  intro x hx
  rcases List.mem_append.mp hx with hx | hx
  · exact c.plain x hx
  · exact h x hx

end Ratarmount.Overlay
