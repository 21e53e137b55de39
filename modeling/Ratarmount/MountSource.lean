import Ratarmount.ArchivePaths

/-!
# Mount sources

What the compositing layers see of a source: entries by path and version, and
directory listings. Paths are lists of components behind `normpath`.
-/

namespace Ratarmount.Mount

open ArchivePath

/-- A normalized absolute path; the root has no components. -/
abbrev Path := List Str

def components (path : Str) : Path := collapseParts ('/' :: trimStartSlash path)

def fileType (mode : ℕ) : ℕ := mode / 0o10000 % 0o20

def isDirMode (mode : ℕ) : Bool := fileType mode = 0o4

def isLnkMode (mode : ℕ) : Bool := fileType mode = 0o12

structure FileInfo (ι : Type) where
  mode : ℕ
  linkname : Str
  rest : ι

/-- A child in a listing; its mode is 0 where the source lists names only. -/
structure Dirent where
  name : Str
  mode : ℕ
  proper : name ≠ [] ∧ '/' ∉ name

inductive ListResult (ι : Type)
  | infos (entries : List (Str × FileInfo ι))
  | names (names : List Str)

structure MountSource (ι : Type) where
  lookup : Path → ℤ → Option (FileInfo ι)
  versions : Path → ℕ
  list : Path → Option (ListResult ι)
  listDirents : Path → Option (List Dirent)
  isImmutable : Bool

def resolveSymlinkTarget (path : Path) (linkname : Str) : Path :=
  if linkname.head? = some '/' then components linkname
  else components (absolute path.dropLast ++ '/' :: linkname)

theorem components_proper (path : Str) : ∀c∈components path,ArchivePath.Proper c :=
  collapseParts_proper _

theorem components_join {p : Path} (h : ∀c∈p,ArchivePath.Proper c) : components (join p)=p := by
  have hstart : trimStartSlash (join p)=join p :=
    dropWhile_of_head (fun c hc => by simpa using head?_join h c hc)
  rw [components,hstart,collapseParts_join h]

end Ratarmount.Mount
