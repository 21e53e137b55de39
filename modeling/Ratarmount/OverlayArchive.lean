import Ratarmount.OverlayOps

/-!
# The members of an archive as a base

A TAR holds its members in order. The last member of a path counts, and a member
makes a directory of every path above it that has no member of its own.
-/

namespace Ratarmount.Overlay

open Mount (Path)
open Posix (FS)

abbrev Members := List (Path × Info)

def impliedDir : Info := ⟨0o40555,[],⟨0,.member []⟩⟩

def Members.lookup (ms : Members) (p : Path) : Option Info :=
  match ms.reverse.find? fun m => m.1 = p with
  | some m => some m.2
  | none => if p = [] ∨ ms.any fun m => p <+: m.1 then some impliedDir else none

def Members.names (ms : Members) (d : Path) : List Str :=
  (ms.filterMap fun m => if d <+: m.1 then (m.1.drop d.length).head? else none).dedup

def Members.entries (ms : Members) (d : Path) : List (Str × Info) :=
  (ms.names d).filterMap fun name => (ms.lookup (d ++ [name])).map (name,·)

def Members.isDir (ms : Members) (d : Path) : Bool := (ms.lookup d).any fun fi => Mount.isDirMode fi.mode

def dirent (name : Str) (mode : ℕ) : Option Mount.Dirent :=
  if h : name ≠ [] ∧ '/' ∉ name then some ⟨name,mode,h⟩ else none

def Members.source (ms : Members) : Base where
  lookup p _ := ms.lookup p
  versions p := if (ms.lookup p).isSome then 1 else 0
  list d := if ms.isDir d then some (.infos (ms.entries d)) else none
  listDirents d := if ms.isDir d then some ((ms.entries d).filterMap fun e => dirent e.1 e.2.mode) else none
  isImmutable := true

/-! ## A fresh overlay over an archive with one file -/

def memberA : Members := [(["a".toList],⟨0o100644,[],⟨1,.member [0x61]⟩⟩)]

def configA : Config Unit := ⟨memberA.source,[],by simp,false,none⟩

def freshState : State Unit := ⟨FS.empty,∅,∅,∅,0,∅,()⟩

def noFaults : Faults := ⟨fun _ => false,fun _ => 100,none,1000⟩

end Ratarmount.Overlay
