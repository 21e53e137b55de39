import Ratarmount.OverlayFrames

/-!
# Stages leave rows and tombstones alone

What an operation says about paths is recorded between its stages. The stages
themselves change the overlay folder, the descriptors and the policy's state.
-/

namespace Ratarmount.Overlay

open Programs
open Mount (Path components)
open Posix (FS Node Errno)

variable {π α : Type} {c : Config π} {f : Faults} {p q : Path}

def SameRecords (s s' : State π) : Prop := s'.files = s.files ∧ s'.tombstones = s.tombstones

instance : Carried (fun _ : State π => True) SameRecords where
  refl _ := ⟨rfl,rfl⟩
  trans h h' := ⟨h'.1.trans h.1,h'.2.trans h.2⟩
  stable _ _ := trivial

/-- The program leaves rows and tombstones alone. -/
abbrev Unrecorded (m : OpM π α) : Prop := Keeps (fun _ => True) SameRecords m

theorem ignoresGrowth_sameRecords : IgnoresGrowth (SameRecords (π := π)) := fun _ _ _ => ⟨rfl,rfl⟩

theorem ignoresPolicy_sameRecords : IgnoresPolicy (SameRecords (π := π)) := ignoresGrowth_sameRecords.policy

theorem unrecorded_modify {g : State π → State π} (h : ∀s,SameRecords s (g s)) : Unrecorded (modify g : OpM π Unit) :=
  fun s _ => h s

theorem unrecorded_hostCall (site : Site) (call : FS → Except Errno (α × FS)) :
    Unrecorded (hostCall f site call : OpM π α) := keeps_hostCall fun _ _ _ _ _ => ⟨rfl,rfl⟩

theorem unrecorded_hostDo (site : Site) (call : FS → Except Errno FS) : Unrecorded (hostDo f site call : OpM π Unit) :=
  unrecorded_hostCall site _

theorem unrecorded_createDirAll (site : Site) : Unrecorded (createDirAll c f site p) := keeps_createDirAll fun _ _ => ⟨rfl,rfl⟩

theorem copyFrame_sameRecords : CopyFrame c f (fun _ => True) SameRecords p where
  policy := ignoresPolicy_sameRecords
  parents := unrecorded_createDirAll
  dir _ _ _ := .bind (unrecorded_createDirAll _) (fun _ => unrecorded_hostDo _ _)
  link _ _ _ _ := unrecorded_hostDo _ _
  publish _ _ _ _ _ := unrecorded_hostCall _ _

theorem unrecorded_hostOpen (flags : FS.OpenFlags) (mode : ℕ) : Unrecorded (hostOpen c f p flags mode) :=
  unrecorded_hostCall _ _

theorem unrecorded_registerFd (h : Handle) : Unrecorded (registerFd h : OpM π Unit) :=
  unrecorded_modify fun _ => ⟨rfl,rfl⟩

theorem unrecorded_createHostFile (mode : ℕ) : Unrecorded (createHostFile c f p mode) := by
  refine .bind (unrecorded_hostOpen _ _) (fun ino => .bind (keeps_refuse _ _) (fun _ => .bind ?_ (fun _ => .pure _)))
  cases ino with
  | none => exact .pure _
  | some i => exact unrecorded_modify fun _ => ⟨rfl,rfl⟩

theorem unrecorded_checkMutation (op : Mutation) (ps : List Path) : Unrecorded (checkMutation c op ps) :=
  keeps_checkMutation ignoresPolicy_sameRecords op ps

theorem unrecorded_checkWrite (offset len current : ℕ) : Unrecorded (checkWrite c p offset len current) :=
  keeps_checkWrite ignoresPolicy_sameRecords p offset len current

theorem unrecorded_accounted {m : OpM π α} (ps : List Path) (h : Unrecorded m) : Unrecorded (accounted c ps m) :=
  keeps_accounted ignoresPolicy_sameRecords ps h

theorem unrecorded_ensureModifiableInner (hint : Option ℕ) : Unrecorded (ensureModifiableInner c f p hint) :=
  keeps_ensureModifiableInner copyFrame_sameRecords hint

theorem unrecorded_ensureParent : Unrecorded (ensureParent c f p) := keeps_ensureParent unrecorded_createDirAll

theorem unrecorded_createFile (mode : ℕ) : Unrecorded (createFile c f p mode) := by
  refine .bind (keeps_createFileInner ignoresPolicy_sameRecords unrecorded_createDirAll (unrecorded_createHostFile mode)) (fun _ => ?_)
  exact .bind (unrecorded_registerFd _) (fun _ => .pure _)

theorem unrecorded_openPrepare (flags : FdFlags) (mode : ℕ) : Unrecorded (openPrepare c f p flags mode) := by
  refine .bind ?_ (fun _ => .bind (keeps_observe _) (fun _ => .bind (keeps_refuse _ _) (fun _ => ?_)))
  · exact keeps_checkOpen ignoresPolicy_sameRecords flags
  · refine .bind (unrecorded_ensureModifiableInner _) (fun _ => .bind (keeps_liftHost _) (fun _ => ?_))
    exact keeps_createMissing ignoresPolicy_sameRecords unrecorded_createDirAll (unrecorded_createHostFile mode) flags

theorem unrecorded_openFinish (flags : FdFlags) (mode : ℕ) (created : Bool) :
    Unrecorded (openFinish c f p flags mode created) := by
  refine .bind (keeps_observe _) (fun _ => .bind (keeps_refuse _ _) (fun _ => .bind ?_ (fun _ => ?_)))
  · exact keeps_checkTrunc ignoresPolicy_sameRecords flags
  · refine .bind (unrecorded_accounted _ (unrecorded_hostOpen _ _)) (fun _ => ?_)
    exact .bind (unrecorded_registerFd _) (fun _ => .pure _)

theorem unrecorded_mkdir (mode : ℕ) : Unrecorded (mkdir c f p mode) := by
  refine .bind (unrecorded_checkMutation _ _) (fun _ => .bind unrecorded_ensureParent (fun _ => ?_))
  refine .bind (keeps_liftHost _) (fun _ => .bind (unrecorded_createDirAll _) (fun _ => ?_))
  exact .bind (unrecorded_hostDo _ _) (fun _ => .pure _)

theorem unrecorded_unlink : Unrecorded (unlink c f p) := by
  refine .bind (unrecorded_checkMutation _ _) (fun _ => .bind (unrecorded_accounted _ ?_) (fun _ => .pure _))
  exact .bind (keeps_observe _) (fun _ => .ite (fun _ => unrecorded_hostDo _ _) (fun _ => .pure _))

theorem unrecorded_rmdir : Unrecorded (rmdir c f p) := by
  refine .bind (unrecorded_checkMutation _ _) (fun _ => .bind (keeps_liftHost _) (fun _ => .bind keeps_refuseRmdir (fun _ => ?_)))
  refine .bind (.bind (keeps_observe _) (fun _ => ?_)) (fun _ => .pure _)
  exact .ite (fun _ => unrecorded_hostDo _ _) (fun _ => .pure _)

theorem unrecorded_setBytes (i : ℕ) (g : Bytes → Bytes) : Unrecorded (setBytes i g : OpM π Unit) :=
  unrecorded_modify fun _ => ⟨rfl,rfl⟩

theorem unrecorded_truncate (size : ℕ) : Unrecorded (truncate c f p size) := by
  refine .bind (unrecorded_checkMutation _ _) (fun _ => .bind (unrecorded_ensureModifiableInner _) (fun _ => ?_))
  refine .bind (keeps_liftHost _) (fun _ => .bind (unrecorded_hostOpen _ _) (fun _ => .bind ?_ (fun _ => .pure _)))
  exact keeps_truncateOpened ignoresGrowth_sameRecords unrecorded_setBytes _ _

theorem unrecorded_createSymlink (target : Str) : Unrecorded (createSymlink c f p target) := by
  refine .bind (unrecorded_checkMutation _ _) (fun _ => .bind (keeps_refuse _ _) (fun _ => ?_))
  refine .bind unrecorded_ensureParent (fun _ => .bind (keeps_liftHost _) (fun _ => .bind (keeps_observe _) (fun _ => ?_)))
  refine .bind (keeps_refuse _ _) (fun _ => .bind (unrecorded_createDirAll _) (fun _ => ?_))
  refine .bind (unrecorded_checkWrite _ _ _) (fun _ => .bind (unrecorded_accounted _ (unrecorded_hostDo _ _)) (fun _ => .pure _))

theorem unrecorded_rename : Unrecorded (rename c f p q) := by
  refine .bind (unrecorded_checkMutation _ _) (fun _ => .bind (keeps_refuse _ _) (fun _ => ?_))
  refine .bind unrecorded_ensureParent (fun _ => .bind (keeps_observe _) (fun _ => .bind (keeps_refuse _ _) (fun _ => ?_)))
  refine .bind (unrecorded_ensureModifiableInner _) (fun _ => .bind (keeps_liftHost _) (fun _ => ?_))
  refine .bind (keeps_liftHost _) (fun _ => .bind keeps_refuseRename (fun _ => .bind (unrecorded_createDirAll _) (fun _ => ?_)))
  refine .bind keeps_xattrsForPath (fun _ => .bind (unrecorded_accounted _ (unrecorded_hostDo _ _)) (fun _ => ?_))
  exact .bind (keeps_observe _) (fun _ => .pure _)

theorem unrecorded_cloneFd (fd : ℕ) : Unrecorded (cloneFd fd : OpM π Unit) := by
  intro s _
  rw [cloneFd]
  split <;> exact ⟨rfl,rfl⟩

theorem unrecorded_silent {m : OpM π Unit} (h : Unrecorded m) : Unrecorded (silent m) := .bind h (fun _ => .pure _)

theorem unrecorded_first (op : Op) : Unrecorded (opStages c f op).1 := by
  cases op with
  | createFile path mode => exact .bind (keeps_refuse _ _) (fun _ => unrecorded_createFile mode)
  | openFd path flags mode => exact .bind (keeps_refuse _ _) (fun _ => unrecorded_openPrepare flags mode)
  | mkdir path mode => exact .bind (keeps_refuse _ _) (fun _ => unrecorded_mkdir mode)
  | unlink path => exact .bind (keeps_refuse _ _) (fun _ => unrecorded_unlink)
  | rmdir path => exact .bind (keeps_refuse _ _) (fun _ => unrecorded_rmdir)
  | truncate path size => exact .bind (keeps_refuse _ _) (fun _ => unrecorded_truncate size)
  | createSymlink path target => exact .bind (keeps_refuse _ _) (fun _ => unrecorded_createSymlink target)
  | rename src dst => exact .bind (keeps_refuse _ _) (fun _ => .bind (keeps_refuse _ _) (fun _ => unrecorded_rename))
  | writeAt fd path offset data => exact unrecorded_silent (keeps_writeAt ignoresGrowth_sameRecords unrecorded_setBytes _ _ _ _)
  | truncateFile fd path size => exact unrecorded_silent (keeps_truncateFile ignoresGrowth_sameRecords unrecorded_setBytes _ _ _)
  | cloneFd fd => exact unrecorded_silent (unrecorded_cloneFd fd)
  | releaseFd fd => exact unrecorded_silent (keeps_releaseFd ignoresGrowth_sameRecords fun _ _ => ⟨rfl,rfl⟩)

theorem unrecorded_later (op : Op) (said : Option FilesOp) : ∀m∈(opStages c f op).2 said,Unrecorded m := by
  cases op with
  | openFd path flags mode =>
    intro m hm
    rw [List.mem_singleton.mp hm]
    exact unrecorded_openFinish flags mode _
  | _ =>
    intro m hm
    cases hm

end Ratarmount.Overlay
