import Ratarmount.OverlayOps
import Ratarmount.StatePrograms

/-!
# What operations change, from what their calls change

An operation reads, asks the policy and makes a few calls on the overlay folder.
If those calls at its path keep a relation between states, the operation does.
-/

namespace Ratarmount.Overlay

open Programs Carried
open Mount (Path components)
open Posix (FS Node Errno)

variable {π α : Type} {c : Config π} {f : Faults} {A : State π → Prop} {R : State π → State π → Prop} [Carried A R]
  {p : Path}

/-- The relation does not see the policy's state. -/
def IgnoresPolicy (R : State π → State π → Prop) : Prop := ∀ s st, R s { s with policy := st }

variable {m : OpM π α} {fi : Info} {mode : ℕ}

theorem Keeps.unchanged (h : ∀s,final (m s)=s) : Keeps A R m := by
  intro s _
  rw [h s]
  exact refl A s

theorem keeps_observe (g : State π → α) : Keeps A R (observe g) := Keeps.unchanged fun _ => rfl

theorem keeps_refuse (b : Bool) (e : Errno) : Keeps A R (refuse b e) := .ite (fun _ => .throw _) (fun _ => .pure _)

theorem keeps_liftHost (g : FS → Except Errno α) : Keeps A R (liftHost g) := by
  refine Keeps.unchanged fun s => ?_
  rw [liftHost]
  cases g s.host <;> rfl

omit [Carried A R] in
theorem keeps_runPolicy (h : IgnoresPolicy R) [Carried A R] (call : Policy π → FS → π → Except Errno Unit × π) :
    Keeps A R (runPolicy c call) := by
  intro s _
  rw [runPolicy]
  cases c.policy with
  | none => exact refl A s
  | some pol =>
    dsimp only
    rcases call pol s.host s.policy with ⟨e | u,st⟩ <;> exact h s st

theorem keeps_account (h : IgnoresPolicy R) (g : Policy π → π → π) : Keeps A R (account c g) := by
  intro s _
  rw [account]
  cases c.policy with
  | none => exact refl A s
  | some pol => exact h s _

theorem keeps_checkMutation (h : IgnoresPolicy R) (op : Mutation) (ps : List Path) : Keeps A R (checkMutation c op ps) :=
  .bind (keeps_refuse _ _) (fun _ => keeps_runPolicy h _)

theorem keeps_checkWrite (h : IgnoresPolicy R) (q : Path) (offset len current : ℕ) :
    Keeps A R (checkWrite c q offset len current) :=
  keeps_runPolicy h _

omit [Carried A R] in
theorem dropGuards_policy (pol : Policy π) (before : List (Path × Option ℕ)) (s : State π) :
    ∃st,dropGuards c pol before s={ s with policy := st } := by
  rw [dropGuards]
  induction before.reverse generalizing s with
  | nil => exact ⟨s.policy,rfl⟩
  | cons b bs ih =>
    obtain ⟨st,hst⟩:=ih { s with policy:=settle pol b.1 b.2 (policyFileSize c s.host b.1) s.policy }
    exact ⟨st,hst⟩

omit [Carried A R] in
theorem triple_accounted {P E : State π → Prop} {Q : α → State π → Prop} (ps : List Path)
    (hQ : ∀a s st,Q a s → Q a { s with policy := st }) (hE : ∀s st,E s → E { s with policy := st })
    (hm : Triple P m Q E) : Triple P (accounted c ps m) Q E := by
  intro s hs
  have hms:=hm s hs
  rw [accounted]
  cases c.policy with
  | none => exact hms
  | some pol =>
    have hdrop:=dropGuards_policy (c:=c) pol (ps.map fun p => (p,policyFileSize c s.host p))
    cases hr : m s with
    | ok a s' =>
      rw [hr] at hms
      obtain ⟨st,hst⟩:=hdrop s'
      dsimp only
      rw [hst]
      exact hQ a s' st hms
    | error e s' =>
      rw [hr] at hms
      obtain ⟨st,hst⟩:=hdrop s'
      dsimp only
      rw [hst]
      exact hE s' st hms

theorem keeps_accounted (h : IgnoresPolicy R) (ps : List Path) (hm : Keeps A R m) : Keeps A R (accounted c ps m) := by
  intro s hs
  have hkept : ∀t st,R s t → R s { t with policy:=st } := fun t st ht => trans A ht (h t st)
  refine (triple_accounted ps (fun _ => hkept) hkept ?_).final (P := (·=s)) rfl
  exact .of_final fun t ht => ht ▸ hm s hs

omit [Carried A R] in
theorem runOps_cons (op : Op) (f : Faults) (ops : List (Op × Faults)) (s : State π) :
    runOps c ((op,f)::ops) s=runOps c ops (final (perform c f op s)) := by
  rw [runOps]
  cases perform c f op s <;> rfl

/-! ## Calls on the folder -/

section Calls

variable {P E : State π → Prop} {Q : α → State π → Prop} {site : Site} {call : FS → Except Errno (α × FS)}

theorem keeps_hostCall (h : ∀s,A s→∀a fs,call s.host = .ok (a,fs) → R s { s with host := fs }) :
    Keeps A R (hostCall f site call) := by
  intro s hs
  rw [hostCall]
  split_ifs
  · exact refl A s
  · cases hr : call s.host with
    | error e => exact refl A s
    | ok res => exact h s hs res.1 res.2 hr

omit [Carried A R] in
theorem triple_hostCall (hE : ∀t,P t → E t) (h : ∀t a fs,P t → call t.host = .ok (a,fs) → Q a { t with host := fs }) :
    Triple P (hostCall f site call) Q E := by
  intro t ht
  rw [hostCall]
  split_ifs
  · exact hE t ht
  · cases hr : call t.host with
    | error e => exact hE t ht
    | ok res => exact h t res.1 res.2 ht hr

omit [Carried A R] in
theorem map_unit_ok {r : Except Errno FS} {u : Unit} {fs : FS} (h : (r.map fun fs => ((),fs)) = .ok (u,fs)) :
    r = .ok fs := by
  cases r with
  | error e => cases h
  | ok fs' =>
    cases h
    rfl

omit [Carried A R] in
theorem triple_hostDo {call : FS → Except Errno FS} {Q : Unit → State π → Prop} (hE : ∀t,P t → E t)
    (h : ∀t fs,P t → call t.host = .ok fs → Q () { t with host := fs }) : Triple P (hostDo f site call) Q E :=
  triple_hostCall hE fun t _ fs ht hr => h t fs ht (map_unit_ok hr)

omit [Carried A R] in
theorem keeps_createDirAll (h : ∀s,A s → R s { s with host := (s.host.createDirAll (f.room site) (c.hostPath p)).2 }) :
    Keeps A R (createDirAll c f site p) := by
  intro s hs
  have hs':=h s hs
  rw [createDirAll]
  rcases hr : s.host.createDirAll (f.room site) (c.hostPath p) with ⟨e | u,fs⟩ <;> rw [hr] at hs' <;> exact hs'

end Calls

/-! ## Copies -/

/-- The calls that a copy of the base's entry at `p` makes. -/
structure CopyFrame (c : Config π) (f : Faults) (A : State π → Prop) (R : State π → State π → Prop) (p : Path) : Prop where
  policy : IgnoresPolicy R
  parents : ∀ site, Keeps A R (createDirAll c f site p.dropLast)
  dir : ∀ fi, c.baseLookup p = some fi → Mount.isDirMode fi.mode = true → Keeps A R (copyDir c f p fi)
  link : ∀ fi, c.baseLookup p = some fi → Mount.isDirMode fi.mode = false → Mount.isLnkMode fi.mode = true →
    Keeps A R (hostDo f .link fun fs => fs.symlink fi.linkname (c.hostPath p))
  publish : ∀ fi hint, c.baseLookup p = some fi → Mount.isDirMode fi.mode = false → Mount.isLnkMode fi.mode = false →
    Keeps A R (hostCall f .publish (publishStaged c p (hintedBytes fi hint) (fi.mode % 0o10000)))

def OnCopy (R : State π → State π → Prop) (s s' : State π × ℕ) : Prop := R s.1 s'.1

instance : Carried (fun s : State π × ℕ => A s.1) (OnCopy R) where
  refl s := refl A s.1
  trans h h' := trans A h h'
  stable h h' := stable (R := R) h h'

omit [Carried A R] in
theorem keeps_lift (h : Keeps A R m) : Keeps (fun s => A s.1) (OnCopy R) (CopyM.lift m) := by
  intro s hs
  have hm:=h s.1 hs
  rw [CopyM.lift]
  cases hr : m s.1 <;> rw [hr] at hm <;> exact hm

theorem keeps_copyRefuse (b : Bool) (e : Errno) : Keeps (fun s => A s.1) (OnCopy R) (CopyM.refuse b e) :=
  .ite (fun _ => .throw _) (fun _ => .pure _)

theorem keeps_topUpTo (h : IgnoresPolicy R) (e : ℕ) : Keeps (fun s => A s.1) (OnCopy R) (topUpTo c p e) := by
  intro s hs
  rw [topUpTo]
  split_ifs
  · have hm:=keeps_lift (Keeps.bind (A:=A) (keeps_checkWrite (c:=c) h p 0 e s.2)
      (fun _ => keeps_account (c := c) h fun pol => pol.bytesChanged p (e-s.2) 0)) s hs
    split <;> rename_i heq <;> rw [heq] at hm <;> exact hm
  · exact refl A s.1

theorem keeps_topUp (h : IgnoresPolicy R) (ends : List ℕ) : Keeps (fun s => A s.1) (OnCopy R) (topUp c p ends) := by
  induction ends with
  | nil => exact .pure _
  | cons e ends ih => exact .bind (keeps_topUpTo h _) (fun _ => ih)

theorem keeps_settleCopy (h : IgnoresPolicy R) (length : ℕ) : Keeps (fun s => A s.1) (OnCopy R) (settleCopy c p length) :=
  fun s hs => keeps_lift (Keeps.bind (A := A) (keeps_account h _) (fun _ => keeps_account h _)) (s.1,0) hs

theorem keeps_stageIn : Keeps A R (stageIn c f p) := .bind (keeps_refuse _ _) (fun _ => keeps_liftHost _)

theorem keeps_copyReserved (h : IgnoresPolicy R) {hint : Option ℕ}
    (hpub : Keeps A R (hostCall f .publish (publishStaged c p (hintedBytes fi hint) (fi.mode % 0o10000)))) :
    Keeps (fun s => A s.1) (OnCopy R) (copyReserved c f p fi hint) := by
  refine .bind (keeps_copyRefuse _ _) (fun _ => .bind (keeps_lift keeps_stageIn) (fun _ => .bind (keeps_topUp h _) (fun _ => ?_)))
  refine .bind (keeps_copyRefuse _ _) (fun _ => .bind (keeps_copyRefuse _ _) (fun _ => .bind (keeps_copyRefuse _ _) (fun _ => ?_)))
  refine .bind (keeps_lift (keeps_liftHost _)) (fun _ => .bind (keeps_lift hpub) (fun _ => ?_))
  exact .ite (fun _ => .bind (keeps_settleCopy h _) (fun _ => keeps_copyRefuse _ _)) (fun _ => .pure _)

theorem keeps_withReservation (h : IgnoresPolicy R) {m : CopyM π Unit} (bytes : ℕ)
    (hm : Keeps (fun s => A s.1) (OnCopy R) m) : Keeps A R (withReservation c p bytes m) := by
  refine .bind (keeps_account h _) (fun _ s hs => ?_)
  have hms:=hm (s,bytes) hs
  cases hr : m (s,bytes) with
  | ok u s' =>
    rw [hr] at hms
    exact trans A hms (keeps_account h _ s'.1 (stable hs hms))
  | error e s' =>
    rw [hr] at hms
    exact trans A hms (Keeps.bind (keeps_account h _) (fun _ => Keeps.throw e) s'.1 (stable hs hms))

theorem keeps_copyLink (h : Keeps A R (hostDo f .link fun fs => fs.symlink fi.linkname (c.hostPath p))) :
    Keeps A R (copyLink c f p fi) :=
  .bind h (fun _ => keeps_refuse _ _)

theorem keeps_copyFile
    (hpub : Keeps A R (hostCall f .publish (publishStaged c p (memberBytes fi) (fi.mode % 0o10000)))) :
    Keeps A R (copyFile c f p fi) := by
  refine .bind (keeps_refuse _ _) (fun _ => .bind keeps_stageIn (fun _ => .bind (keeps_refuse _ _) (fun _ => ?_)))
  exact .bind (keeps_refuse _ _) (fun _ => .bind hpub (fun _ => keeps_refuse _ _))

theorem keeps_ensureParent (h : ∀site,Keeps A R (createDirAll c f site p.dropLast)) : Keeps A R (ensureParent c f p) := by
  refine .ite (fun _ => .pure _) (fun _ => .bind (keeps_liftHost _) (fun _ => .bind (keeps_observe _) (fun missing => ?_)))
  exact .ite (fun _ => h _) (fun _ => .pure _)

theorem keeps_copyUp (hf : CopyFrame c f A R p) {copy : Info → OpM π Unit}
    (h : ∀fi,c.baseLookup p=some fi → Keeps A R (copy fi)) : Keeps A R (copyUp c f p copy) := by
  refine .bind (keeps_refuse _ _) (fun _ => .bind (keeps_liftHost _) (fun _ => .bind (keeps_observe _) (fun there => ?_)))
  refine .ite (fun _ => .pure _) (fun _ => .bind (keeps_checkMutation hf.policy _ _) (fun _ => ?_))
  refine .bind (keeps_ensureParent hf.parents) (fun _ => ?_)
  cases hfi : c.baseLookup p with
  | none => exact .pure _
  | some fi => exact h fi hfi

theorem keeps_ensureModifiableInner (hf : CopyFrame c f A R p) (hint : Option ℕ) :
    Keeps A R (ensureModifiableInner c f p hint) := by
  refine .ite (fun _ => keeps_copyUp hf (fun fi hfi => ?_)) (fun _ => keeps_copyUp hf (fun fi hfi => ?_))
  · refine .ite (fun hd => hf.dir fi hfi hd) (fun hd => .ite (fun hl => ?_) (fun hl => ?_))
    · exact .bind (keeps_checkWrite hf.policy _ _ _ _)
        (fun _ => keeps_accounted hf.policy _ (keeps_copyLink (hf.link fi hfi (by simpa using hd) hl)))
    · refine .bind (keeps_checkMutation hf.policy _ _) (fun _ => .bind (keeps_checkWrite hf.policy _ _ _ _) (fun _ => ?_))
      exact keeps_withReservation hf.policy _
        (keeps_copyReserved hf.policy (hf.publish fi hint hfi (by simpa using hd) (by simpa using hl)))
  · refine .ite (fun hd => hf.dir fi hfi hd) (fun hd => .ite (fun hl => ?_) (fun hl => ?_))
    · exact .bind (hf.parents _) (fun _ => keeps_copyLink (hf.link fi hfi (by simpa using hd) hl))
    · exact keeps_copyFile (hf.publish fi none hfi (by simpa using hd) (by simpa using hl))

/-! ## Created files -/

theorem keeps_createFileInner (h : IgnoresPolicy R) (hp : ∀site,Keeps A R (createDirAll c f site p.dropLast))
    (hc : Keeps A R (createHostFile c f p mode)) : Keeps A R (createFileInner c f p mode) := by
  refine .bind (keeps_refuse _ _) (fun _ => .bind (keeps_refuse _ _) (fun _ => .bind (keeps_checkMutation h _ _) (fun _ => ?_)))
  refine .bind (keeps_ensureParent hp) (fun _ => .bind (keeps_liftHost _) (fun _ => .bind (keeps_liftHost _) (fun _ => ?_)))
  refine .bind (hp _) (fun _ => .bind (keeps_observe _) (fun _ => .bind (keeps_checkWrite h _ _ _ _) (fun _ => ?_)))
  exact keeps_accounted h _ hc

theorem keeps_createMissing (h : IgnoresPolicy R) (hp : ∀site,Keeps A R (createDirAll c f site p.dropLast))
    (hc : Keeps A R (createHostFile c f p mode)) (flags : FdFlags) : Keeps A R (createMissing c f p flags mode) := by
  refine .bind (keeps_observe _) (fun there => .ite (fun _ => ?_) (fun _ => .pure _))
  exact .bind (keeps_createFileInner h hp hc) (fun _ => .pure _)

/-! ## Checks -/

theorem keeps_checkOpen (h : IgnoresPolicy R) (flags : FdFlags) : Keeps A R (checkOpen c p flags) :=
  .ite (fun _ => .bind (keeps_refuse _ _) (fun _ => keeps_checkMutation h _ _)) (fun _ => .pure _)

theorem keeps_checkTrunc (h : IgnoresPolicy R) (flags : FdFlags) : Keeps A R (checkTrunc c p flags) := by
  refine .ite (fun _ => .bind (keeps_checkMutation h _ _) (fun _ => ?_)) (fun _ => .pure _)
  exact .bind (keeps_observe _) (fun _ => keeps_checkWrite h _ _ _ _)

theorem keeps_refuseRmdir : Keeps A R (refuseRmdir c p) := by
  refine .bind (keeps_observe _) (fun _ => .bind (keeps_refuse _ _) (fun _ => .bind (keeps_refuse _ _) (fun _ => ?_)))
  exact .bind (keeps_observe _) (fun _ => keeps_refuse _ _)

theorem keeps_refuseRename {q : Path} : Keeps A R (refuseRename c p q) := by
  refine .bind (keeps_observe _) (fun _ => .bind (keeps_refuse _ _) (fun _ => ?_))
  exact .bind (keeps_observe _) (fun _ => keeps_refuse _ _)

theorem keeps_xattrsForPath : Keeps A R (xattrsForPath c f p) :=
  .bind (keeps_observe _) (fun _ => .bind (keeps_refuse _ _) (fun _ => keeps_refuse _ _))

/-! ## Descriptors -/

/-- Nor does it see the growth of unlinked files. -/
def IgnoresGrowth (R : State π → State π → Prop) : Prop := ∀ s growth st, R s { s with growth := growth, policy := st }

omit [Carried A R] in
theorem IgnoresGrowth.policy (h : IgnoresGrowth R) : IgnoresPolicy R := fun s st => h s s.growth st

omit [Carried A R] in
theorem IgnoresGrowth.account (h : IgnoresGrowth R) (g : Policy π → π → π) (s : State π)
    (growth : AList (fun _ : ℕ => Path × ℕ)) : R s (final (account c g { s with growth := growth })) := by
  rw [Overlay.account]
  cases c.policy with
  | none => exact h s growth s.policy
  | some pol => exact h s growth _

theorem keeps_accountInode (h : IgnoresGrowth R) (i added removed : ℕ) (quiet : Bool) :
    Keeps A R (accountInode c i p added removed quiet) := by
  intro s _
  rw [accountInode]
  split_ifs
  · exact refl A s
  · exact h.account _ s _
  · exact refl A s
  · exact h.account _ s s.growth

theorem keeps_writeInode (h : IgnoresGrowth R) {i : ℕ} (hi : ∀g,Keeps A R (setBytes i g)) (write : Bool) (offset : ℕ)
    (data : Bytes) (before : ℕ) : Keeps A R (writeInode c f i write p offset data before) := by
  refine .bind (keeps_checkWrite h.policy _ _ _ _) (fun _ => .bind (keeps_refuse _ _) (fun _ => ?_))
  exact .bind (hi _) (fun _ => keeps_accountInode h _ _ _ _)

theorem keeps_truncateInode (h : IgnoresGrowth R) {i : ℕ} (hi : ∀g,Keeps A R (setBytes i g)) (write : Bool) (size : ℕ) :
    Keeps A R (truncateInode c f i write p size) := by
  refine .bind (keeps_checkMutation h.policy _ _) (fun _ => .bind (keeps_observe _) (fun _ => ?_))
  refine .bind (keeps_checkWrite h.policy _ _ _ _) (fun _ => .bind (keeps_refuse _ _) (fun _ => ?_))
  exact .bind (hi _) (fun _ => keeps_accountInode h _ _ _ _)

theorem keeps_truncateOpened (h : IgnoresGrowth R) (hi : ∀i g,Keeps A R (setBytes i g)) (size : ℕ) (ino : Option ℕ) :
    Keeps A R (truncateOpened c f p size ino) := by
  cases ino with
  | none => exact .throw _
  | some i => exact keeps_truncateInode h (hi i) _ _

theorem keeps_fdInode (fd : ℕ) : Keeps A R (fdInode fd : OpM π (ℕ × Handle)) := by
  refine Keeps.unchanged fun s => ?_
  rw [fdInode]
  split <;> rfl

theorem keeps_writeAt (h : IgnoresGrowth R) (hi : ∀i g,Keeps A R (setBytes i g)) (fd : ℕ) (path : Str) (offset : ℕ)
    (data : Bytes) : Keeps A R (writeAt c f fd path offset data) := by
  refine .bind (keeps_refuse _ _) (fun _ => .bind (keeps_checkMutation h.policy _ _) (fun _ => ?_))
  exact .bind (keeps_fdInode _) (fun _ => .bind (keeps_observe _) (fun _ => keeps_writeInode h (hi _) _ _ _ _))

theorem keeps_truncateFile (h : IgnoresGrowth R) (hi : ∀i g,Keeps A R (setBytes i g)) (fd : ℕ) (path : Str) (size : ℕ) :
    Keeps A R (truncateFile c f fd path size) :=
  .bind (keeps_refuse _ _) (fun _ => .bind (keeps_fdInode _) (fun _ => keeps_truncateInode h (hi _) _ _))

theorem keeps_releaseFd (h : IgnoresGrowth R) {fd : ℕ} (herase : ∀s,A s → R s { s with fds := s.fds.erase fd }) :
    Keeps A R (releaseFd c fd) := by
  intro s hs
  have hs':=herase s hs
  rw [releaseFd]
  split
  · rw [releaseGrowth]
    split_ifs
    · exact hs'
    · split
      · exact trans A hs' (h.account _ { s with fds := _ } _)
      · exact hs'
  · exact hs'

end Ratarmount.Overlay
