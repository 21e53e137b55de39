import Mathlib.Order.Nat
import Ratarmount.NfsReads

/-!
# NFS reads after a change

Along careful runs a slot is never older than the last change of its file whose call has
dropped the reader, and a `FileInfo` in the hands of a READ never older than any change.
An id that was replaced keeps its stale path, so that a READ of it ends at the check.
-/

namespace Ratarmount.Nfs

open Function Option Export

section Changes

def Gone (s : Export) (id : FileId) : Prop := s.pathForId id = some ⟨some id,[]⟩

/-- A READ behind the check is due no later than its reader is fresh. -/
def ReadOk (s : Export) (id : FileId) (due : Due) : ReadAt → Prop
  | .loadGeneration path false | .fetchMax path false _ | .clearSlots path false | .clearInfos path false | .check path =>
    (path = ⟨some id,[]⟩ ∧ s.overlay = true) ∨ due.change ≤ s.history.dropped id
  | .checkLookup _ | .cached _ | .clearTagged _ => s.overlay = false ∧ due.change ≤ s.history.dropped id
  | .store fi | .open fi => due.change ≤ s.history.dropped id ∧ s.history.changed id ≤ fi.lookedUp
  | .insert slot => due.change ≤ s.history.dropped id ∧ s.history.changed id ≤ slot.since
  | .fill slot => due.change ≤ slot.since
  | _ => due.change ≤ s.history.dropped id

structure Moving (s : Export) (id : FileId) (target : Path) : Prop where
  target : target.names ≠ []
  known : (s.inodes id).isSome = true
  there : ¬ Gone s id

def ChangeOk (s : Export) : ChangeAt → Prop
  | .removeId path => path.names ≠ []
  | .renameTo source _ _ => source.names ≠ []
  | .renameId source target => source.names ≠ [] ∧ target.names ≠ []
  | .renameDest id _ target | .dropDest id _ _ target | .clearDest id _ _ target | .renameEntry id _ target =>
    Moving s id target
  | .rebind id target changed => Moving s id target ∧ changed ≤ s.history.changed id
  | .invalidate id dest changed => changed ≤ s.history.changed id ∧ ∀ d, dest = some d → Gone s d
  | .clearInfo id dest changed => changed ≤ s.history.dropped id ∧ ∀ d, dest = some d → Gone s d
  | _ => True

structure ChangeInv (s : Export) : Prop where
  overlay : s.overlay = false → (∀ id, s.history.returned id = 0 ∧ s.history.replaced id = 0 ∧ s.history.changed id = 0) ∧
    ∀ call at_, s.calls call ≠ some (.change at_)
  times : ∀ id, s.history.returned id ≤ s.history.dropped id ∧ s.history.dropped id ≤ s.history.changed id ∧
    s.history.changed id ≤ s.clock
  slots : ∀ id slot, s.slots id = some slot → s.history.dropped id ≤ slot.since
  ids : ∀ path id, s.pathToId path = some id → s.pathForId id = some path
  known : ∀ id, (s.inodes id).isSome = true → id < s.nextId
  replaced : ∀ id, s.history.replaced id ≠ 0 → Gone s id
  reads : ∀ call id due at_, s.calls call = some (.read id due at_) → ReadOk s id due at_
  changes : ∀ call at_, s.calls call = some (.change at_) → ChangeOk s at_

variable {s s' : Export}

variable {id : FileId} {due : Due} {at_ : ChangeAt} {files : Path → Option Entry} {changed : ℕ} {path : Path}
  {choice : Choice}

theorem ReadOk.mono {at_ : ReadAt} (h : ReadOk s id due at_) (hoverlay : s'.overlay=s.overlay)
    (hdropped : s.history.dropped id ≤ s'.history.dropped id)
    (hchanged : at_.inHand=none ∨ s'.history.changed id ≤ s.history.changed id) : ReadOk s' id due at_ := by
  have hlate : due.change ≤ s.history.dropped id → due.change ≤ s'.history.dropped id:=fun hle => le_trans hle hdropped
  have hpath : ∀path : Path,((path=⟨some id,[]⟩ ∧ s.overlay=true) ∨ due.change ≤ s.history.dropped id) →
      (path=⟨some id,[]⟩ ∧ s'.overlay=true) ∨ due.change ≤ s'.history.dropped id := by
    intro path hor
    rw [hoverlay]
    exact hor.imp_right hlate
  cases at_ with
  | loadGeneration _ second | fetchMax _ second _ | clearSlots _ second | clearInfos _ second =>
    cases second
    · exact hpath _ h
    · exact hlate h
  | check path => exact hpath _ h
  | checkLookup _ | cached _ | clearTagged _ => exact ⟨hoverlay.trans h.1,hlate h.2⟩
  | slot | path | lookup _ => exact hlate h
  | store _ | «open» _ | insert _ => exact ⟨hlate h.1,le_trans (hchanged.resolve_left nofun) h.2⟩
  | fill new => exact h

theorem ChangeOk.mono (h : ChangeOk s at_)
    (hmoving : ∀id target,at_.moving=some id → Moving s id target → Moving s' id target)
    (hgone : ∀id,Gone s id → Gone s' id) (hchanged : ∀id,s.history.changed id ≤ s'.history.changed id)
    (hdropped : ∀id,s.history.dropped id ≤ s'.history.dropped id) : ChangeOk s' at_ := by
  cases at_ with
  | removeId _ | renameTo _ _ _ | renameId _ _ => exact h
  | renameDest _ _ _ | dropDest _ _ _ _ | clearDest _ _ _ _ | renameEntry _ _ _ => exact hmoving _ _ rfl h
  | rebind id target changed => exact ⟨hmoving _ _ rfl h.1,le_trans h.2 (hchanged id)⟩
  | invalidate id dest changed => exact ⟨le_trans h.1 (hchanged id),fun d hd => hgone d (h.2 d hd)⟩
  | clearInfo id dest changed => exact ⟨le_trans h.1 (hdropped id),fun d hd => hgone d (h.2 d hd)⟩
  | _ => trivial

theorem isSome_pathForId (s : Export) (id : FileId) : (s.pathForId id).isSome=(s.inodes id).isSome := isSome_map

theorem Moving.of_path {target : Path} (h : Moving s id target) (hpath : s'.pathForId id=s.pathForId id) :
    Moving s' id target := by
  refine ⟨h.target,?_,by rw [Gone,hpath]; exact h.there⟩
  rw [←isSome_pathForId,hpath,isSome_pathForId]
  exact h.known

theorem ChangeOk.same (h : ChangeOk s at_) (hpaths : ∀id,s'.pathForId id=s.pathForId id)
    (hchanged : s'.history.changed=s.history.changed) (hdropped : s'.history.dropped=s.history.dropped) :
    ChangeOk s' at_ := by
  apply h.mono
  · exact fun id _ _ hm => hm.of_path (hpaths id)
  · exact fun id hgone => (hpaths id).trans hgone
  · intro id
    rw [hchanged]
  · intro id
    rw [hdropped]

variable (h : ChangeInv s)
include h

/-- Tables that lose entries, or gain a slot that is fresh, and the same paths. -/
theorem ChangeInv.frame (hoverlay : s'.overlay=s.overlay) (hcalls : s'.calls=s.calls)
    (hhistory : ∃committed,s'.history={ s.history with committed := committed }) (hclock : s.clock ≤ s'.clock)
    (hids : s'.pathToId=s.pathToId) (hnext : s'.nextId=s.nextId) (hpaths : ∀id,s'.pathForId id=s.pathForId id)
    (hslots : ∀id slot,s'.slots id=some slot → s.slots id=some slot ∨ s.history.dropped id ≤ slot.since) :
    ChangeInv s' := by
  obtain ⟨committed,hhistory⟩:=hhistory
  cases s'
  subst hoverlay hcalls hhistory hids hnext
  refine ⟨h.overlay,?_,?_,?_,?_,?_,?_,?_⟩
  · intro id
    obtain ⟨hret,hdrop,hchange⟩:=h.times id
    exact ⟨hret,hdrop,le_trans hchange hclock⟩
  · intro id slot hslot
    rcases hslots id slot hslot with hold | hnew
    · exact h.slots id slot hold
    · exact hnew
  · intro path id hid
    rw [hpaths]
    exact h.ids path id hid
  · intro id hid
    rw [←isSome_pathForId,hpaths,isSome_pathForId] at hid
    exact h.known id hid
  · intro id hid
    exact (hpaths id).trans (h.replaced id hid)
  · intro call id due at_ hcall
    exact (h.reads call id due at_ hcall).mono rfl le_rfl (.inr le_rfl)
  · intro call at_ hcall
    exact (h.changes call at_ hcall).same hpaths rfl rfl

def CallOk (s : Export) : Call → Prop
  | .read id due at_ => ReadOk s id due at_
  | .change at_ => s.overlay = true ∧ ChangeOk s at_

/-- One call goes on, or ends. -/
theorem ChangeInv.call (call : ℕ) {new : Option Call} (hok : ∀c,new=some c → CallOk s c) :
    ChangeInv { s with calls := update s.calls call new } := by
  refine ⟨?_,h.times,h.slots,h.ids,h.known,h.replaced,?_,?_⟩
  · intro hoverlay
    obtain ⟨hzero,hnone⟩:=h.overlay hoverlay
    refine ⟨hzero,?_⟩
    intro other at' hcall
    rcases update_cases hcall with ⟨-,hnew⟩ | hold
    · have htrue:=(hok _ hnew).1
      rw [hoverlay] at htrue
      cases htrue
    · exact hnone other at' hold
  · intro other id due at_ hcall
    rcases update_cases hcall with ⟨-,hnew⟩ | hold
    · exact hok _ hnew
    · exact h.reads other id due at_ hold
  · intro other at_ hcall
    rcases update_cases hcall with ⟨-,hnew⟩ | hold
    · exact (hok _ hnew).2.same (fun _ => rfl) rfl rfl
    · exact (h.changes other at_ hold).same (fun _ => rfl) rfl rfl

theorem ChangeInv.goto (call : ℕ) {c : Call} (hok : CallOk s c) : ChangeInv (s.goto call c) := by
  apply h.call
  intro c' hc'
  cases hc'
  exact hok

theorem ChangeInv.finish (call : ℕ) : ChangeInv (s.finish call) := h.call call nofun

omit h in
theorem pathForId_setInfo (s : Export) (id : FileId) (fi : Option FileInfo) (id' : FileId) :
    (s.setInfo id fi).pathForId id'=s.pathForId id' := by
  rw [setInfo]
  cases hinode : s.inodes id with
  | none => rfl
  | some inode =>
    by_cases hid : id'=id
    · subst hid
      simp [pathForId,hinode]
    · simp [pathForId,update_of_ne hid]

omit h in
theorem setInfo_eq (s : Export) (id : FileId) (fi : Option FileInfo) :
    ∃inodes,s.setInfo id fi={ s with inodes := inodes } := by
  rw [setInfo]
  cases s.inodes id with
  | none => exact ⟨s.inodes,rfl⟩
  | some inode => exact ⟨_,rfl⟩

theorem ChangeInv.setInfo (id : FileId) (fi : Option FileInfo) : ChangeInv (s.setInfo id fi) := by
  have hpaths:=pathForId_setInfo s id fi
  obtain ⟨inodes,heq⟩:=setInfo_eq s id fi
  rw [heq] at hpaths ⊢
  exact h.frame rfl rfl ⟨s.history.committed,rfl⟩ le_rfl rfl rfl hpaths fun _ _ hslot => .inl hslot

/-- An overlay call changes the file while no READ has it in hand. -/
theorem ChangeInv.change (hoverlay : s.overlay=true)
    (hhand : ∀call due at_,s.calls call=some (.read id due at_) → at_.inHand=none) :
    ChangeInv (s.change id files) := by
  have hle:=le_update_self_iff.mpr (h.times id).2.2
  have hclock : (s.change id files).history.changed≤fun _ => s.clock :=
    update_le_iff.mpr ⟨le_rfl,fun id' _ => (h.times id').2.2⟩
  refine ⟨?_,?_,h.slots,h.ids,h.known,h.replaced,?_,?_⟩
  · intro hfalse
    change s.overlay=false at hfalse
    rw [hoverlay] at hfalse
    cases hfalse
  · intro id'
    obtain ⟨hret,hdrop,-⟩:=h.times id'
    exact ⟨hret,le_trans hdrop (hle id'),hclock id'⟩
  · intro call id' due at_ hcall
    refine ReadOk.mono (h.reads call id' due at_ hcall) rfl le_rfl ?_
    change _ ∨ update s.history.changed id s.clock id'≤_
    by_cases hid : id'=id
    · subst hid
      exact .inl (hhand call due at_ hcall)
    · rw [update_of_ne hid]
      exact .inr le_rfl
  · intro call at_ hcall
    exact (h.changes call at_ hcall).mono (fun _ _ _ hm => hm.of_path rfl) (fun _ hg => hg) hle
      (fun _ => le_rfl)

/-- The slot goes after the change. -/
theorem ChangeInv.invalidate (hchanged : changed ≤ s.history.changed id) : ChangeInv (s.invalidate id changed) := by
  have hle : s.history.dropped≤(s.invalidate id changed).history.dropped:=le_update_self_iff.mpr (le_max_left _ _)
  have hbound:=update_le_iff.mpr ⟨Nat.max_le.mpr ⟨(h.times id).2.1,hchanged⟩,fun id' _ => (h.times id').2.1⟩
  refine ⟨h.overlay,?_,?_,h.ids,h.known,h.replaced,?_,?_⟩
  · intro id'
    obtain ⟨hret,-,hclock⟩:=h.times id'
    exact ⟨le_trans hret (hle id'),hbound id',hclock⟩
  · intro id' slot hslot
    change update s.slots id none id'=some slot at hslot
    change update s.history.dropped id (max (s.history.dropped id) changed) id'≤_
    by_cases hid : id'=id
    · subst hid
      rw [update_self] at hslot
      cases hslot
    · rw [update_of_ne hid] at hslot ⊢
      exact h.slots id' slot hslot
  · intro call id' due at_ hcall
    exact ReadOk.mono (h.reads call id' due at_ hcall) rfl (hle id') (.inr le_rfl)
  · intro call at_ hcall
    exact (h.changes call at_ hcall).mono (fun _ _ _ hm => hm.of_path rfl) (fun _ hg => hg)
      (fun _ => le_rfl) hle

theorem ChangeInv.returns {dest : Option FileId} (hoverlay : s.overlay=true)
    (hdropped : changed ≤ s.history.dropped id) (hdest : ∀d,dest=some d → Gone s d) :
    ChangeInv (s.returns id dest changed) := by
  have hbound:=update_le_iff.mpr ⟨Nat.max_le.mpr ⟨(h.times id).1,hdropped⟩,fun id' _ => (h.times id').1⟩
  refine ⟨?_,fun id' => ⟨hbound id',(h.times id').2⟩,h.slots,h.ids,h.known,?_,?_,?_⟩
  · intro hfalse
    change s.overlay=false at hfalse
    rw [hoverlay] at hfalse
    cases hfalse
  · intro id' hid'
    cases dest with
    | none => exact h.replaced id' hid'
    | some d =>
      change update s.history.replaced d changed id'≠0 at hid'
      rw [update_apply] at hid'
      split_ifs at hid' with hd
      · subst hd
        exact hdest id' rfl
      · exact h.replaced id' hid'
  · intro call id' due at_ hcall
    exact ReadOk.mono (h.reads call id' due at_ hcall) rfl le_rfl (.inr le_rfl)
  · intro call at_ hcall
    exact (h.changes call at_ hcall).same (fun _ => rfl) rfl rfl

theorem ChangeInv.repath {inodes : FileId → Option Inode} {pathToId : Path → Option FileId} {nextId : FileId}
    (hs' : s'={ s with inodes := inodes, pathToId := pathToId, nextId := nextId })
    (hids : ∀path id,s'.pathToId path=some id → s'.pathForId id=some path)
    (hknown : ∀id,(s'.inodes id).isSome=true → id<s'.nextId) (hgone : ∀id,Gone s id → Gone s' id)
    (hmoving : ∀call at_ id target,s.calls call=some (.change at_) → at_.moving=some id → Moving s id target →
      Moving s' id target) : ChangeInv s' := by
  subst hs'
  refine ⟨h.overlay,h.times,h.slots,hids,hknown,fun id hid => hgone id (h.replaced id hid),?_,?_⟩
  · intro call id due at_ hcall
    exact ReadOk.mono (h.reads call id due at_ hcall) rfl le_rfl (.inr le_rfl)
  · intro call at_ hcall
    exact (h.changes call at_ hcall).mono (fun id target => hmoving call at_ id target hcall) hgone (fun _ => le_rfl)
      (fun _ => le_rfl)

/-- The id of a path, new or not, belongs to the path. -/
theorem ChangeInv.idForPath (path : Path) :
    ChangeInv (s.idForPath path).2 ∧ (s.idForPath path).2.pathForId (s.idForPath path).1=some path ∧
      (s.idForPath path).2.overlay=s.overlay := by
  rw [Export.idForPath]
  cases hid : s.pathToId path with
  | some id => exact ⟨h,h.ids path id hid,rfl⟩
  | none =>
    dsimp only
    generalize ht : { s with
        nextId := s.nextId+1
        pathToId := update s.pathToId path (some s.nextId)
        inodes := update s.inodes s.nextId (some ⟨path,none⟩) }=t
    have hnew : ∀id,t.pathForId id=if id=s.nextId then some path else s.pathForId id := by
      intro id
      rw [←ht]
      simp only [pathForId,update_apply]
      split_ifs <;> rfl
    have hknown : ∀id,(s.pathForId id).isSome=true → id<s.nextId:=fun id hsome =>
      h.known id (isSome_pathForId s id ▸ hsome)
    have hkeep : ∀id,(s.pathForId id).isSome=true → t.pathForId id=s.pathForId id:=fun id hsome => by
      rw [hnew,if_neg (hknown id hsome).ne]
    refine ⟨h.repath ht.symm ?_ ?_ ?_ ?_,by rw [hnew,if_pos rfl],rfl⟩
    · intro p id hp
      have hids:=h.ids
      rw [←ht] at hp
      grind
    · intro id hsome
      rw [←isSome_pathForId] at hsome
      grind
    · intro id hg
      rw [Gone,hkeep id (by rw [hg]; rfl)]
      exact hg
    · intro call at_ id target _ _ hm
      exact hm.of_path (hkeep id (by rw [isSome_pathForId]; exact hm.known))

omit h in
theorem rebindPath_eq {target : Path} {inode : Inode} (hinode : s.inodes id=some inode) : s.rebindPath id target={ s with
    inodes := fun id' => if id'=id then some ⟨target,none⟩
      else if s.pathToId target=some id' then (s.inodes id').map fun _ => ⟨⟨some id',[]⟩,none⟩ else s.inodes id'
    pathToId := fun path => if path=target then some id else if path=inode.path then none else s.pathToId path } := by
  have hids : ∀f : Path → Option FileId,(∀path≠target,f path=s.pathToId path) →
      update (update f inode.path none) target (some id) =
        fun path => if path=target then some id else if path=inode.path then none else s.pathToId path := by
    intro f hf
    funext path
    grind [update_apply]
  have hsame : ∀path≠target,update s.pathToId target none path=s.pathToId path:=fun path h => update_of_ne h _ _
  rw [Export.rebindPath]
  cases hold : s.pathToId target with
  | none =>
    simp only [hinode,hids _ fun _ _ => rfl]
    congr
    funext id'
    grind [update_apply]
  | some dest =>
    by_cases hd : dest=id
    · simp only [hd,hinode,if_true,hids _ fun _ _ => rfl]
      congr
      funext id'
      grind [update_apply]
    · simp only [if_neg hd,update_of_ne (Ne.symm hd),hinode,hids _ hsame]
      congr
      funext id'
      grind [update_apply]

/-- The replaced id goes and stays away, as long as no other RENAME is moving it. -/
theorem ChangeInv.rebindPath {target : Path} (hm : Moving s id target)
    (hother : ∀dest,s.pathToId target=some dest → dest≠id→∀call at_,s.calls call=some (.change at_) → at_.moving≠some dest) :
    ChangeInv (s.rebindPath id target) ∧ (s.rebindPath id target).overlay=s.overlay ∧
      (s.rebindPath id target).history=s.history ∧
      ∀dest,(s.pathToId target).filter (·≠id)=some dest → Gone (s.rebindPath id target) dest := by
  obtain ⟨inode,hinode⟩:=isSome_iff_exists.mp hm.known
  obtain ⟨t,ht⟩ : ∃t,t=s.rebindPath id target:=⟨_,rfl⟩
  rw [←ht]
  rw [rebindPath_eq hinode] at ht
  have hpath : ∀id',t.pathForId id'=if id'=id then some target
      else if s.pathToId target=some id' then (s.pathForId id').map fun _ => ⟨some id',[]⟩ else s.pathForId id' := by
    intro id'
    rw [ht]
    simp only [pathForId]
    split_ifs <;> simp [comp_def]
  have hold : s.pathForId id=some inode.path := by rw [pathForId,hinode]; rfl
  have hgone : ∀dest,dest≠id → s.pathToId target=some dest → Gone t dest := by
    intro dest hne hdest
    rw [Gone,hpath,if_neg hne,if_pos hdest,h.ids target dest hdest]
    rfl
  refine ⟨h.repath ht ?_ ?_ ?_ ?_,by rw [ht],by rw [ht],?_⟩
  · intro path id' hid'
    have hids:=h.ids
    simp only [ht] at hid'
    grind
  · intro id' hsome
    rw [←isSome_pathForId] at hsome
    have hknown:=h.known
    simp only [←isSome_pathForId] at hknown
    grind
  · intro id' hg
    by_cases hid : id'=id
    · exact absurd (hid ▸ hg) hm.there
    · by_cases hd : s.pathToId target=some id'
      · exact hgone id' hid hd
      · rw [Gone,hpath,if_neg hid,if_neg hd]
        exact hg
  · intro call at_ id' target' hcall hmoves hm'
    by_cases hid : id'=id
    · refine ⟨hm'.target,?_,?_⟩
      · rw [←isSome_pathForId,hpath,if_pos hid]
        rfl
      · rw [Gone,hpath,if_pos hid]
        intro heq
        exact hm.target (congrArg Path.names (Option.some.inj heq))
    · have hd : s.pathToId target≠some id':=fun hd => hother id' hd hid call at_ hcall hmoves
      exact hm'.of_path (by rw [hpath,if_neg hid,if_neg hd])
  · intro dest hdest
    rw [filter_eq_some_iff] at hdest
    exact hgone dest (of_decide_eq_true hdest.2) hdest.1

theorem ChangeInv.withSlots (slots : FileId → Option Slot)
    (hslots : ∀id slot,slots id=some slot → s.slots id=some slot ∨ s.history.dropped id ≤ slot.since) :
    ChangeInv { s with slots := slots } :=
  h.frame rfl rfl ⟨s.history.committed,rfl⟩ le_rfl rfl rfl (fun _ => rfl) hslots

theorem ChangeInv.dropSlot (id : FileId) : ChangeInv (s.dropSlot id) := by
  apply h.withSlots
  intro id' slot hslot
  rcases update_cases hslot with ⟨-,hnone⟩ | hslot
  · cases hnone
  · exact .inl hslot

theorem ReadStep.changeInv {at_ : ReadAt} {t : Export} {new : Option ReadAt} (hstep : ReadStep s id at_ t new)
    (hok : ReadOk s id due at_) : ChangeInv t ∧ new.elim True (ReadOk t id due) := by
  obtain ⟨-,hdropped,hclock⟩:=h.times id
  have hinfo : ∀info r,ReadOk s id due r → ReadOk (s.setInfo id info) id due r := by
    intro info r hr
    obtain ⟨inodes,heq⟩:=setInfo_eq s id info
    rw [heq]
    exact hr.mono rfl le_rfl (.inr le_rfl)
  cases hstep with
  | ends => exact ⟨h,trivial⟩
  | load _ second => cases second <;> exact ⟨h,hok⟩
  | seen _ second => cases second <;> exact ⟨h,hok⟩
  | publish _ second =>
    refine ⟨h.frame rfl rfl ⟨s.history.committed,rfl⟩ le_rfl rfl rfl (fun _ => rfl) fun _ _ hslot => .inl hslot,?_⟩
    cases second <;> exact hok
  | clearSlots _ second =>
    refine ⟨h.withSlots (fun _ => none) nofun,?_⟩
    cases second <;> exact hok
  | clearInfos _ second =>
    have hpaths : ∀id',s.clearAllLookupFi.pathForId id'=s.pathForId id' := by
      intro id'
      rw [pathForId,Export.clearAllLookupFi,map_map]
      rfl
    refine ⟨h.frame rfl rfl ⟨s.history.committed,rfl⟩ le_rfl rfl rfl hpaths (fun _ _ hslot => .inl hslot),?_⟩
    cases second <;> exact hok
  | check hfound =>
    refine ⟨h,hok.resolve_left ?_⟩
    rintro ⟨rfl,hoverlay⟩
    cases hfound hoverlay
  | uncached _ hoverlay => exact ⟨h,hoverlay,hok.resolve_left fun hgone => by rw [hoverlay] at hgone; cases hgone.2⟩
  | checkLookup => exact ⟨h,hok.2⟩
  | reader hslot => exact ⟨h,le_trans hok (h.slots id _ hslot)⟩
  | slot hslots => exact ⟨h.withSlots _ fun id' slot hslot => .inl (hslots id' slot hslot),hok⟩
  | root => exact ⟨h,hok,hclock⟩
  | path => exact ⟨h,hok⟩
  | pathCached _ hoverlay => exact ⟨h,hoverlay,hok⟩
  | cached _ hfi => exact ⟨h,hok.2,by rw [((h.overlay hok.1).1 id).2.2]; exact Nat.zero_le _⟩
  | tagged => exact ⟨h,hok⟩
  | unknown => exact ⟨h,hok.2⟩
  | clearTagged path => exact ⟨h.setInfo id none,hinfo _ (.lookup path) hok.2⟩
  | lookup _ hnow => exact ⟨h,hok,by rw [hnow]; exact hclock⟩
  | store hfi hnext =>
    refine ⟨h.setInfo id _,hinfo _ _ ?_⟩
    rcases hnext with rfl | rfl
    · have hdue:=le_trans hok.1 hdropped
      exact Nat.le_min.mpr ⟨le_trans hdue hok.2,le_trans hdue hclock⟩
    · exact hok
  | «open» => exact ⟨h,hok.1,Nat.le_min.mpr ⟨hok.2,hclock⟩⟩
  | @insert new slot slots hslots hslot =>
    have hnew:=le_trans hdropped hok.2
    refine ⟨h.withSlots slots ?_,?_⟩
    · intro id' slot' hslot'
      rcases hslots id' slot' hslot' with hold | ⟨rfl,rfl⟩
      · exact .inl hold
      · exact .inr hnew
    · rcases hslot with hold | rfl
      · exact le_trans hok.1 (h.slots id slot hold)
      · exact le_trans hok.1 hnew

theorem ChangeInv.stepRead (call : ℕ) (choice : Choice) {at_ : ReadAt} (hok : ReadOk s id due at_) :
    ChangeInv (s.stepRead call choice id due at_) := by
  obtain ⟨t,new,hstep,heq⟩:=readTo_stepRead s call choice id due at_
  obtain ⟨ht,hnew⟩:=hstep.changeInv h hok
  rw [heq]
  apply ht.call
  intro c hc
  obtain ⟨r,rfl,rfl⟩:=map_eq_some_iff.mp hc
  exact hnew

/-- An overlay call that changes the file only if it succeeds. -/
theorem ChangeInv.overlayCall (call : ℕ) {next : ChangeAt} (hoverlay : s.overlay=true)
    (hfails : choice.ok=false → choice.touched=false)
    (hhand : ∀other due r,s.calls other=some (.read id due r) → r.inHand=none)
    (hnext : ChangeOk (s.change id files) next) : ChangeInv (s.overlayCall call choice id files next) := by
  rw [Export.overlayCall]
  split_ifs with hok htouched
  · exact (h.change hoverlay hhand).goto call ⟨hoverlay,hnext⟩
  · rw [hfails (Bool.eq_false_iff.mpr hok)] at htouched
    cases htouched
  · exact h.finish call

theorem ChangeInv.stepChange (call : ℕ) (hcall : s.calls call=some (.change at_))
    (hcareful : Careful s (.step call choice)) : ChangeInv (s.stepChange call choice at_) := by
  have hoverlay : s.overlay=true := by
    cases hfalse : s.overlay with
    | true => rfl
    | false => exact absurd hcall ((h.overlay hfalse).2 call at_)
  have hok:=h.changes call at_ hcall
  simp only [Careful,hcall] at hcareful
  obtain ⟨hchanges,hrebind⟩:=hcareful
  have hself : ∀(id : FileId) (files : Path → Option Entry),s.clock≤(s.change id files).history.changed id := by
    intro id files
    change _≤update s.history.changed id s.clock id
    rw [update_self]
  have hlast : ∀(id : FileId) (files : Path → Option Entry),
      ChangeOk (s.change id files) (.invalidate id none s.clock) := fun id files => ⟨hself id files,nofun⟩
  cases at_ with
  | writeOpen id path =>
    obtain ⟨hfails,hhand⟩:=hchanges id rfl
    exact h.overlayCall call hoverlay hfails hhand trivial
  | writeData id _ | setAttributes id _ | removeEntry id _ =>
    obtain ⟨hfails,hhand⟩:=hchanges id rfl
    exact h.overlayCall call hoverlay hfails hhand (hlast _ _)
  | removeId path =>
    obtain ⟨hid,-,hsame⟩:=h.idForPath _
    exact hid.goto call ⟨hsame.trans hoverlay,trivial⟩
  | removeKind id path => exact h.goto call ⟨hoverlay,trivial⟩
  | renameTo source toDir name =>
    rw [stepChange]
    split
    · refine h.goto call ⟨hoverlay,hok,?_⟩
      exact List.append_ne_nil_of_right_ne_nil _ (List.cons_ne_nil _ _)
    · exact h.finish call
  | renameId source target =>
    obtain ⟨hid,hpath,hsame⟩:=h.idForPath _
    have hm : Moving (s.idForPath source).2 (s.idForPath source).1 target := by
      refine ⟨hok.2,?_,?_⟩
      · rw [←isSome_pathForId,hpath]
        rfl
      · rw [Gone,hpath]
        intro heq
        exact hok.1 (congrArg Path.names (Option.some.inj heq))
    exact hid.goto call ⟨hsame.trans hoverlay,hm⟩
  | renameDest id source target =>
    rw [stepChange]
    split
    · exact h.goto call ⟨hoverlay,hok⟩
    · exact h.goto call ⟨hoverlay,hok⟩
  | dropDest id dest source target => exact (h.dropSlot dest).goto call ⟨hoverlay,hok.of_path rfl⟩
  | clearDest id dest source target =>
    refine (h.setInfo dest none).goto call ⟨?_,hok.of_path (pathForId_setInfo s dest none id)⟩
    obtain ⟨inodes,heq⟩:=setInfo_eq s dest none
    rw [heq]
    exact hoverlay
  | renameEntry id source target =>
    obtain ⟨hfails,hhand⟩:=hchanges id rfl
    exact h.overlayCall call hoverlay hfails hhand ⟨hok.of_path rfl,hself id _⟩
  | rebind id target changed =>
    obtain ⟨hinv,hov,hhistory,hgone⟩:=h.rebindPath hok.1 fun dest hdest hne other at' =>
      hrebind id target changed dest rfl hdest hne other at'
    exact hinv.goto call ⟨hov.trans hoverlay,by rw [hhistory]; exact hok.2,hgone⟩
  | invalidate id dest changed =>
    refine (h.invalidate hok.1).goto call ⟨hoverlay,?_,hok.2⟩
    change _≤update s.history.dropped id (max (s.history.dropped id) changed) id
    rw [update_self]
    exact le_max_right _ _
  | clearInfo id dest changed =>
    have hclear:=h.setInfo id none
    have hpaths:=pathForId_setInfo s id none
    obtain ⟨inodes,heq⟩:=setInfo_eq s id none
    refine (hclear.returns ?_ ?_ ?_).finish call
    · rw [heq]
      exact hoverlay
    · rw [heq]
      exact hok.1
    · intro d hd
      rw [Gone,hpaths]
      exact hok.2 d hd

theorem ChangeInv.tick : ChangeInv s.tick :=
  h.frame rfl rfl ⟨s.history.committed,rfl⟩ (Nat.le_succ _) rfl rfl (fun _ => rfl) fun _ _ hslot => .inl hslot

theorem ChangeInv.start (call : ℕ) (request : Request) : ChangeInv (s.start call request) := by
  rcases start_cases s call request with heq | ⟨id,path,hpath,heq⟩ | ⟨at_,hoverlay,heq,hbegins⟩
  · rw [heq]
    exact h
  · rw [heq]
    apply h.goto call
    by_cases hgone : path=⟨some id,[]⟩ ∧ s.overlay=true
    · exact .inl hgone
    · right
      obtain ⟨hret,-⟩:=h.times id
      have hzero : s.history.replaced id=0 := by
        by_contra hne
        have hpath':=h.replaced id hne
        rw [Gone,hpath] at hpath'
        cases hoverlay : s.overlay with
        | true => exact hgone ⟨Option.some.inj hpath',hoverlay⟩
        | false => exact hne ((h.overlay hoverlay).1 id).2.1
      change max (s.history.returned id) (s.history.replaced id) ≤ s.history.dropped id
      rw [hzero,Nat.max_zero]
      exact hret
  · rw [heq]
    refine h.goto call ⟨hoverlay,?_⟩
    cases at_ with
    | removeId _ | renameTo _ _ _ => exact hbegins
    | writeOpen _ _ | setAttributes _ _ => trivial
    | _ => cases hbegins

theorem ChangeInv.next {e : Event} (hcareful : Careful s e) : ChangeInv (s.next e) := by
  cases e with
  | start call request =>
    apply ChangeInv.tick
    split_ifs
    · exact h.start call request
    · exact h
  | step call choice =>
    apply ChangeInv.tick
    cases hcall : s.calls call with
    | none => exact h
    | some c =>
      cases c with
      | read id due at_ => exact h.stepRead call choice (h.reads call id due at_ hcall)
      | change at_ => exact h.stepChange call hcall hcareful
  | commit files =>
    apply ChangeInv.tick
    exact h.frame rfl rfl ⟨s.clock,rfl⟩ le_rfl rfl rfl (fun _ => rfl) fun _ _ hslot => .inl hslot

omit h in
theorem changeInv_fresh (h : Fresh s) : ChangeInv s := by
  have hhistory:=h.history
  refine ⟨?_,?_,?_,h.ids,h.known,?_,?_,?_⟩
  · intro _
    refine ⟨fun id => by rw [hhistory]; exact ⟨rfl,rfl,rfl⟩,?_⟩
    intro call at_ hcall
    rw [h.calls] at hcall
    cases hcall
  · intro id
    rw [hhistory]
    exact ⟨Nat.le_refl _,Nat.le_refl _,Nat.zero_le _⟩
  · intro id slot hslot
    rw [h.slots] at hslot
    cases hslot
  · intro id hid
    rw [hhistory] at hid
    exact absurd rfl hid
  · intro call id due at_ hcall
    rw [h.calls] at hcall
    cases hcall
  · intro call at_ hcall
    rw [h.calls] at hcall
    cases hcall

end Changes

end Ratarmount.Nfs
