import Ratarmount.NfsReadsChanges

/-!
# When NFS reads are fresh

After a commit every READ is at its first sweep until one of them has published the new
generation and cleared the tables. From then on all the tables and READs hold is from
after the commit. With the invariant of changes, no READ of a careful run is stale.
-/

namespace Ratarmount.Nfs

open List Function Option Export

def ReadAt.early : ReadAt → Bool
  | .loadGeneration _ false | .fetchMax _ false _ => true
  | _ => false

def ReadSince (committed : ℕ) (due : Due) : ReadAt → Prop
  | .store fi | .open fi => committed ≤ fi.lookedUp
  | .insert slot => committed ≤ slot.since
  | .fill slot => due.commit ≤ slot.since
  | _ => True

def ReadAt.Loaded (generation : ℕ) : ReadAt → Prop
  | .fetchMax _ _ loaded => loaded = generation
  | _ => True

structure Kept (s : Export) : Prop where
  slots : ∀ id slot, s.slots id = some slot → s.history.committed ≤ slot.since
  infos : ∀ id fi, s.cachedLookupFi id = some fi → s.history.committed ≤ fi.lookedUp
  reads : ∀ call id due at_, s.calls call = some (.read id due at_) →
    at_.sweeping = false ∧ ReadSince s.history.committed due at_

inductive Phase (s : Export) : Prop where
  | kept (seen : s.sourceGeneration = s.generation) (kept : Kept s)
  | behind (seen : s.sourceGeneration < s.generation)
      (early : ∀ call id due at_, s.calls call = some (.read id due at_) → at_.early = true)
  | sweeping (call : ℕ) (id : FileId) (due : Due) (path : Path) (second : Bool) (at_ : ReadAt)
      (seen : s.sourceGeneration = s.generation) (sweeps : s.calls call = some (.read id due at_))
      (place : at_ = .clearSlots path second ∨ at_ = .clearInfos path second ∧ ∀ id, s.slots id = none)
      (early : ∀ other id due at_, other ≠ call → s.calls other = some (.read id due at_) → at_.early = true)

structure CommitInv (s : Export) : Prop where
  clock : s.history.committed ≤ s.clock
  due : ∀ call id due at_, s.calls call = some (.read id due at_) → due.commit ≤ s.history.committed
  loaded : ∀ call id due path second generation, s.calls call = some (.read id due (.fetchMax path second generation)) →
    generation = s.generation
  phase : Phase s

variable {s s' t : Export}

/-- The tables lose entries, and the READs stay where they are. -/
structure Frame (s s' : Export) : Prop where
  generation : s'.generation = s.generation
  sourceGeneration : s'.sourceGeneration = s.sourceGeneration
  committed : s'.history.committed = s.history.committed
  clock : s.clock ≤ s'.clock
  slots : ∀ id slot, s'.slots id = some slot → s.slots id = some slot
  infos : ∀ id fi, s'.cachedLookupFi id = some fi → s.cachedLookupFi id = some fi
  reads : ∀ call id due at_, s'.calls call = some (.read id due at_) ↔ s.calls call = some (.read id due at_)

theorem CommitInv.frame (h : CommitInv s) (hf : Frame s s') : CommitInv s' := by
  refine ⟨?_,?_,?_,?_⟩
  · rw [hf.committed]
    exact le_trans h.clock hf.clock
  · intro call id due at_ hcall
    rw [hf.committed]
    exact h.due call id due at_ ((hf.reads _ _ _ _).mp hcall)
  · intro call id due path second generation hcall
    rw [hf.generation]
    exact h.loaded call id due path second generation ((hf.reads _ _ _ _).mp hcall)
  · have hseen:=hf.sourceGeneration
    have hgeneration:=hf.generation
    cases h.phase with
    | kept seen kept =>
      refine .kept (by rw [hseen,hgeneration,seen]) ⟨?_,?_,?_⟩
      · intro id slot hslot
        rw [hf.committed]
        exact kept.slots id slot (hf.slots id slot hslot)
      · intro id fi hfi
        rw [hf.committed]
        exact kept.infos id fi (hf.infos id fi hfi)
      · intro call id due at_ hcall
        rw [hf.committed]
        exact kept.reads call id due at_ ((hf.reads _ _ _ _).mp hcall)
    | behind seen early =>
      refine .behind (by rw [hseen,hgeneration]; exact seen) ?_
      intro call id due at_ hcall
      exact early call id due at_ ((hf.reads _ _ _ _).mp hcall)
    | sweeping call id due path second at_ seen sweeps place early =>
      refine .sweeping call id due path second at_ (by rw [hseen,hgeneration,seen]) ((hf.reads _ _ _ _).mpr sweeps) ?_ ?_
      · refine place.imp_right fun hplace => ⟨hplace.1,?_⟩
        intro id'
        rw [eq_none_iff_forall_ne_some]
        intro slot hslot
        have hold:=hf.slots id' slot hslot
        rw [hplace.2] at hold
        cases hold
      · intro other id' due' at' hother hcall
        exact early other id' due' at' hother ((hf.reads _ _ _ _).mp hcall)

/-- The inodes have no `FileInfo` that is not cached. -/
def Cached (s : Export) (inodes : FileId → Option Inode) : Prop :=
  ∀ id inode fi, inodes id = some inode → inode.fileInfo = some fi → s.cachedLookupFi id = some fi

theorem cached_inodes (s : Export) : Cached s s.inodes := by
  intro id inode fi hinode hfi
  rw [cachedLookupFi,hinode]
  exact hfi

theorem Cached.update {inodes : FileId → Option Inode} {id : FileId} {new : Option Inode} (h : Cached s inodes)
    (hnew : ∀inode,new=some inode → inode.fileInfo=none) : Cached s (update inodes id new) := by
  intro id' inode fi hinode hfi
  rcases update_cases hinode with ⟨-,heq⟩ | hold
  · rw [hnew inode heq] at hfi
    cases hfi
  · exact h id' inode fi hold hfi

/-- Other inodes and paths, none with a new `FileInfo`. -/
theorem Frame.inodes {inodes : FileId → Option Inode} {pathToId : Path → Option FileId} {nextId : FileId}
    (h : Cached s inodes) : Frame s { s with inodes := inodes, pathToId := pathToId, nextId := nextId } := by
  refine ⟨rfl,rfl,rfl,le_rfl,fun _ _ hslot => hslot,?_,fun _ _ _ _ => Iff.rfl⟩
  intro id fi hfi
  obtain ⟨inode,hinode,hinfo⟩:=bind_eq_some_iff.mp hfi
  exact h id inode fi hinode hinfo

theorem frame_refl (s : Export) : Frame s s :=
  ⟨rfl,rfl,rfl,le_rfl,fun _ _ h => h,fun _ _ h => h,fun _ _ _ _ => Iff.rfl⟩

theorem frame_setInfo (s : Export) (id : FileId) : Frame s (s.setInfo id none) := by
  rw [setInfo]
  split
  · exact frame_refl s
  · exact Frame.inodes ((cached_inodes s).update (by rintro _ ⟨⟩; rfl))

theorem frame_idForPath (s : Export) (path : Path) : Frame s (s.idForPath path).2 := by
  rw [idForPath]
  split
  · exact frame_refl s
  · exact Frame.inodes ((cached_inodes s).update (by rintro _ ⟨⟩; rfl))

theorem frame_rebindPath (s : Export) (id : FileId) (target : Path) :
    Frame s (s.rebindPath id target) ∧ (s.rebindPath id target).calls=s.calls := by
  have hdest : ∀dest,Cached s (update s.inodes dest ((s.inodes dest).map fun _ => ⟨⟨some dest,[]⟩,none⟩)) := by
    intro dest
    refine (cached_inodes s).update fun inode hnew => ?_
    obtain ⟨_,-,rfl⟩:=map_eq_some_iff.mp hnew
    rfl
  have hmoved : ∀inodes,Cached s inodes → Cached s (update inodes id (some ⟨target,none⟩)) :=
    fun inodes hin => hin.update (by rintro _ ⟨⟩; rfl)
  rw [rebindPath]
  cases hold : s.pathToId target with
  | none =>
    split
    · exact ⟨Frame.inodes (hmoved _ (cached_inodes s)),rfl⟩
    · exact ⟨Frame.inodes (cached_inodes s),rfl⟩
  | some dest =>
    by_cases hdestId : dest=id
    · simp only [hdestId]
      split
      · exact ⟨Frame.inodes (hmoved _ (cached_inodes s)),rfl⟩
      · exact ⟨Frame.inodes (cached_inodes s),rfl⟩
    · simp only [if_neg hdestId]
      split
      · exact ⟨Frame.inodes (hmoved _ (hdest dest)),rfl⟩
      · exact ⟨Frame.inodes (hdest dest),rfl⟩

theorem setInfo_calls (s : Export) (id : FileId) (fi : Option FileInfo) : (s.setInfo id fi).calls=s.calls := by
  obtain ⟨inodes,heq⟩:=setInfo_eq s id fi
  rw [heq]

theorem frame_dropSlot (s : Export) (id : FileId) : Frame s (s.dropSlot id) := by
  refine ⟨rfl,rfl,rfl,le_rfl,?_,fun _ _ h => h,fun _ _ _ _ => Iff.rfl⟩
  intro id' slot hslot
  rcases update_cases hslot with ⟨-,hnone⟩ | hslot
  · cases hnone
  · exact hslot

/-- A call that changes a file goes on, or ends, and adds nothing to the tables. -/
def ChangeTo (s : Export) (call : ℕ) (next : Export) : Prop :=
  ∃ t, ∃ new : Option ChangeAt, Frame s t ∧ t.calls = s.calls ∧ next = { t with calls := update t.calls call (new.map Call.change) }

theorem changeTo_goto (s : Export) (call : ℕ) (at_ : ChangeAt) : ChangeTo s call (s.goto call (.change at_)) :=
  ⟨s,some at_,frame_refl s,rfl,rfl⟩

theorem changeTo_finish (s : Export) (call : ℕ) : ChangeTo s call (s.finish call) := ⟨s,none,frame_refl s,rfl,rfl⟩

theorem changeTo_overlayCall (s : Export) (call : ℕ) (choice : Choice) (id : FileId) (files : Path → Option Entry)
    (next : ChangeAt) : ChangeTo s call (s.overlayCall call choice id files next) := by
  rw [overlayCall]
  split_ifs
  · exact ⟨s.change id files,some next,⟨rfl,rfl,rfl,le_rfl,fun _ _ h => h,fun _ _ h => h,fun _ _ _ _ => Iff.rfl⟩,
      rfl,rfl⟩
  · exact ⟨(s.change id files).returns id none s.clock,none,
      ⟨rfl,rfl,rfl,le_rfl,fun _ _ h => h,fun _ _ h => h,fun _ _ _ _ => Iff.rfl⟩,rfl,rfl⟩
  · exact changeTo_finish s call

theorem changeTo_stepChange (s : Export) (call : ℕ) (choice : Choice) (at_ : ChangeAt) :
    ChangeTo s call (s.stepChange call choice at_) := by
  have hid : ∀path,(s.idForPath path).2.calls=s.calls := by
    intro path
    rw [idForPath]
    split <;> rfl
  cases at_ with
  | writeOpen _ _ | writeData _ _ | setAttributes _ _ | removeEntry _ _ | renameEntry _ _ _ =>
    exact changeTo_overlayCall s call choice _ _ _
  | removeId path => exact ⟨_,some _,frame_idForPath s path,hid path,rfl⟩
  | removeKind id path => exact changeTo_goto s call _
  | renameTo source toDir name =>
    rw [stepChange]
    split
    · exact changeTo_goto s call _
    · exact changeTo_finish s call
  | renameId source target => exact ⟨_,some _,frame_idForPath s source,hid source,rfl⟩
  | renameDest id source target =>
    rw [stepChange]
    split
    · exact changeTo_goto s call _
    · exact changeTo_goto s call _
  | dropDest id dest source target => exact ⟨_,some _,frame_dropSlot s dest,rfl,rfl⟩
  | clearDest id dest source target => exact ⟨_,some _,frame_setInfo s dest,setInfo_calls s dest none,rfl⟩
  | rebind id target changed => exact ⟨_,some _,(frame_rebindPath s id target).1,(frame_rebindPath s id target).2,rfl⟩
  | invalidate id dest changed =>
    have hdrop:=frame_dropSlot s id
    exact ⟨s.invalidate id changed,some _,⟨rfl,rfl,rfl,le_rfl,hdrop.slots,fun _ _ h => h,fun _ _ _ _ => Iff.rfl⟩,
      rfl,rfl⟩
  | clearInfo id dest changed =>
    have hclear:=frame_setInfo s id
    exact ⟨(s.setInfo id none).returns id dest changed,none,
      ⟨hclear.generation,hclear.sourceGeneration,hclear.committed,hclear.clock,hclear.slots,hclear.infos,hclear.reads⟩,
      setInfo_calls s id none,rfl⟩

/-- A call that is no READ goes on, or ends. -/
theorem CommitInv.changeTo (h : CommitInv s) {call : ℕ} (hto : ChangeTo s call t)
    (hnot : ∀id due r,s.calls call≠some (.read id due r)) : CommitInv t := by
  obtain ⟨u,new,hframe,hcalls,rfl⟩:=hto
  apply h.frame
  refine ⟨hframe.generation,hframe.sourceGeneration,hframe.committed,hframe.clock,hframe.slots,hframe.infos,?_⟩
  intro other id due r
  change update u.calls call (new.map Call.change) other=_ ↔ _
  by_cases hother : other=call
  · subst hother
    rw [update_self]
    refine iff_of_false ?_ (hnot id due r)
    intro hnew
    obtain ⟨at_,-,hread⟩:=map_eq_some_iff.mp hnew
    cases hread
  · rw [update_of_ne hother,hcalls]

section Reads

variable {call other : ℕ} {id id' : FileId} {due due' : Due} {at_ r : ReadAt} {new : Option ReadAt}

theorem moved_cases {calls : ℕ → Option Call}
    (h : update calls call (new.map (Call.read id due)) other=some (.read id' due' r)) :
    (other=call ∧ due'=due ∧ new=some r) ∨ (other≠call ∧ calls other=some (.read id' due' r)) := by
  by_cases hother : other=call
  · subst hother
    rw [update_self] at h
    obtain ⟨r',hr',heq⟩:=map_eq_some_iff.mp h
    cases heq
    exact .inl ⟨rfl,rfl,hr'⟩
  · rw [update_of_ne hother] at h
    exact .inr ⟨hother,h⟩

theorem cached_setInfo {info : Option FileInfo} {fi : FileInfo}
    (h : (s.setInfo id info).cachedLookupFi id'=some fi) : s.cachedLookupFi id'=some fi ∨ info=some fi := by
  rw [setInfo] at h
  split at h
  · exact .inl h
  · obtain ⟨inode,hinode,hinfo⟩:=bind_eq_some_iff.mp h
    rcases update_cases hinode with ⟨-,hnew⟩ | hold
    · rw [←Option.some.inj hnew] at hinfo
      exact .inr hinfo
    · exact .inl (cached_inodes s _ _ _ hold hinfo)

structure Apart (s t : Export) : Prop where
  generation : t.generation = s.generation
  history : t.history = s.history
  clock : t.clock = s.clock
  calls : t.calls = s.calls

theorem apart_setInfo (s : Export) (id : FileId) (info : Option FileInfo) : Apart s (s.setInfo id info) := by
  obtain ⟨inodes,heq⟩:=setInfo_eq s id info
  rw [heq]
  exact ⟨rfl,rfl,rfl,rfl⟩

theorem ReadStep.apart (h : ReadStep s id at_ t new) : Apart s t := by
  cases h with
  | clearTagged _ => exact apart_setInfo s id none
  | store _ _ => exact apart_setInfo s id _
  | _ => exact ⟨rfl,rfl,rfl,rfl⟩

theorem CommitInv.moved (h : CommitInv s) (hdue : due.commit ≤ s.history.committed) (hapart : Apart s t)
    (hloaded : new.elim True (ReadAt.Loaded s.generation))
    (hphase : Phase { t with calls := update t.calls call (new.map (Call.read id due)) }) :
    CommitInv { t with calls := update t.calls call (new.map (Call.read id due)) } := by
  obtain ⟨hgeneration,hhistory,hclock,hcalls⟩:=hapart
  refine ⟨?_,?_,?_,hphase⟩
  · change t.history.committed≤t.clock
    rw [hhistory,hclock]
    exact h.clock
  · intro other id' due' r hother
    rw [hhistory]
    rcases moved_cases hother with ⟨-,rfl,-⟩ | ⟨-,hold⟩
    · exact hdue
    · rw [hcalls] at hold
      exact h.due other id' due' r hold
  · intro other id' due' path second generation hother
    rw [hgeneration]
    rcases moved_cases hother with ⟨-,-,rfl⟩ | ⟨-,hold⟩
    · exact hloaded
    · rw [hcalls] at hold
      exact h.loaded other id' due' path second generation hold

/-- What a READ leaves in the tables and holds itself is from after the commit. -/
structure KeptBy (s t : Export) (due : Due) (new : Option ReadAt) : Prop where
  seen : t.sourceGeneration = s.sourceGeneration
  slots : ∀ id slot, t.slots id = some slot → s.history.committed ≤ slot.since
  infos : ∀ id fi, t.cachedLookupFi id = some fi → s.history.committed ≤ fi.lookedUp
  next : new.elim True fun r => r.sweeping = false ∧ ReadSince s.history.committed due r ∧ r.Loaded s.generation

theorem KeptBy.phase (h : KeptBy s t due new) (hapart : Apart s t) (hseen : s.sourceGeneration=s.generation) (hkept : Kept s) :
    Phase { t with calls := update t.calls call (new.map (Call.read id due)) } := by
  obtain ⟨hgeneration,hhistory,-,hcalls⟩:=hapart
  have hcommitted : t.history.committed=s.history.committed := by rw [hhistory]
  refine .kept (h.seen.trans (hseen.trans hgeneration.symm)) ⟨?_,?_,?_⟩
  · exact fun id slot hslot => hcommitted ▸ h.slots id slot hslot
  · exact fun id fi hfi => hcommitted ▸ h.infos id fi hfi
  · intro other id' due' r hother
    rw [hcommitted]
    rcases moved_cases hother with ⟨-,rfl,rfl⟩ | ⟨-,hold⟩
    · exact ⟨h.next.1,h.next.2.1⟩
    · rw [hcalls] at hold
      exact hkept.reads other id' due' r hold

/-- Every step of a READ while the tables are kept. -/
theorem ReadStep.keptBy (hstep : ReadStep s id at_ t new) (h : CommitInv s) (hseen : s.sourceGeneration=s.generation)
    (hkept : Kept s) (hcall : s.calls call=some (.read id due at_)) : KeptBy s t due new := by
  obtain ⟨hsweeping,hsince⟩:=hkept.reads call id due at_ hcall
  have hdue:=h.due call id due at_ hcall
  have hinfo : ∀info,(∀x,info=some x → s.history.committed≤x.lookedUp) →
      (∀id' slot,(s.setInfo id info).slots id'=some slot → s.history.committed ≤ slot.since) ∧
      (∀id' fi,(s.setInfo id info).cachedLookupFi id'=some fi → s.history.committed≤fi.lookedUp) ∧
      (s.setInfo id info).sourceGeneration=s.sourceGeneration := by
    intro info hnew
    refine ⟨?_,?_,?_⟩
    · obtain ⟨inodes,heq⟩:=setInfo_eq s id info
      rw [heq]
      exact hkept.slots
    · intro id' fi hfi
      rcases cached_setInfo hfi with hold | hsome
      · exact hkept.infos id' fi hold
      · exact hnew fi hsome
    · obtain ⟨inodes,heq⟩:=setInfo_eq s id info
      rw [heq]
  cases hstep with
  | ends _ => exact ⟨rfl,hkept.slots,hkept.infos,trivial⟩
  | load _ _ => exact ⟨rfl,hkept.slots,hkept.infos,rfl,trivial,rfl⟩
  | seen _ second _ => cases second <;> exact ⟨rfl,hkept.slots,hkept.infos,rfl,trivial,trivial⟩
  | publish path second hlt =>
    rw [h.loaded call id due path second _ hcall,hseen] at hlt
    exact absurd hlt (lt_irrefl _)
  | clearSlots _ _ | clearInfos _ _ => cases hsweeping
  | check _ | uncached _ _ | checkLookup _ | path _ | pathCached _ _ | tagged _ | unknown _ =>
    exact ⟨rfl,hkept.slots,hkept.infos,rfl,trivial,trivial⟩
  | reader hslot => exact ⟨rfl,hkept.slots,hkept.infos,rfl,le_trans hdue (hkept.slots id _ hslot),trivial⟩
  | slot hslots =>
    exact ⟨rfl,fun id' slot hslot => hkept.slots id' slot (hslots id' slot hslot),hkept.infos,rfl,trivial,trivial⟩
  | root => exact ⟨rfl,hkept.slots,hkept.infos,rfl,h.clock,trivial⟩
  | cached _ hfi => exact ⟨rfl,hkept.slots,hkept.infos,rfl,hkept.infos id _ hfi,trivial⟩
  | clearTagged _ =>
    obtain ⟨hslots,hinfos,hsource⟩:=hinfo none nofun
    exact ⟨hsource,hslots,hinfos,rfl,trivial,trivial⟩
  | lookup _ hnow => exact ⟨rfl,hkept.slots,hkept.infos,rfl,by rw [ReadSince,hnow]; exact h.clock,trivial⟩
  | store hfi hnext =>
    obtain ⟨hslots,hinfos,hsource⟩:=hinfo _ fun x hx => by rw [hfi x hx]; exact hsince
    refine ⟨hsource,hslots,hinfos,?_⟩
    rcases hnext with rfl | rfl
    · exact ⟨rfl,Nat.le_min.mpr ⟨le_trans hdue hsince,le_trans hdue h.clock⟩,trivial⟩
    · exact ⟨rfl,hsince,trivial⟩
  | «open» _ => exact ⟨rfl,hkept.slots,hkept.infos,rfl,Nat.le_min.mpr ⟨hsince,h.clock⟩,trivial⟩
  | insert hslots hslot =>
    refine ⟨rfl,?_,hkept.infos,rfl,?_,trivial⟩
    · intro id' slot' hslot'
      rcases hslots id' slot' hslot' with hold | ⟨-,rfl⟩
      · exact hkept.slots id' slot' hold
      · exact hsince
    · rcases hslot with hold | rfl
      · exact le_trans hdue (hkept.slots id _ hold)
      · exact le_trans hdue hsince

theorem not_sweeping_of_early (h : r.early=true) : r.sweeping=false ∧ ∀committed due,ReadSince committed due r := by
  cases r <;> first
    | exact ⟨rfl,fun _ _ => trivial⟩
    | cases h

theorem CommitInv.stepRead (h : CommitInv s) (choice : Choice) (hcall : s.calls call=some (.read id due at_))
    (halone : ∀other id due at_,other≠call → s.calls other=some (.read id due at_) → at_.sweeping=false) :
    CommitInv (s.stepRead call choice id due at_) := by
  have hdue:=h.due call id due at_ hcall
  obtain ⟨t,new,hstep,heq⟩:=readTo_stepRead s call choice id due at_
  have hapart:=hstep.apart
  rw [heq]
  cases h.phase with
  | kept seen kept =>
    have hby:=hstep.keptBy h seen kept hcall
    refine h.moved hdue hapart ?_ (hby.phase hapart seen kept)
    cases new with
    | none => trivial
    | some r => exact hby.next.2.2
  | behind seen early =>
    have hearly:=early call id due at_ hcall
    -- the READ goes on before its first sweep, or publishes the generation
    have hbehind : new.elim True (fun r => r.early=true)→∀other id' due' r,
        update s.calls call (new.map (Call.read id due)) other=some (.read id' due' r) → r.early=true := by
      intro hnew other id' due' r hother
      rcases moved_cases hother with ⟨-,-,rfl⟩ | ⟨-,hold⟩
      · exact hnew
      · exact early other id' due' r hold
    cases hstep with
    | ends _ => exact h.moved hdue hapart trivial (.behind seen (hbehind trivial))
    | load path second =>
      cases second with
      | true => cases hearly
      | false => exact h.moved hdue hapart rfl (.behind seen (hbehind rfl))
    | seen path second hnot =>
      rw [h.loaded call id due path second _ hcall] at hnot
      exact absurd seen hnot
    | publish path second hlt =>
      have hloaded:=h.loaded call id due path second _ hcall
      refine h.moved hdue hapart trivial (.sweeping call id due path second (.clearSlots path second) hloaded
        (update_self _ _ _) (.inl rfl) ?_)
      intro other id' due' r hne hother
      rcases moved_cases hother with ⟨heq,-⟩ | ⟨-,hold⟩
      · exact absurd heq hne
      · exact early other id' due' r hold
    | _ => cases hearly
  | sweeping sweeper id' due' path second at' seen sweeps place early =>
    have hsweeper : sweeper=call := by
      by_contra hne
      have hnot:=halone sweeper id' due' at' hne sweeps
      rcases place with rfl | ⟨rfl,-⟩ <;> cases hnot
    subst hsweeper
    rw [hcall] at sweeps
    cases sweeps
    rcases place with rfl | ⟨rfl,hempty⟩
    · cases hstep with
      | ends hsweeping => cases hsweeping
      | clearSlots _ _ =>
        refine h.moved hdue hapart trivial (.sweeping sweeper id due path second (.clearInfos path second) seen
          (update_self _ _ _) (.inr ⟨rfl,fun _ => rfl⟩) ?_)
        intro other id' due' r hne hother
        rcases moved_cases hother with ⟨heq,-⟩ | ⟨-,hold⟩
        · exact absurd heq hne
        · exact early other id' due' r hne hold
    · cases hstep with
      | ends hsweeping => cases hsweeping
      | clearInfos _ _ =>
        refine h.moved hdue hapart (by cases second <;> trivial) (.kept seen ⟨?_,?_,?_⟩)
        · intro id' slot hslot
          change s.slots id'=some slot at hslot
          rw [hempty] at hslot
          cases hslot
        · intro id' fi hfi
          obtain ⟨inode,hinode,hinfo⟩:=bind_eq_some_iff.mp hfi
          obtain ⟨_,-,rfl⟩:=map_eq_some_iff.mp hinode
          cases hinfo
        · intro other id' due' r hother
          rcases moved_cases hother with ⟨-,-,heq⟩ | ⟨hne,hold⟩
          · rw [←Option.some.inj heq]
            cases second <;> exact ⟨rfl,trivial⟩
          · obtain ⟨hnot,hsince⟩:=not_sweeping_of_early (early other id' due' r hne hold)
            exact ⟨hnot,hsince _ _⟩

theorem CommitInv.start (h : CommitInv s) (hidle : s.calls call=none) (request : Request) :
    CommitInv (s.start call request) := by
  have hnot : ∀id due r,s.calls call≠some (.read id due r) := by
    intro id due r
    rw [hidle]
    exact nofun
  rcases start_cases s call request with heq | ⟨id,path,-,heq⟩ | ⟨at_,-,heq,-⟩
  · rw [heq]
    exact h
  · rw [heq]
    obtain ⟨new,hnew⟩ : ∃new,new=some (ReadAt.loadGeneration path false):=⟨_,rfl⟩
    have hto : s.goto call (.read id (s.due id) (.loadGeneration path false)) =
        { s with calls := update s.calls call (new.map (Call.read id (s.due id))) } := by rw [hnew]; rfl
    rw [hto]
    have hapart : Apart s s:=⟨rfl,rfl,rfl,rfl⟩
    refine h.moved le_rfl hapart (by rw [hnew]; trivial) ?_
    cases h.phase with
    | kept seen kept =>
      exact KeptBy.phase ⟨rfl,kept.slots,kept.infos,by rw [hnew]; exact ⟨rfl,trivial,trivial⟩⟩ hapart seen kept
    | behind seen early =>
      refine .behind seen ?_
      intro other id' due' r hother
      rcases moved_cases hother with ⟨-,-,hr⟩ | ⟨-,hold⟩
      · rw [←Option.some.inj (hnew.symm.trans hr)]
        rfl
      · exact early other id' due' r hold
    | sweeping sweeper sid sdue spath second sat seen sweeps place early =>
      have hne : sweeper≠call := by
        rintro rfl
        exact hnot _ _ _ sweeps
      refine .sweeping sweeper sid sdue spath second sat seen ?_ place ?_
      · change update s.calls call _ sweeper=_
        rw [update_of_ne hne]
        exact sweeps
      · intro other id' due' r hsweeper hother
        rcases moved_cases hother with ⟨-,-,hr⟩ | ⟨-,hold⟩
        · rw [←Option.some.inj (hnew.symm.trans hr)]
          rfl
        · exact early other id' due' r hsweeper hold
  · rw [heq]
    exact h.changeTo (changeTo_goto s call at_) hnot

end Reads

theorem CommitInv.tick (h : CommitInv s) : CommitInv s.tick := by
  apply h.frame
  exact ⟨rfl,rfl,rfl,Nat.le_succ _,fun _ _ h => h,fun _ _ h => h,fun _ _ _ _ => Iff.rfl⟩

theorem CommitInv.next (h : CommitInv s) {e : Event} (hcareful : Careful s e) : CommitInv (s.next e) := by
  cases e with
  | start call request =>
    apply CommitInv.tick
    split_ifs with hidle
    · exact h.start hidle request
    · exact h
  | step call choice =>
    apply CommitInv.tick
    cases hcall : s.calls call with
    | none => exact h
    | some c =>
      cases c with
      | read id due at_ =>
        simp only [Careful,hcall] at hcareful
        exact h.stepRead choice hcall hcareful
      | change at_ =>
        refine h.changeTo (changeTo_stepChange s call choice at_) ?_
        intro id due r
        rw [hcall]
        intro heq
        cases heq
  | commit files =>
    -- no READ is running
    apply CommitInv.tick
    have hseen : s.sourceGeneration ≤ s.generation := by
      cases h.phase with
      | kept seen => exact le_of_eq seen
      | behind seen => exact le_of_lt seen
      | sweeping _ _ _ _ _ _ seen => exact le_of_eq seen
    refine ⟨le_rfl,?_,?_,.behind (Nat.lt_succ_of_le hseen) ?_⟩
    · intro call id due at_ hcall
      exact absurd hcall (hcareful call id due at_)
    · intro call id due path second generation hcall
      exact absurd hcall (hcareful call id due _)
    · intro call id due at_ hcall
      exact absurd hcall (hcareful call id due at_)

theorem commitInv_fresh (h : Fresh s) : CommitInv s := by
  have hnone : ∀{call id due at_},s.calls call≠some (.read id due at_) := by
    intro call id due at_ hcall
    rw [h.calls] at hcall
    cases hcall
  have hcommitted : s.history.committed=0 := by rw [h.history]
  refine ⟨by rw [hcommitted]; exact Nat.zero_le _,fun _ _ _ _ hcall => absurd hcall hnone,
    fun _ _ _ _ _ _ hcall => absurd hcall hnone,?_⟩
  rcases Nat.lt_or_eq_of_le h.sourceGeneration with hlt | heq
  · exact .behind hlt fun _ _ _ _ hcall => absurd hcall hnone
  · refine .kept heq ⟨?_,?_,fun _ _ _ _ hcall => absurd hcall hnone⟩
    · intro id slot hslot
      rw [h.slots] at hslot
      cases hslot
    · intro id fi _
      rw [hcommitted]
      exact Nat.zero_le _

theorem inv_run {events : List Event} (hchange : ChangeInv s) (hcommit : CommitInv s) (hcareful : CarefulRun s events) :
    ChangeInv (s.run events) ∧ CommitInv (s.run events) := by
  induction events generalizing s with
  | nil => exact ⟨hchange,hcommit⟩
  | cons e events ih => exact ih (hchange.next hcareful.1) (hcommit.next hcareful.1) hcareful.2

section Sequential

/-- An event of this call, which changes nothing if it fails. -/
def Alone (call : ℕ) : Event → Prop
  | .start c _ => c = call
  | .step c choice => c = call ∧ (choice.ok = false → choice.touched = false)
  | .commit _ => False

/-- An event touches no other call. -/
theorem next_calls {call other : ℕ} {e : Event} (he : Alone call e) (hother : other≠call) :
    (s.next e).calls other=s.calls other := by
  have hmoved : ∀{t : Export} (new : Option Call),t.calls=s.calls → update t.calls call new other=s.calls other := by
    intro t new ht
    rw [update_of_ne hother,ht]
  cases e with
  | start c request =>
    obtain rfl : c=call:=he
    change (if s.calls c=none then s.start c request else s).calls other=_
    split_ifs
    · rcases start_cases s c request with heq | ⟨id,path,-,heq⟩ | ⟨at_,-,heq,-⟩
      · rw [heq]
      · rw [heq]
        exact hmoved _ rfl
      · rw [heq]
        exact hmoved _ rfl
    · rfl
  | commit files => cases he
  | step c choice =>
    obtain ⟨rfl,-⟩:=he
    cases hcall : s.calls c with
    | none => simp only [Export.next,hcall,tick]
    | some x =>
      cases x with
      | read id due at_ =>
        obtain ⟨t,new,hstep,heq⟩:=readTo_stepRead s c choice id due at_
        simp only [Export.next,hcall,heq]
        exact hmoved _ hstep.apart.calls
      | change at_ =>
        obtain ⟨t,new,-,hcalls,heq⟩:=changeTo_stepChange s c choice at_
        simp only [Export.next,hcall,heq]
        exact hmoved _ hcalls

/-- One call after another is careful. -/
theorem carefulRun_of_alone (call : ℕ) {events : List Event} (hidle : ∀other,other≠call → s.calls other=none)
    (halone : ∀e∈events,Alone call e) : CarefulRun s events := by
  induction events generalizing s with
  | nil => trivial
  | cons e events ih =>
    have hfirst:=halone e mem_cons_self
    have hcareful : Careful s e := by
      cases e with
      | start c request => trivial
      | commit files => cases hfirst
      | step c choice =>
        obtain ⟨rfl,hfails⟩:=hfirst
        have hnone : ∀other x,other≠c → s.calls other≠some x := by
          intro other x hother hsome
          rw [hidle other hother] at hsome
          cases hsome
        cases hcall : s.calls c with
        | none => simp only [Careful,hcall]
        | some x =>
          cases x with
          | read id due at_ =>
            simp only [Careful,hcall]
            intro other id' due' at' hother hsome
            exact absurd hsome (hnone other _ hother)
          | change at_ =>
            simp only [Careful,hcall]
            refine ⟨fun id _ => ⟨hfails,?_⟩,?_⟩
            · intro other due r hsome
              by_cases hother : other=c
              · rw [hother,hcall] at hsome
                cases hsome
              · exact absurd hsome (hnone other _ hother)
            · rintro id target changed dest rfl _ hne other at' hsome
              by_cases hother : other=c
              · rw [hother,hcall] at hsome
                cases hsome
                exact fun heq => hne (Option.some.inj heq).symm
              · exact absurd hsome (hnone other _ hother)
    have hnext : ∀other,other≠call→(s.next e).calls other=none := by
      intro other hother
      rw [next_calls hfirst hother,hidle other hother]
    exact ⟨hcareful,ih hnext fun e he => halone e (mem_cons_of_mem _ he)⟩

end Sequential

section Samples

def samplePath : Path := ⟨none,["a"]⟩

def sampleExport : Export where
  overlay := true
  files := fun path => if path = samplePath then some ⟨5,false,false⟩ else none
  generation := 0
  slots := fun _ => none
  sourceGeneration := 0
  inodes := fun id => if id = 3 then some ⟨samplePath,none⟩ else none
  pathToId := fun path => if path = samplePath then some 3 else none
  nextId := 4
  calls := fun _ => none
  clock := 1
  history := ⟨fun _ => 0,fun _ => 0,fun _ => 0,fun _ => 0,0⟩

def sampleChoice (ok : Bool) : Choice := ⟨ok,!ok,⟨6,false,true⟩,fun _ => true,fun _ => true⟩

def steps (n call : ℕ) : List Event := List.replicate n (.step call (sampleChoice true))

theorem fresh_sampleExport : Fresh sampleExport := by
  refine ⟨fun _ => rfl,fun _ => rfl,le_rfl,?_,?_,Nat.one_pos,rfl⟩
  · intro path id hid
    simp only [sampleExport] at hid
    split_ifs at hid with hpath
    obtain rfl:=Option.some.inj hid
    rw [hpath]
    rfl
  · intro id hid
    simp only [sampleExport] at hid
    split_ifs at hid with hthree
    · rw [hthree]
      decide
    · cases hid

end Samples

/-- In a careful run no READ serves what was there before a change or a commit that it started after. -/
theorem reads_never_stale (s : Export) (hfresh : Fresh s) (events : List Event) (hcareful : CarefulRun s events) :
    NeverStale (s.run events) := by
  obtain ⟨hchange,hcommit⟩ := inv_run (changeInv_fresh hfresh) (commitInv_fresh hfresh) hcareful
  intro call id due slot hcall
  refine ⟨hchange.reads call id due _ hcall,?_⟩
  cases hcommit.phase with
  | kept seen kept => exact (kept.reads call id due _ hcall).2
  | behind seen early => cases early call id due _ hcall
  | sweeping sweeper sid sdue path second at_ seen sweeps place early =>
    by_cases hsweeper : call = sweeper
    · subst hsweeper
      rw [hcall] at sweeps
      cases sweeps
      rcases place with hplace | ⟨hplace,-⟩ <;> cases hplace
    · cases early call id due _ hsweeper hcall

def sampleCalls : List Event :=
  .start 0 (.read 3) :: steps 12 0 ++ .start 0 (.write 3) :: steps 4 0 ++ .start 0 (.read 3) :: steps 11 0

theorem reads_never_stale_sample :
    NeverStale (sampleExport.run sampleCalls) ∧
      (sampleExport.run sampleCalls).calls 0 = some (.read 3 ⟨16,0⟩ (.fill ⟨⟨⟨6,false,true⟩,27⟩,29⟩)) := by
  refine ⟨?_,by decide +kernel⟩
  apply reads_never_stale sampleExport fresh_sampleExport
  apply carefulRun_of_alone 0 (fun _ _ => rfl)
  intro e he
  simp only [sampleCalls,steps,cons_append,append_assoc,mem_cons,mem_append,mem_replicate] at he
  rcases he with rfl | ⟨-,rfl⟩ | rfl | ⟨-,rfl⟩ | rfl | ⟨-,rfl⟩
  · rfl
  · exact ⟨rfl,nofun⟩
  · rfl
  · exact ⟨rfl,nofun⟩
  · rfl
  · exact ⟨rfl,nofun⟩

/-- A READ puts the reader it opened before a WRITE into the table after it. -/
def overtakenRead : Export :=
  sampleExport.run (.start 0 (.read 3) :: steps 10 0 ++ .start 1 (.write 3) :: steps 4 1 ++ steps 2 0 ++
    .start 2 (.read 3) :: steps 6 2)

/-- After a commit another READ is about to clear the tables. -/
def sweepingRead : Export :=
  sampleExport.run (.start 0 (.read 3) :: steps 12 0 ++ .commit sampleExport.files :: .start 1 (.read 3) :: steps 2 1 ++
    .start 2 (.read 3) :: steps 6 2)

/-- A WRITE has failed in the middle and dropped no reader. -/
def failedWrite : Export :=
  sampleExport.run (.start 0 (.read 3) :: steps 12 0 ++ .start 1 (.write 3) :: steps 1 1 ++
    .step 1 (sampleChoice false) :: .start 2 (.read 3) :: steps 6 2)

theorem stale_reads :
    Fresh sampleExport ∧ ¬NeverStale overtakenRead ∧ ¬NeverStale sweepingRead ∧ ¬NeverStale failedWrite := by
  have hovertaken : overtakenRead.calls 2 = some (.read 3 ⟨14,0⟩ (.fill ⟨⟨⟨5,false,false⟩,9⟩,11⟩)) := by decide +kernel
  have hsweeping : sweepingRead.calls 2 = some (.read 3 ⟨0,14⟩ (.fill ⟨⟨⟨5,false,false⟩,9⟩,11⟩)) := by decide +kernel
  have hfailed : failedWrite.calls 2 = some (.read 3 ⟨16,0⟩ (.fill ⟨⟨⟨5,false,false⟩,9⟩,11⟩)) := by decide +kernel
  refine ⟨fresh_sampleExport,fun h => ?_,fun h => ?_,fun h => ?_⟩
  · exact absurd (h 2 3 _ _ hovertaken).1 (by decide)
  · exact absurd (h 2 3 _ _ hsweeping).2 (by decide)
  · exact absurd (h 2 3 _ _ hfailed).1 (by decide)

end Ratarmount.Nfs
