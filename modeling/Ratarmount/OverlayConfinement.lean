import Ratarmount.OverlayArchive
import Ratarmount.OverlayFrames
import Ratarmount.PosixConfinement

/-!
# Operations and the host tree outside the overlay root

Every operation checks where its path leads before it acts, except `unlink`, whose
check is of the spelling only. An unlink below a link of the overlay removes what
the host finds there. All other operations leave the tree outside the root alone,
whatever links stand in the overlay.
-/

namespace Ratarmount.Overlay

open Programs List AList
open Mount (Path components)
open Posix (FS Node Errno)
open Posix.FS (Confined Inward Ours Within NoLinks)

variable {π α : Type} {c : Config π} {f : Faults} {s t : State π} {p q : Path} {ps : List Path}

/-! ## The checks -/

section Checks

variable {root : Path} {fs : FS}

theorem under_ok (h : under root q = .ok ()) : root <+: q := by
  rw [under] at h
  split_ifs at h with hq
  exact hq

theorem eq_of_prefix_singleton {x : Str} {y : Path} (h : y <+: [x]) (hne : y≠[]) : y=[x] := by
  rcases prefix_concat_iff.mp (show y <+: []++[x] from h) with h | h
  · exact h
  · exact absurd (prefix_nil.mp h) hne

theorem lstat_ok {n : Node} (h : fs.lstat p = .ok n) : ∃q,fs.locate p = .ok q ∧ fs.node q=some n := by
  obtain ⟨q,hq,hn⟩:=bind_ok h
  refine ⟨q,hq,?_⟩
  rw [FS.entryAt] at hn
  cases hnode : fs.node q with
  | none =>
    rw [hnode] at hn
    cases hn
  | some m =>
    rw [hnode] at hn
    exact congrArg some (Except.ok.inj hn)

/-- An entry that is no link stands where its path leads. -/
theorem locate_of_lstat {n : Node} (hp : ∀x∈p,FS.Plain x) (h : fs.lstat p = .ok n) (hn : ∀t,n ≠ .link t)
    (hq : fs.realpath p = .ok q) : fs.locate p = .ok q := by
  obtain ⟨q',hq',hnode⟩:=lstat_ok h
  rcases FS.locate_cases hq' with ⟨rfl,rfl⟩ | ⟨a,x,d,rfl,hd,-,rfl⟩
  · cases hq
    rfl
  · have hfree : NoLinks fs d [x] := by
      intro y hy hne t ht
      rw [eq_of_prefix_singleton hy hne,hnode] at ht
      exact hn t (Option.some.inj ht)
    have hplain : ∀z∈[x], FS.Plain z:=fun z hz => hp z (mem_append_right _ hz)
    rw [hq',FS.realpath_beyond hd hplain hfree hq]

/-- Nothing stands behind a place whose first name behind it is missing. -/
theorem none_beyond {a d x : Path} (hd : fs.realpath a = .ok d) (hx : ∀y,y <+: x → y≠[]→∃e,fs.lstat (a++y) = .error e)
    {y : Path} (hy : y <+: x) (hne : y≠[]) : fs.node (d++y)=none := by
  cases hn : fs.node (d++y) with
  | none => rfl
  | some n =>
    obtain ⟨z,y',rfl⟩:=exists_cons_of_ne_nil hne
    have hdir:=FS.isDir_of_append hn hne
    have hfirst : ∃m,fs.node (d++[z])=some m := by
      by_cases hy' : y'=[]
      · exact ⟨n,by rwa [hy'] at hn⟩
      · rw [append_cons] at hn
        obtain ⟨m,hm⟩:=FS.isDir_iff.mp (FS.isDir_of_append hn hy')
        exact ⟨_,hm⟩
    obtain ⟨m,hm⟩:=hfirst
    obtain ⟨e,he⟩:=hx [z] ((prefix_append [z] y').trans hy) (by simp)
    rw [FS.lstat,FS.locate_concat hd hdir] at he
    change FS.entryAt fs _=_ at he
    rw [FS.entryAt,hm] at he
    cases he

/-- The nearest entry above a missing path leads below the root. -/
theorem confined_of_nearest {a x : Path} {n : Node} (hx : ∀y,y <+: x → y≠[]→∃e,fs.lstat (a++y) = .error e)
    (hne : x≠[]) (hplain : ∀z∈x,FS.Plain z) (h : (match n,fs.realpath a with
      | _,.ok q => under root q
      | .link _,.error _ => .error .perm
      | _,.error e => .error e) = .ok ()) : Confined root fs (a++x) := by
  cases hd : fs.realpath a with
  | error e =>
    rw [hd] at h
    cases n <;> cases h
  | ok d =>
    rw [hd] at h
    refine .inr ⟨a,x,d,rfl,hne,hplain,hd,under_ok h,?_⟩
    intro y hy hyne t ht
    rw [none_beyond hd hx (hy.trans ( dropLast_prefix x)) hyne] at ht
    cases ht

theorem confined_of_confinedAbove {a x : Path} (hx : ∀y,y <+: x → y≠[]→∃e,fs.lstat (a++y) = .error e)
    (hne : x≠[]) (hplain : ∀z∈a++x,FS.Plain z) (h : confinedAbove root fs (a++x) a.inits.reverse = .ok ()) :
    Confined root fs (a++x) := by
  -- from the longest start of the path to shorter ones
  induction a using List.reverseRecOn generalizing x with
  | nil => exact @confined_of_nearest root fs [] x (.dir 0o755) hx hne hplain h
  | append_singleton a z ih =>
    have hinits : (a++[z]).inits.reverse=(a++[z])::a.inits.reverse := by simp
    rw [hinits,confinedAbove] at h
    cases hs : fs.lstat (a++[z]) with
    | ok n =>
      rw [hs] at h
      exact confined_of_nearest hx hne (fun y hy => hplain y (mem_append_right _ hy)) h
    | error e =>
      rw [hs] at h
      rw [append_assoc] at h ⊢
      apply ih ?_ (by simp) (by rwa [←append_assoc]) h
      intro y hy hyne
      obtain ⟨y',rfl,hy'⟩ : ∃y',y=z::y' ∧ y' <+: x := by
        cases y with
        | nil => exact absurd rfl hyne
        | cons z' y' =>
          obtain ⟨rfl,hy'⟩:=cons_prefix_cons.mp hy
          exact ⟨y',rfl,hy'⟩
      by_cases hnil : y'=[]
      · exact ⟨e,by rw [hnil]; exact hs⟩
      · obtain ⟨e',he'⟩:=hx y' hy' hnil
        exact ⟨e',by rwa [append_cons]⟩

theorem confined_of_ensure (hp : ∀x∈p,FS.Plain x) (h : ensureOverlayUnderRoot root fs p = .ok ()) : Confined root fs p := by
  rw [ensureOverlayUnderRoot] at h
  cases hs : fs.lstat p with
  | ok n =>
    rw [hs] at h
    have hhere : ∀(_ : ∀t,n ≠ .link t), (do under root (← fs.realpath p))=(.ok () : Except Errno Unit) → Confined root fs p := by
      intro hn h
      obtain ⟨q,hq,hroot⟩:=bind_ok h
      exact .inl ⟨q,locate_of_lstat hp hs hn hq,under_ok hroot⟩
    cases n with
    | link t => cases h
    | dir m => exact hhere nofun h
    | file i => exact hhere nofun h
  | error e =>
    rw [hs] at h
    rcases eq_nil_or_concat' p with rfl | ⟨a,z,rfl⟩
    · cases hs
    · have hinits : (a++[z]).inits.dropLast.reverse=a.inits.reverse := by simp
      rw [hinits] at h
      refine confined_of_confinedAbove ?_ (by simp) hp h
      intro y hy hne
      exact ⟨e,eq_of_prefix_singleton hy hne ▸ hs⟩

end Checks

/-! ## The tree outside -/

/-- A name outside the root has the file. -/
def Outer (c : Config π) (s : State π) (i : ℕ) : Prop := ∃ q, ¬c.root <+: q ∧ s.host.node q = some (.file i)

/-- Between the states nothing outside the root was created, changed or removed, and nothing of it
is open. -/
structure Untouched (c : Config π) (s t : State π) : Prop where
  nodes : ∀ q, ¬c.root <+: q → t.host.node q = s.host.node q
  inodes : ∀ i, Outer c s i → t.host.inodes i = s.host.inodes i
  fds : ∀ fd h i, t.fds.lookup fd = some h → h.ino = some i → ¬Outer c s i

/-- No file has a name below the root and another one outside, and no descriptor is open outside. -/
structure Apart (c : Config π) (s : State π) : Prop where
  names : ∀ q i, c.root <+: q → s.host.node q = some (.file i) → ¬Outer c s i
  fds : ∀ fd h i, s.fds.lookup fd = some h → h.ino = some i → ¬Outer c s i

/-- The tree outside is as in `s`, and the overlay's files are still its own. -/
structure Kept (c : Config π) (s t : State π) : Prop extends Untouched c s t where
  names : ∀ q i, c.root <+: q → t.host.node q = some (.file i) → ¬Outer c s i
  next : s.host.next ≤ t.host.next

theorem Apart.kept (h : Apart c s) : Kept c s s := ⟨⟨fun _ _ => rfl,fun _ _ => rfl,h.fds⟩,h.names,le_rfl⟩

variable {i mode size fd : ℕ} {fs : FS} {ps' : List Path} {site : Site} {call : FS → Except Errno (α × FS)}
  {flags : FdFlags} {ino : Option ℕ} {write : Bool} {path : Str} {op : Op}

theorem Kept.ours (h : Kept c s t) (hi : Ours c.root t.host i) : ¬Outer c s i := by
  rcases hi with hi | ⟨q,hq,hn⟩
  · rintro ⟨q,-,hn⟩
    rw [FS.node_of_ne _ (FS.ne_nil_of_node hn rfl)] at hn
    have hlt:=s.host.allocated q _ hn
    simp only [Node.below,Node.ino?,Option.all_some,decide_eq_true_eq] at hlt
    have := h.next
    omega
  · exact h.names q i hq hn

theorem Kept.host (h : Kept c s t) (hin : Inward c.root t.host fs) : Kept c s { t with host := fs } where
  nodes q hq := (hin.nodes q hq).trans (h.nodes q hq)
  inodes i hi := by
    rw [←h.inodes i hi]
    by_contra hne
    exact h.ours (hin.inodes i hne) hi
  fds := h.fds
  names q i hq hn := h.ours (hin.names q i hq hn)
  next := h.next.trans hin.next

theorem Kept.setInode (y : Posix.Inode) (h : Kept c s t) (hi : ¬Outer c s i) :
    Kept c s { t with host := t.host.setInode i y } where
  nodes := h.nodes
  inodes j hj := by
    have hne : j≠i:=fun e => hi (e ▸ hj)
    exact (Function.update_of_ne hne y t.host.inodes).trans (h.inodes j hj)
  fds := h.fds
  names := h.names
  next := h.next

theorem Kept.register {hd : Handle} (h : Kept c s t) (hi : ∀i,hd.ino=some i→¬Outer c s i) :
    Kept c s { t with fds := t.fds.insert t.nextFd hd, nextFd := t.nextFd+1 } where
  nodes := h.nodes
  inodes := h.inodes
  fds fd h' i hl hino := by
    by_cases hfd : fd=t.nextFd
    · subst hfd
      rw [lookup_insert] at hl
      cases hl
      exact hi i hino
    · rw [lookup_insert_ne hfd] at hl
      exact h.fds fd h' i hl hino
  names := h.names
  next := h.next

/-! ## Checked paths -/

def Among (c : Config π) (s : State π) (ps : List Path) (t : State π) : Prop :=
  Kept c s t ∧ ∀ p ∈ ps, Confined c.root t.host (c.hostPath p)

theorem ignoresGrowth_among : IgnoresGrowth (Holding (Among c s ps)) := by
  intro t growth st h
  exact ⟨⟨⟨h.1.nodes,h.1.inodes,h.1.fds⟩,h.1.names,h.1.next⟩,h.2⟩

theorem ignoresPolicy_among : IgnoresPolicy (Holding (Among c s ps)) := ignoresGrowth_among.policy

/-- From states with `ps` checked, a return leaves `ps'` checked. -/
abbrev Safe (c : Config π) (s : State π) (ps : List Path) (m : OpM π α) (ps' : List Path) : Prop :=
  Triple (Among c s ps) m (fun _ => Among c s ps') (Kept c s)

theorem Safe.of_keeps {m : OpM π α} (h : Keeps (Among c s ps) (Holding (Among c s ps)) m) : Safe c s ps m ps :=
  h.triple fun _ ht => ht.1

theorem safe_refuse {b : Bool} {e : Errno} : Safe c s ps (refuse b e) ps := .of_keeps (keeps_refuse _ _)

theorem safe_observe {g : State π → α} : Safe c s ps (observe g) ps := .of_keeps (keeps_observe _)

theorem safe_checkMutation {op : Mutation} {qs : List Path} : Safe c s ps (checkMutation c op qs) ps :=
  .of_keeps (keeps_checkMutation ignoresPolicy_among _ _)

theorem safe_checkWrite {offset len : ℕ} : Safe c s ps (checkWrite c q offset len size) ps :=
  .of_keeps (keeps_checkWrite ignoresPolicy_among _ _ _ _)

theorem Among.subset (h : Among c s ps t) (hsub : ps' ⊆ ps) : Among c s ps' t :=
  ⟨h.1,fun p hp => h.2 p (hsub hp)⟩

/-- A check of the host tree adds what it says. -/
theorem triple_check {g : FS → Except Errno Unit} (hg : ∀fs,g fs = .ok () → Confined c.root fs (c.hostPath p)) :
    Triple (Among c s ps) (liftHost g) (fun _ => Among c s (p::ps)) (Kept c s) := by
  intro t ht
  rw [liftHost]
  cases hr : g t.host with
  | error e => exact ht.1
  | ok u =>
    refine ⟨ht.1,?_⟩
    intro q hq
    rcases mem_cons.mp hq with rfl | hq
    · exact hg _ hr
    · exact ht.2 q hq

theorem safe_ensureUnderRoot (hp : Named p) : Safe c s ps (ensureUnderRoot c p) (p::ps) :=
  triple_check fun _ h => confined_of_ensure (named_hostPath c hp) h

theorem safe_ensureRenameConfined (hp : Named p) : Safe c s ps (ensureRenameConfined c p) (p::ps) := by
  refine triple_check fun fs h => ?_
  have hplain:=named_hostPath c hp
  cases hs : fs.lstat (c.hostPath p) with
  | error e =>
    rw [hs] at h
    exact confined_of_ensure hplain h
  | ok n =>
    rw [hs] at h
    cases n with
    | dir m => exact confined_of_ensure hplain h
    | file i => exact confined_of_ensure hplain h
    | link l =>
      obtain ⟨d,hd,hroot⟩:=bind_ok h
      obtain ⟨q,hq,hn⟩:=lstat_ok hs
      rcases FS.locate_cases hq with ⟨-,rfl⟩ | ⟨a,x,d',hax,hd',-,rfl⟩
      · rw [FS.node_nil] at hn
        cases hn
      · rw [hax,dropLast_concat,hd'] at hd
        cases hd
        exact .inl ⟨_,hq,(under_ok hroot).trans (prefix_append _ _)⟩

theorem keeps_among_createDirAll (hp : p∈ps) (hq : q <+: p) :
    Keeps (Among c s ps) (Holding (Among c s ps)) (createDirAll c f site q) := by
  refine keeps_createDirAll fun t ht hold => ?_
  obtain ⟨hin,hconf⟩:=FS.mkdirs_confined (f.room site) (forall_mem_map.mpr ht.2) (mem_map_of_mem hp)
    fun _ hr => ((mem_inits _ _).mp hr).trans ((prefix_append_right_inj c.root).mpr hq)
  exact ⟨hold.1.host hin,forall_mem_map.mp hconf⟩

theorem safe_parents : Safe c s (p::ps) (createDirAll c f site p.dropLast) (p::ps) :=
  .of_keeps (keeps_among_createDirAll mem_cons_self ( dropLast_prefix p))

theorem keeps_among_hostCall
    (h : ∀fs a fs',(∀p∈ps,Confined c.root fs (c.hostPath p)) → call fs = .ok (a,fs') → Inward c.root fs fs' ∧ ∀p∈ps,Confined c.root fs' (c.hostPath p)) :
    Keeps (Among c s ps) (Holding (Among c s ps)) (hostCall f site call) := by
  refine keeps_hostCall fun t ht a fs hr _ => ?_
  obtain ⟨hin,hconf⟩:=h t.host a fs ht.2 hr
  exact ⟨ht.1.host hin,hconf⟩

/-- A call that acts at a checked path. -/
theorem keeps_among_hostDo {call : FS → Except Errno FS}
    (h : ∀fs fs',Within c.root fs (c.hostPath p) → call fs = .ok fs' → Inward c.root fs fs' ∧ Confined c.root fs' (c.hostPath p)) :
    Keeps (Among c s [p]) (Holding (Among c s [p])) (hostDo f site call) := by
  refine keeps_among_hostCall fun fs u fs' hps hr => ?_
  obtain ⟨hin,hconf⟩:=h fs fs' (fun q hq => (hps p mem_cons_self).within hq) (map_unit_ok hr)
  exact ⟨hin,by simpa using hconf⟩

theorem safe_hostDo {call : FS → Except Errno FS}
    (h : ∀fs fs',(∀p∈ps,Within c.root fs (c.hostPath p)) → call fs = .ok fs' → Inward c.root fs fs') :
    Safe c s ps (hostDo f site call) [] := by
  refine triple_hostDo (fun _ h => h.1) fun t fs ht hr => ⟨ht.1.host ?_,by simp⟩
  exact h t.host fs (fun p hp q hq => (ht.2 p hp).within hq) hr

/-! ## Copies -/

theorem publishStaged_inward {bytes : Bytes} {fs' : FS} {b : Bool} (hw : Within c.root fs (c.hostPath p))
    (h : publishStaged c p bytes mode fs = .ok (b,fs')) : Inward c.root fs fs' ∧ Confined c.root fs' (c.hostPath p) := by
  obtain ⟨q,hq,hk⟩:=bind_ok h
  by_cases hn : (fs.node q).isSome=true
  · rw [if_pos hn] at hk
    cases hk
    exact ⟨.refl _ _,.inl ⟨q,hq,hw q hq⟩⟩
  · rw [if_neg hn] at hk
    cases hk
    have hnone : fs.node q=none := by simpa using hn
    have hext : FS.Extends fs _:=@FS.extends_put (fs.alloc ⟨bytes,mode⟩).2 q (.file fs.next) (.inl hnone)
    exact ⟨FS.inward_create _ (hw q hq),.of_located hext hw hq⟩

theorem copyFrame_among (c : Config π) (f : Faults) (s : State π) (p : Path) :
    CopyFrame c f (Among c s [p]) (Holding (Among c s [p])) p where
  policy := ignoresPolicy_among
  parents _ := keeps_among_createDirAll mem_cons_self ( dropLast_prefix p)
  dir _ _ _ := by
    apply Keeps.bind (keeps_among_createDirAll mem_cons_self prefix_rfl)
    intro _
    exact keeps_among_hostDo fun _ _ hw h => FS.chmod_inward hw h
  link _ _ _ _ := keeps_among_hostDo fun _ _ hw h => FS.symlink_inward hw h
  publish _ _ _ _ _ := by
    refine keeps_among_hostCall fun fs b fs' hps h => ?_
    obtain ⟨hin,hconf⟩:=publishStaged_inward (fun q hq => (hps p mem_cons_self).within hq) h
    exact ⟨hin,by simpa using hconf⟩

/-- Where the check fails, a copy does nothing. -/
theorem copyUp_refused {copy : Info → OpM π Unit} {e : Errno} (h : ensureOverlayUnderRoot c.root t.host (c.hostPath p) = .error e) :
    ∃e',copyUp c f p copy t = .error e' t := by
  rw [copyUp]
  by_cases hr : Reserved p=true
  · exact ⟨.perm,run_bind_error (by rw [refuse,if_pos hr]; rfl)⟩
  · rw [run_bind (show refuse (π := π) (Reserved p) .perm t = .ok () t by rw [refuse,if_neg hr]; rfl)]
    exact ⟨e,run_bind_error (by rw [ensureUnderRoot,liftHost,h])⟩

theorem safe_ensureModifiableInner (hp : Named p) (hint : Option ℕ) : Safe c s [] (ensureModifiableInner c f p hint) [] := by
  intro t ht
  cases hr : ensureOverlayUnderRoot c.root t.host (c.hostPath p) with
  | ok u =>
    have hat : Among c s [p] t:=⟨ht.1,by simpa using confined_of_ensure (named_hostPath c hp) hr⟩
    have hsafe:=Safe.of_keeps (keeps_ensureModifiableInner (copyFrame_among c f s p) hint)
    exact (hsafe.weaken fun _ _ h => h.subset (by simp)) t hat
  | error e =>
    have hsame : ∃e',ensureModifiableInner c f p hint t = .error e' t := by
      rw [ensureModifiableInner]
      split_ifs
      · exact copyUp_refused hr
      · exact copyUp_refused hr
    obtain ⟨e',he'⟩:=hsame
    rw [he']
    exact ht.1

theorem safe_ensureParent (hp : Named p) : Safe c s [] (ensureParent c f p) [] := by
  refine .ite (fun _ => .pure fun _ h => h) (fun _ => ?_)
  refine (safe_ensureUnderRoot fun x hx => hp x (dropLast_subset p hx)).bind fun _ => ?_
  have hrest : Keeps (Among c s [p.dropLast]) (Holding (Among c s [p.dropLast])) (do
      let missing ← observe fun s => (s.host.stat (c.hostPath p.dropLast)).toOption.isNone
      if missing && c.baseIsDir p.dropLast then createDirAll c f .parentDirs p.dropLast else pure ()) := by
    refine .bind (keeps_observe _) fun missing => ?_
    exact .ite (fun _ => keeps_among_createDirAll mem_cons_self prefix_rfl) (fun _ => .pure _)
  exact (Safe.of_keeps hrest).weaken fun _ _ h => h.subset (by simp)

/-! ## Operations -/

/-- What an open returns: a file of the overlay, or nothing for a directory. -/
def Opened (c : Config π) (s : State π) (ps : List Path) (ino : Option ℕ) (t : State π) : Prop :=
  Among c s ps t ∧ ∀ i, ino = some i → ¬Outer c s i

theorem Among.setInode (y : Posix.Inode) (h : Among c s ps t) (hi : ¬Outer c s i) :
    Among c s ps { t with host := t.host.setInode i y } :=
  ⟨h.1.setInode y hi,fun p hp => (h.2 p hp).mono (fun _ _ hn => .inl hn) (fun _ _ hl => hl)⟩

theorem triple_hostOpen {flags : FS.OpenFlags} :
    Triple (Among c s [p]) (hostOpen c f p flags mode) (Opened c s [p]) (Kept c s) := by
  refine triple_hostCall (fun _ h => h.1) fun t ino fs ht h => ?_
  obtain ⟨hin,hconf,hours⟩:=FS.openAt_inward (fun q hq => (ht.2 p mem_cons_self).within hq) h
  exact ⟨⟨ht.1.host hin,by simpa using hconf⟩,fun i hi => ht.1.ours (hours i hi)⟩

theorem opened_policy (t : State π) (st : π) (h : Opened c s ps ino t) : Opened c s ps ino { t with policy := st } :=
  ⟨ignoresPolicy_among t st h.1,h.2⟩

theorem kept_policy (t : State π) (st : π) (h : Kept c s t) : Kept c s { t with policy := st } :=
  ⟨⟨h.nodes,h.inodes,h.fds⟩,h.names,h.next⟩

theorem triple_setInodeMode :
    Triple (Opened c s ps ino) (setInodeMode ino mode) (fun _ => Opened c s ps ino) (Kept c s) := by
  cases ino with
  | none => exact .pure fun _ h => h
  | some i => exact .modify fun t h => ⟨h.1.setInode _ (h.2 i rfl),h.2⟩

theorem triple_createHostFile : Triple (Among c s [p]) (createHostFile c f p mode) (Opened c s [p]) (Kept c s) := by
  refine triple_hostOpen.bind fun ino => ?_
  refine Triple.bind (Q := fun _ => Opened c s [p] ino) ?_ fun _ => triple_setInodeMode.bind fun _ => .pure fun _ h => h
  exact .ite (fun _ => .throw fun _ h => h.1.1) (fun _ => .pure fun _ h => h)

theorem triple_createFileInner (hp : Named p) :
    Triple (Among c s []) (createFileInner c f p mode) (Opened c s [p]) (Kept c s) := by
  refine safe_refuse.bind fun _ => safe_refuse.bind fun _ => ?_
  refine safe_checkMutation.bind fun _ => (safe_ensureParent hp).bind fun _ => ?_
  refine (safe_ensureUnderRoot hp).bind fun _ => ?_
  refine (Safe.of_keeps (keeps_liftHost _)).bind fun _ => ?_
  refine safe_parents.bind fun _ => ?_
  refine safe_observe.bind fun _ => safe_checkWrite.bind fun _ => ?_
  exact triple_accounted _ (fun _ => opened_policy) kept_policy triple_createHostFile

theorem triple_registerFd {append : Bool} :
    Triple (Opened c s [p] ino) (registerFd ⟨ino,write,append⟩) (fun _ => Among c s []) (Kept c s) :=
  .modify fun _ h => ⟨h.1.1.register h.2,by simp⟩

theorem safe_createFile (hp : Named p) : Safe c s [] (createFile c f p mode) [] :=
  (triple_createFileInner hp).bind fun _ => triple_registerFd.bind fun _ => .pure fun _ h => h

/-- The path of an open stays checked until its last stage. -/
theorem safe_openPrepare (hp : Named p) : Safe c s [] (openPrepare c f p flags mode) [p] := by
  refine (Safe.of_keeps (keeps_checkOpen ignoresPolicy_among _)).bind fun _ => safe_observe.bind fun seen => ?_
  refine safe_refuse.bind fun _ => (safe_ensureModifiableInner hp _).bind fun _ => ?_
  refine (safe_ensureUnderRoot hp).bind fun _ => safe_observe.bind fun there => ?_
  refine .ite (fun _ => ?_) (fun _ => .pure fun _ h => h)
  have hcreate : Triple (Among c s [p]) (createFileInner c f p mode) (Opened c s [p]) (Kept c s) :=
    (triple_createFileInner hp).pre fun _ h => h.subset (by simp)
  exact hcreate.bind fun _ => .pure fun _ h => h.1

theorem safe_openFinish {created : Bool} : Safe c s [p] (openFinish c f p flags mode created) [] := by
  refine safe_observe.bind fun there => safe_refuse.bind fun _ => ?_
  refine (Safe.of_keeps (keeps_checkTrunc ignoresPolicy_among _)).bind fun _ => ?_
  refine (triple_accounted _ (fun _ => opened_policy) kept_policy triple_hostOpen).bind fun ino => ?_
  exact triple_registerFd.bind fun _ => .pure fun _ h => h

theorem safe_mkdir (hp : Named p) : Safe c s [] (mkdir c f p mode) [] := by
  refine safe_checkMutation.bind fun _ => (safe_ensureParent hp).bind fun _ => ?_
  refine (safe_ensureUnderRoot hp).bind fun _ => ?_
  refine (Safe.of_keeps (keeps_among_createDirAll mem_cons_self prefix_rfl)).bind fun _ => ?_
  refine (safe_hostDo fun fs fs' hw h => ?_).bind fun _ => .pure fun _ h => h
  exact (FS.chmod_inward (hw p mem_cons_self) h).1

theorem safe_rmdir (hp : Named p) : Safe c s [] (rmdir c f p) [] := by
  refine safe_checkMutation.bind fun _ => (safe_ensureUnderRoot hp).bind fun _ => ?_
  refine (Safe.of_keeps keeps_refuseRmdir).bind fun _ => ?_
  have hhost : Safe c s [p] (rmdirHost c f p) [] := by
    refine safe_observe.bind fun there => .ite (fun _ => ?_) (fun _ => .pure fun _ h => h.subset (by simp))
    exact safe_hostDo fun fs fs' hw h => FS.rmdir_inward (hw p mem_cons_self) h
  exact hhost.bind fun _ => .pure fun _ h => h

theorem safe_createSymlink (hp : Named p) {target : Str} : Safe c s [] (createSymlink c f p target) [] := by
  refine safe_checkMutation.bind fun _ => ?_
  refine safe_refuse.bind fun _ => (safe_ensureParent hp).bind fun _ => ?_
  refine (safe_ensureUnderRoot hp).bind fun _ => safe_observe.bind fun taken => ?_
  refine safe_refuse.bind fun _ => ?_
  refine safe_parents.bind fun _ => ?_
  refine safe_checkWrite.bind fun _ => ?_
  refine Triple.bind (triple_accounted _ (fun _ => ignoresPolicy_among) kept_policy ?_) fun _ => .pure fun _ h => h
  exact safe_hostDo fun fs fs' hw h => (FS.symlink_inward (hw p mem_cons_self) h).1

theorem safe_rename (hp : Named p) (hq : Named q) : Safe c s [] (rename c f p q) [] := by
  refine safe_checkMutation.bind fun _ => ?_
  refine safe_refuse.bind fun _ => (safe_ensureParent hq).bind fun _ => ?_
  refine safe_observe.bind fun fromIsDir => safe_refuse.bind fun _ => ?_
  refine (safe_ensureModifiableInner hp _).bind fun _ => (safe_ensureRenameConfined hp).bind fun _ => ?_
  refine (safe_ensureRenameConfined hq).bind fun _ => (Safe.of_keeps keeps_refuseRename).bind fun _ => ?_
  refine safe_parents.bind fun _ => (Safe.of_keeps keeps_xattrsForPath).bind fun _ => ?_
  refine Triple.bind (triple_accounted _ (fun _ => ignoresPolicy_among) kept_policy (safe_hostDo fun fs fs' hw h => ?_)) fun _ => ?_
  · exact FS.rename_inward (hw p (by simp)) (hw q (by simp)) h
  · exact safe_observe.bind fun mode => .pure fun _ h => h

/-! ## Descriptors -/

theorem keeps_among_setBytes (hi : ¬Outer c s i) (g : Bytes → Bytes) :
    Keeps (Among c s ps) (Holding (Among c s ps)) (setBytes i g) := fun _ _ h => h.setInode _ hi

theorem safe_truncateInode (hi : ¬Outer c s i) : Safe c s [] (truncateInode c f i write p size) [] :=
  .of_keeps (keeps_truncateInode ignoresGrowth_among (keeps_among_setBytes hi) _ _)

theorem safe_truncate (hp : Named p) : Safe c s [] (truncate c f p size) [] := by
  refine safe_checkMutation.bind fun _ => ?_
  refine (safe_ensureModifiableInner hp _).bind fun _ => (safe_ensureUnderRoot hp).bind fun _ => ?_
  refine triple_hostOpen.bind fun ino => ?_
  have hopened : Triple (Opened c s [p] ino) (truncateOpened c f p size ino) (fun _ => Among c s []) (Kept c s) := by
    intro t ht
    cases ino with
    | none => exact ht.1.1
    | some i => exact safe_truncateInode (ht.2 i rfl) t (ht.1.subset (by simp))
  exact hopened.bind fun _ => .pure fun _ h => h

/-- The file behind a descriptor is the overlay's own. -/
theorem triple_fdInode : Triple (Among c s []) (fdInode fd) (fun h t => Among c s [] t ∧ ¬Outer c s h.1) (Kept c s) := by
  intro t ht
  rw [fdInode]
  cases hl : t.fds.lookup fd with
  | none => exact ht.1
  | some h =>
    obtain ⟨ino,write,append⟩:=h
    cases ino with
    | none => exact ht.1
    | some i => exact ⟨ht,ht.1.fds fd _ i hl rfl⟩

theorem safe_writeAt {offset : ℕ} {data : Bytes} : Safe c s [] (writeAt c f fd path offset data) [] := by
  refine safe_refuse.bind fun _ => ?_
  refine safe_checkMutation.bind fun _ => triple_fdInode.bind fun h => ?_
  intro t ht
  exact Triple.bind safe_observe
    (fun _ => Safe.of_keeps (keeps_writeInode ignoresGrowth_among (keeps_among_setBytes ht.2) _ _ _ _)) t ht.1

theorem safe_truncateFile : Safe c s [] (truncateFile c f fd path size) [] := by
  refine safe_refuse.bind fun _ => triple_fdInode.bind fun h t ht => ?_
  exact safe_truncateInode ht.2 t ht.1

theorem safe_cloneFd : Safe c s [] (cloneFd fd) [] := by
  intro t ht
  rw [cloneFd]
  cases hl : t.fds.lookup fd with
  | none => exact ht.1
  | some h => exact ⟨ht.1.register fun i hi => ht.1.fds fd h i hl hi,by simp⟩

theorem Kept.erase (h : Kept c s t) : Kept c s { t with fds := t.fds.erase fd } where
  nodes := h.nodes
  inodes := h.inodes
  fds fd' hd i hl hino := by
    by_cases hfd : fd'=fd
    · rw [hfd,lookup_erase] at hl
      cases hl
    · rw [lookup_erase_ne hfd] at hl
      exact h.fds fd' hd i hl hino
  names := h.names
  next := h.next

theorem safe_releaseFd : Safe c s [] (releaseFd c fd) [] :=
  .of_keeps (keeps_releaseFd ignoresGrowth_among fun _ _ h => ⟨h.1.erase,by simp⟩)

/-! ## Whole operations and runs -/

/-- The unlink is let through, and the host finds something other than a directory outside the root. -/
def Escapes (c : Config π) (f : Faults) (s : State π) : Op → Prop
  | .unlink path => isOverlayInternalPath path = false ∧ f.fails .unlink = false ∧
      (∃ t, checkMutation c .unlink [components path] s = .ok () t) ∧
      ∃ q n, s.host.locate (c.hostPath (components path)) = .ok q ∧ ¬c.root <+: q ∧ s.host.node q = some n ∧ n.isDir = false
  | _ => False

theorem safe_record {op : Option FilesOp} : Safe c s ps (record op) ps := by
  cases op with
  | none => exact .pure fun _ h => h
  | some op => exact .modify fun _ h => ⟨⟨⟨h.1.nodes,h.1.inodes,h.1.fds⟩,h.1.names,h.1.next⟩,h.2⟩

theorem safe_onPath {m : Path → OpM π (Option FilesOp)} (h : ∀p,Named p → Safe c s [] (m p) ps') :
    Safe c s [] (onPath path m) ps' :=
  safe_refuse.bind fun _ => h _ (named_components path)

theorem safe_silent {m : OpM π Unit} (h : Safe c s [] m []) : Safe c s [] (silent m) [] := h.bind fun _ => .pure fun _ h => h

theorem safe_single (h : Safe c s [] (opStages c f op).1 []) (hrest : ∀said,(opStages c f op).2 said=[]) :
    Safe c s [] (perform c f op) [] := by
  refine h.bind fun said => safe_record.bind fun _ => ?_
  rw [hrest said]
  exact .pure fun _ h => h

theorem safe_perform (hop : ∀path,op ≠ .unlink path) : Safe c s [] (perform c f op) [] := by
  cases op with
  | createFile path mode => exact safe_single (safe_onPath fun _ => safe_createFile) fun _ => rfl
  | openFd path flags mode =>
    refine (safe_refuse.bind fun _ => safe_openPrepare (named_components path)).bind fun said => safe_record.bind fun _ => ?_
    exact safe_openFinish.bind fun said => safe_record.bind fun _ => .pure fun _ h => h
  | mkdir path mode => exact safe_single (safe_onPath fun _ => safe_mkdir) fun _ => rfl
  | unlink path => exact absurd rfl (hop path)
  | rmdir path => exact safe_single (safe_onPath fun _ => safe_rmdir) fun _ => rfl
  | truncate path size => exact safe_single (safe_onPath fun _ => safe_truncate) fun _ => rfl
  | createSymlink path target => exact safe_single (safe_onPath fun _ hp => safe_createSymlink hp) fun _ => rfl
  | rename src dst =>
    refine safe_single ?_ fun _ => rfl
    refine safe_refuse.bind fun _ => safe_refuse.bind fun _ => ?_
    exact safe_rename (named_components src) (named_components dst)
  | writeAt fd path offset data => exact safe_single (safe_silent safe_writeAt) fun _ => rfl
  | truncateFile fd path size => exact safe_single (safe_silent safe_truncateFile) fun _ => rfl
  | cloneFd fd => exact safe_single (safe_silent safe_cloneFd) fun _ => rfl
  | releaseFd fd => exact safe_single (safe_silent safe_releaseFd) fun _ => rfl

theorem keeps_sameHost_checkMutation (op : Mutation) (ps : List Path) (fs : FS) :
    Keeps (fun t : State π => t.host=fs) (Holding fun t => t.host=fs) (checkMutation c op ps) :=
  keeps_checkMutation (show IgnoresPolicy (Holding fun t : State π => t.host=fs) from fun _ _ h => h) op ps

theorem lstat_of_locate {n : Node} (hq : fs.locate p = .ok q) (hn : fs.node q=some n) : fs.lstat p = .ok n := by
  rw [FS.lstat,hq]
  change FS.entryAt fs q=_
  rw [FS.entryAt,hn]

/-- What the host's unlink removes is below the root, or the operation escapes. -/
theorem unlink_inward_of_not_escapes (h : ¬Escapes c f t (.unlink path)) (hint : isOverlayInternalPath path=false)
    (hf : f.fails .unlink=false) (hcheck : ∃t',checkMutation c .unlink [components path] t = .ok () t')
    (hr : t.host.unlink (c.hostPath (components path)) = .ok fs) : Inward c.root t.host fs := by
  obtain ⟨q,n,hq,hn,hdir,rfl⟩:=FS.unlink_ok hr
  apply FS.inward_remove ?_ (FS.ne_nil_of_node hn hdir)
  by_contra hroot
  exact h ⟨hint,hf,hcheck,q,n,hq,hroot,hn,hdir⟩

theorem safe_unlinkHost (h : ¬Escapes c f t (.unlink path)) (hint : isOverlayInternalPath path=false)
    (hcheck : ∃t',checkMutation c .unlink [components path] t = .ok () t') :
    Triple (fun u => Among c s [] u ∧ u.host=t.host) (unlinkHost c f (components path)) (fun _ => Among c s []) (Kept c s) := by
  rintro u ⟨hu,hhost⟩
  rw [unlinkHost,run_bind (show hasEntry c (components path) u = .ok _ u from rfl)]
  split_ifs
  · rw [hostDo,hostCall]
    by_cases hf : f.fails .unlink=true
    · rw [if_pos hf]
      exact hu.1
    rw [if_neg hf]
    cases hr : u.host.unlink (c.hostPath (components path)) with
    | error e => exact hu.1
    | ok fs =>
      rw [hhost] at hr
      have hin:=unlink_inward_of_not_escapes h hint (by simpa using hf) hcheck hr
      exact ⟨hu.1.host (hhost ▸ hin),by simp⟩
  · exact hu

theorem triple_unlink (ht : Among c s [] t) (h : ¬Escapes c f t (.unlink path)) :
    Triple (fun u => u=t) (onPath path fun p => unlink c f p) (fun _ => Among c s []) (Kept c s) := by
  have hname : Triple (fun u => u=t) (refuseInternal (π:=π) path)
      (fun _ u => u=t ∧ isOverlayInternalPath path=false) (Kept c s) :=
    .ite (fun _ => .throw fun u hu => hu ▸ ht.1) (fun hint => .pure fun u hu => ⟨hu,by simpa using hint⟩)
  refine hname.bind fun _ => ?_
  rintro u ⟨rfl,hint⟩
  have hcheck : Triple (fun v => v=u) (checkMutation c .unlink [components path])
      (fun _ v => (Among c s [] v ∧ v.host=u.host) ∧ ∃t',checkMutation c .unlink [components path] u = .ok () t') (Kept c s) := by
    rintro v rfl
    have hsame:=keeps_sameHost_checkMutation (c:=c) .unlink [components path] v.host v rfl rfl
    have hkept:=keeps_checkMutation (c:=c) ignoresPolicy_among .unlink [components path] v ht ht
    cases hc : checkMutation c .unlink [components path] v with
    | error e t' =>
      rw [hc] at hkept
      exact hkept.1
    | ok x t' =>
      rw [hc] at hkept hsame
      exact ⟨⟨hkept,hsame⟩,t',rfl⟩
  have hrun : Triple (fun v => v=u) (unlink c f (components path)) (fun _ => Among c s []) (Kept c s) := by
    refine hcheck.bind fun _ => Triple.bind (Q := fun _ => Among c s []) ?_ fun _ => .pure fun _ h => h
    rintro v ⟨hv,hok⟩
    exact triple_accounted _ (fun _ => ignoresPolicy_among) kept_policy (safe_unlinkHost h hint hok) v hv
  exact hrun u rfl

theorem kept_perform (ht : Kept c s t) (h : ¬Escapes c f t op) : Kept c s (final (perform c f op t)) := by
  have hat : Among c s [] t:=⟨ht,by simp⟩
  by_cases hop : ∃path,op = .unlink path
  · obtain ⟨path,rfl⟩:=hop
    have hrun : Triple (fun u => u=t) (perform c f (.unlink path)) (fun _ => Kept c s) (Kept c s) :=
      (triple_unlink hat h).bind fun said => safe_record.bind fun _ => .pure fun _ h => h.1
    exact hrun.final rfl
  · push Not at hop
    exact Triple.final ((safe_perform hop).weaken fun _ _ h => h.1) hat

/-- An escaping unlink removes an entry outside the root. -/
theorem removes_of_escapes (h : Escapes c f t op) :
    ∃q,¬c.root <+: q ∧ t.host.node q≠none ∧ (final (perform c f op t)).host.node q=none := by
  cases op with
  | unlink path =>
    obtain ⟨hint,hf,⟨t',hc⟩,q,n,hq,hroot,hn,hd⟩:=h
    refine ⟨q,hroot,by simp [hn],?_⟩
    have hne : q≠[]:=FS.ne_nil_of_node hn hd
    have hunlink : t.host.unlink (c.hostPath (components path)) = .ok (t.host.remove q) := by
      rw [FS.unlink,hq]
      simp only [Bind.bind,Except.bind,hn]
      cases n with
      | dir m => cases hd
      | link l => rfl
      | file i => rfl
    have hgone : (t.host.remove q).node q=none := by
      rw [FS.node_remove (FS.childless_of_not_isDir (by simp [FS.isDir,hn,hd])) hne,if_pos rfl]
    have hsame:=keeps_sameHost_checkMutation (c:=c) .unlink [components path] t.host t rfl rfl
    rw [hc] at hsame
    -- no step of this unlink fails
    obtain ⟨Gone,hGone⟩ : ∃Gone : State π → Prop,Gone=fun u => u.host=t.host.remove q:=⟨_,rfl⟩
    have hhost : Triple (fun u => u.host=t.host) (unlinkHost c f (components path)) (fun _ => Gone) Gone := by
      intro u hu
      have hthere : hasEntry c (components path) u = .ok true u := by
        rw [hasEntry,observe,Config.lstat,hu,lstat_of_locate hq hn]
        rfl
      rw [unlinkHost,run_bind hthere,if_pos rfl,hostDo,hostCall,if_neg (by simp [hf]),hu,hunlink,hGone]
      rfl
    have hacc : Triple (fun u => u.host=t.host) (accounted c [components path] (unlinkHost c f (components path))) (fun _ => Gone) Gone :=
      triple_accounted _ (fun _ u st hu => by rw [hGone] at hu ⊢; exact hu) (fun u st hu => by rw [hGone] at hu ⊢; exact hu) hhost
    have hrun : Triple (fun u => u=t) (perform c f (.unlink path)) (fun _ => Gone) Gone := by
      refine Triple.bind (Q := fun _ => Gone) ?_ fun said => Triple.bind (Q := fun _ => Gone) ?_ fun _ => .pure fun _ h => h
      · rintro u rfl
        have hname : refuseInternal path u = .ok () u := by rw [refuseInternal,refuse,hint]; rfl
        have hrest : Triple (fun v => v=u) (unlink c f (components path)) (fun _ => Gone) Gone := by
          refine Triple.bind (Q := fun _ v => v.host=u.host) ?_ fun _ => hacc.bind fun _ => .pure fun _ h => h
          rintro v rfl
          rw [hc]
          exact hsame
        have hdone:=hrest u rfl
        rw [←run_bind (k := fun _ => unlink c f (components path)) hname] at hdone
        exact hdone
      · cases said with
        | none => exact .pure fun _ h => h
        | some op => exact .modify fun u hu => by rw [hGone] at hu ⊢; exact hu
    have hfinal:=hrun.final rfl
    rw [hGone] at hfinal
    rw [hfinal]
    exact hgone
  | _ => cases h

theorem runOps_concat (ops : List (Op × Faults)) (op : Op) (f : Faults) (s : State π) :
    runOps c (ops++[(op,f)]) s=final (perform c f op (runOps c ops s)) := by
  induction ops generalizing s with
  | nil => exact runOps_cons op f [] s
  | cons call ops ih => rw [cons_append,runOps_cons,ih,←runOps_cons]

/-- The tree outside the root is as it was after every step of a run, exactly if no unlink of the run
escapes. -/
theorem outside_untouched_iff (h : Apart c s) (ops : List (Op × Faults)) :
    (∀ done, done <+: ops → Untouched c s (runOps c done s)) ↔
      ∀ done op f, done ++ [(op,f)] <+: ops → ¬Escapes c f (runOps c done s) op := by
  constructor
  · intro hall done op f hdone hesc
    obtain ⟨q,hroot,hthere,hgone⟩ := removes_of_escapes hesc
    have hbefore := (hall done ((prefix_append _ _).trans hdone)).nodes q hroot
    have hafter := (hall _ hdone).nodes q hroot
    rw [runOps_concat,hgone,← hbefore] at hafter
    exact hthere hafter.symm
  · intro hnone done hdone
    have hkept : Kept c s (runOps c done s) := by
      induction done using List.reverseRecOn with
      | nil => exact h.kept
      | append_singleton done call ih =>
        rw [runOps_concat]
        exact kept_perform (ih ((prefix_append _ _).trans hdone)) (hnone done call.1 call.2 hdone)
    exact hkept.toUntouched

/-! ## A link to a directory outside -/

def configOv : Config Unit := ⟨Members.source [],["ov".toList],by simp [FS.Plain],false,none⟩

/-- `/ov`, the overlay's folder, is empty; `/out/b` is somebody else's file. -/
def hostOut : FS :=
  ((((FS.empty.put ["ov".toList] (.dir 0o755)).put ["out".toList] (.dir 0o755)).alloc ⟨[0x62],0o644⟩).2.put
    ["out".toList,"b".toList] (.file 0))

def stateOut : State Unit := { freshState with host := hostOut }

def linkThenUnlink : List (Op × Faults) :=
  [(.createSymlink "/a".toList "/out".toList,noFaults),(.unlink "/a/b".toList,noFaults)]

theorem apart_stateOut : Apart configOv stateOut where
  names q i hq hn := by
    have hne : q≠[]:=FS.ne_nil_of_node hn rfl
    have hn : hostOut.entries.lookup q=some (.file i) := by rwa [FS.node_of_ne _ hne] at hn
    have hmem : q∈hostOut.entries.keys:=mem_keys.mp (lookup_isSome.mp (by rw [hn]; rfl))
    have hall : ∀q∈hostOut.entries.keys,["ov".toList] <+: q→(hostOut.entries.lookup q).any (fun n => n.ino?.isNone)=true := by
      decide +kernel
    have hnone:=hall q hmem hq
    rw [hn] at hnone
    cases hnone
  fds fd h i hl _ := by cases hl

theorem outside_untouched_iff_linkThenUnlink : Apart configOv stateOut ∧
    ((∀ done, done <+: linkThenUnlink → Untouched configOv stateOut (runOps configOv done stateOut)) ↔
      ∀ done op f, done ++ [(op,f)] <+: linkThenUnlink → ¬Escapes configOv f (runOps configOv done stateOut) op) :=
  ⟨apart_stateOut,outside_untouched_iff apart_stateOut linkThenUnlink⟩

theorem unlink_below_link_removes_outside : ¬Untouched configOv stateOut (runOps configOv linkThenUnlink stateOut) := by
  intro h
  have hb := h.nodes ["out".toList,"b".toList] (by decide)
  revert hb
  decide +kernel

end Ratarmount.Overlay
