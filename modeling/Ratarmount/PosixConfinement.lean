import Ratarmount.PosixResolution

/-!
# Calls below a root

A path is confined when the place it names, or the place that its missing names
will get, stands below the root. Calls at confined paths change nothing elsewhere.
-/

namespace Ratarmount.Posix.FS

open List

variable {root : Path} {fs fs' fs'' : FS} {a p q x d : Path} {n : Node}

/-- The place of `p` is below the root; or a start of `p` leads below it, and no name between that
start and the last one is a link. -/
def Confined (root : Path) (fs : FS) (p : Path) : Prop :=
  (∃ q, locate fs p = .ok q ∧ root <+: q) ∨
    ∃ a x d, p = a ++ x ∧ x ≠ [] ∧ (∀ c ∈ x, Plain c) ∧ realpath fs a = .ok d ∧ root <+: d ∧ NoLinks fs d x.dropLast

/-- The file is named below the root or new. -/
def Ours (root : Path) (fs : FS) (i : ℕ) : Prop := fs.next ≤ i ∨ ∃ q, root <+: q ∧ fs.node q = some (.file i)

/-- Entries outside the root stay, and all files that change or are named below it are its own. -/
structure Inward (root : Path) (fs fs' : FS) : Prop where
  nodes : ∀ q, ¬root <+: q → fs'.node q = fs.node q
  inodes : ∀ i, fs'.inodes i ≠ fs.inodes i → Ours root fs i
  names : ∀ q i, root <+: q → fs'.node q = some (.file i) → Ours root fs i
  next : fs.next ≤ fs'.next

theorem Inward.refl (root : Path) (fs : FS) : Inward root fs fs :=
  ⟨fun _ _ => rfl,fun _ h => absurd rfl h,fun q _ hq h => .inr ⟨q,hq,h⟩,le_rfl⟩

theorem Inward.ours {i : ℕ} (h : Inward root fs fs') (hi : Ours root fs' i) : Ours root fs i := by
  rcases hi with hi | ⟨q,hq,hn⟩
  · exact .inl (h.next.trans hi)
  · exact h.names q i hq hn

theorem Inward.trans (h : Inward root fs fs') (h' : Inward root fs' fs'') : Inward root fs fs'' := by
  refine ⟨fun q hq => (h'.nodes q hq).trans (h.nodes q hq),fun i hi => ?_,?_,h.next.trans h'.next⟩
  · by_cases hsame : fs''.inodes i=fs'.inodes i
    · exact h.inodes i (hsame ▸ hi)
    · exact h.ours (h'.inodes i hsame)
  · intro q i hq hn
    exact h.ours (h'.names q i hq hn)

/-! ## Changes of one entry -/

theorem Inward.put (h : Inward root fs fs') (hp : root <+: p) (hn : ∀i,n = .file i → Ours root fs i) :
    Inward root fs (fs'.put p n) := by
  by_cases hput : fs'.Puttable p n
  · refine ⟨fun q hq => ?_,fun i hi => ?_,fun q i hq hi => ?_,?_⟩
    · rw [node_put hput,if_neg]
      · exact h.nodes q hq
      · rintro rfl
        exact hq hp
    · rw [inodes_put] at hi
      exact h.inodes i hi
    · rw [node_put hput] at hi
      split_ifs at hi with hqp
      · exact hn i (Option.some_inj.mp hi)
      · exact h.names q i hq hi
    · rw [next_put]
      exact h.next
  · rw [FS.put,dif_neg hput]
    exact h

theorem inward_remove (hp : root <+: p) (hne : p≠[]) : Inward root fs (fs.remove p) := by
  by_cases hc : fs.Childless p
  · refine ⟨fun q hq => ?_,fun i hi => ?_,fun q i hq hi => ?_,by simp⟩
    · rw [node_remove hc hne,if_neg]
      rintro rfl
      exact hq hp
    · rw [inodes_remove] at hi
      exact absurd rfl hi
    · rw [node_remove hc hne] at hi
      split_ifs at hi
      exact .inr ⟨q,hq,hi⟩
  · rw [remove,dif_neg hc]
    exact .refl root fs

theorem inward_setInode {i : ℕ} (y : Inode) (hi : Ours root fs i) : Inward root fs (fs.setInode i y) := by
  refine ⟨fun _ _ => rfl,fun j hj => ?_,fun q j hq hj => .inr ⟨q,hq,hj⟩,le_rfl⟩
  by_cases hji : j=i
  · exact hji ▸ hi
  · exact absurd (show (fs.setInode i y).inodes j=fs.inodes j from Function.update_of_ne hji _ _) hj

theorem inward_alloc (y : Inode) : Inward root fs (fs.alloc y).2 := by
  refine ⟨fun _ _ => rfl,fun j hj => ?_,fun q j hq hj => .inr ⟨q,hq,hj⟩,Nat.le_succ _⟩
  by_cases hji : j=fs.next
  · exact .inl hji.ge
  · exact absurd (show (fs.alloc y).2.inodes j=fs.inodes j from Function.update_of_ne hji _ _) hj

theorem inward_create (y : Inode) (hp : root <+: p) : Inward root fs ((fs.alloc y).2.put p (.file fs.next)) := by
  apply (inward_alloc y).put hp
  intro i hi
  cases hi
  exact .inl le_rfl

/-! ## Confined paths -/

theorem Confined.within (h : Confined root fs p) (hq : locate fs p = .ok q) : root <+: q := by
  rcases h with ⟨q',hq',hroot⟩ | ⟨a,x,d,rfl,hne,hplain,hd,hroot,hlinks⟩
  · rw [hq'] at hq
    cases hq
    exact hroot
  · obtain ⟨y,c,rfl⟩:=(eq_nil_or_concat' x).resolve_left hne
    rw [dropLast_concat] at hlinks
    rw [←append_assoc] at hq
    rcases locate_cases hq with ⟨hnil,-⟩ | ⟨a',c',d',hp,hd',-,rfl⟩
    · simp at hnil
    · obtain ⟨rfl,hc⟩:=append_inj' hp rfl
      have hplace:=realpath_beyond hd (fun z hz => hplain z (mem_append_left _ hz)) hlinks hd'
      rw [hplace,append_assoc]
      exact hroot.trans (prefix_append _ _)

theorem NoLinks.mono {y : Path} (h : NoLinks fs d x) (hy : y <+: x) : NoLinks fs d y := fun z hz => h z (hz.trans hy)

theorem Confined.mono (h : Confined root fs p) (hext : Extends fs fs')
    (hlinks : ∀q t,fs'.node q=some (.link t) → fs.node q=some (.link t)) : Confined root fs' p := by
  rcases h with ⟨q,hq,hroot⟩ | ⟨a,x,d,rfl,hne,hplain,hd,hroot,hfree⟩
  · exact .inl ⟨q,hext.locate hq,hroot⟩
  · exact .inr ⟨a,x,d,rfl,hne,hplain,hext.realpath hd,hroot,fun y hy hy' t ht => hfree y hy hy' t (hlinks _ t ht)⟩

theorem stat_of_realpath (h : realpath fs p = .ok d) : ∃n,stat fs p = .ok n := by
  obtain ⟨n,hn⟩:=(realpath_iff.mp h).entry (isDir_nil fs)
  refine ⟨n,?_⟩
  rw [stat,h]
  change entryAt fs d=_
  rw [entryAt,hn]

/-- Where a missing name of a confined path would be made. -/
theorem Confined.missing {e : Errno} (h : Confined root fs p) (hq : q <+: p) (hs : stat fs q = .error e) : Confined root fs q := by
  have hlost : ∀{a d},realpath fs a = .ok d→¬q <+: a := by
    rintro a d hd ⟨r,rfl⟩
    obtain ⟨d',hd'⟩:=realpath_init hd
    obtain ⟨n,hn⟩:=stat_of_realpath hd'
    rw [hs] at hn
    cases hn
  rcases h with ⟨pl,hpl,hroot⟩ | ⟨a,x,d,rfl,hne,hplain,hd,hroot,hfree⟩
  · rcases locate_cases hpl with ⟨rfl,rfl⟩ | ⟨a,c,d,rfl,hd,-,rfl⟩
    · rw [List.prefix_nil.mp hq]
      exact .inl ⟨[],hpl,hroot⟩
    · rcases List.prefix_concat_iff.mp hq with rfl | hqa
      · exact .inl ⟨_,hpl,hroot⟩
      · exact absurd hqa (hlost hd)
  · rcases prefix_or_prefix_of_prefix hq (prefix_append a x) with hqa | ⟨y,rfl⟩
    · exact absurd hqa (hlost hd)
    · have hy : y <+: x:=(prefix_append_right_inj a).mp hq
      have hyne : y≠[] := by
        rintro rfl
        exact hlost hd (by simp)
      refine .inr ⟨a,y,d,rfl,hyne,fun c hc => hplain c (hy.subset hc),hd,hroot,hfree.mono ?_⟩
      obtain ⟨r,rfl⟩:=hy
      by_cases hr : r=[]
      · rw [hr,append_nil]
      · rw [dropLast_append_of_ne_nil hr]
        exact ( dropLast_prefix y).trans (prefix_append _ _)

/-! ## Calls -/

/-- The place that a call at `p` acts on is below the root. -/
def Within (root : Path) (fs : FS) (p : Path) : Prop := ∀ q, locate fs p = .ok q → root <+: q

theorem Confined.of_located (hext : Extends fs fs') (hw : Within root fs p) (hq : locate fs p = .ok q) : Confined root fs' p :=
  .inl ⟨q,hext.locate hq,hw q hq⟩

/-- The directories on the way to a confined path are made below the root. -/
theorem mkdirs_confined (room : ℕ) {ps qs : List Path} (hps : ∀p∈ps,Confined root fs p) (hp : p∈ps)
    (hqs : ∀q∈qs,q <+: p) : Inward root fs (mkdirs room qs fs).2 ∧ ∀p∈ps,Confined root (mkdirs room qs fs).2 p := by
  induction qs generalizing room fs with
  | nil => exact ⟨.refl root fs,hps⟩
  | cons q qs ih =>
    have hstop : Inward root fs fs ∧ ∀p∈ps,Confined root fs p:=⟨.refl root fs,hps⟩
    have hrest : ∀r∈qs,r <+: p:=fun r hr => hqs r (mem_cons_of_mem _ hr)
    rw [mkdirs.eq_def]
    dsimp only
    cases hs : stat fs q with
    | ok n =>
      cases n with
      | dir m => exact ih room hps hrest
      | _ => exact hstop
    | error e =>
      cases e with
      | noEnt =>
        cases room with
        | zero => exact hstop
        | succ room =>
          cases hm : mkdir fs q 0o755 with
          | error e => exact hstop
          | ok fs' =>
            obtain ⟨pl,hpl,hnone,rfl⟩:=mkdir_ok hm
            have hroot:=((hps p hp).missing (hqs q mem_cons_self) hs).within hpl
            have hlinks:=(@grows_mkdir fs _ q [] _ hm).links
            obtain ⟨hin,hconf⟩:=ih room (fun r hr => (hps r hr).mono (extends_put (.inl hnone))
              (fun x t ht => (hlinks x t ht).resolve_left (by simp))) hrest
            exact ⟨((Inward.refl root fs).put hroot (by simp)).trans hin,hconf⟩
      | _ => exact hstop

theorem symlink_inward {target : Str} (hw : Within root fs p) (h : symlink fs target p = .ok fs') :
    Inward root fs fs' ∧ Confined root fs' p := by
  obtain ⟨q,hq,hnone,rfl⟩:=symlink_ok h
  exact ⟨(Inward.refl root fs).put (hw q hq) (by simp),.of_located (extends_put (.inl hnone)) hw hq⟩

theorem chmod_inward {mode : ℕ} (hw : Within root fs p) (h : chmod fs p mode = .ok fs') :
    Inward root fs fs' ∧ Confined root fs' p := by
  obtain ⟨q,hq,⟨m,hn,rfl⟩ | ⟨i,hn,rfl⟩⟩:=chmod_ok h
  · refine ⟨(Inward.refl root fs).put (hw q hq) (by simp),.of_located (extends_put (.inr ⟨isDir_iff.mpr ⟨m,hn⟩,rfl⟩)) hw hq⟩
  · exact ⟨inward_setInode _ (.inr ⟨q,hw q hq,hn⟩),.of_located (show Extends fs _ from fun _ _ h => .inl h) hw hq⟩

theorem rmdir_inward (hw : Within root fs p) (h : rmdir fs p = .ok fs') : Inward root fs fs' := by
  obtain ⟨q,hq,hnil,-,-,rfl⟩:=rmdir_ok h
  exact inward_remove (hw q hq) hnil

theorem rename_inward {p' : Path} (hw : Within root fs p) (hw' : Within root fs p') (h : rename fs p p' = .ok fs') :
    Inward root fs fs' := by
  obtain ⟨q,q',n,hq,hq',hn,hdir,-,⟨rfl,-⟩ | ⟨-,-,rfl⟩⟩:=rename_ok h
  · exact .refl root _
  · apply (inward_remove (hw q hq) (ne_nil_of_node hn hdir)).put (hw' q' hq')
    intro i hi
    exact .inr ⟨q,hw q hq,hi ▸ hn⟩

theorem openAt_inward {flags : OpenFlags} {mode : ℕ} {ino : Option ℕ} (hw : Within root fs p)
    (h : openAt fs p flags mode = .ok (ino,fs')) :
    Inward root fs fs' ∧ Confined root fs' p ∧ ∀i,ino=some i → Ours root fs i := by
  obtain ⟨q,hq,⟨hn,rfl,rfl⟩ | ⟨m,-,-,rfl,rfl⟩ | ⟨i,hn,rfl,rfl⟩⟩:=openAt_ok h
  · refine ⟨inward_create _ (hw q hq),.of_located ?_ hw hq,fun i hi => ?_⟩
    · exact @extends_put (fs.alloc ⟨[],mode⟩).2 q _ (.inl hn)
    · cases hi
      exact .inl le_rfl
  · exact ⟨.refl root _,.inl ⟨q,hq,hw q hq⟩,nofun⟩
  · have hours : Ours root fs i:=.inr ⟨q,hw q hq,hn⟩
    refine ⟨?_,.of_located ?_ hw hq,fun j hj => Option.some.inj hj ▸ hours⟩
    · split_ifs
      · exact inward_setInode _ hours
      · exact .refl root fs
    · split_ifs
      · exact fun _ _ h => .inl h
      · exact .refl fs

end Ratarmount.Posix.FS
