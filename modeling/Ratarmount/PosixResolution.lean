import Ratarmount.PosixCalls

/-!
# Resolution through links

Where a path leads when links stand on its way. A path that leads somewhere keeps
leading there while entries are only added, and behind it names that are no links
are taken as they stand.
-/

namespace Ratarmount.Posix.FS

open List

variable {fs fs' fs'' : FS} {a p q x cur d e : Path} {k : ℕ} {ps : List Path} {n : Node}

/-! ## Calls that remove nothing -/

/-- Every entry stays, and new links are at `ps`. -/
structure Grows (ps : List Path) (fs fs' : FS) : Prop where
  stays : ∀ q, fs.node q ≠ none → fs'.node q ≠ none
  links : ∀ q t, fs'.node q = some (.link t) → q ∈ ps ∨ fs.node q = some (.link t)

theorem Grows.refl (ps : List Path) (fs : FS) : Grows ps fs fs := ⟨fun _ h => h,fun _ _ h => .inr h⟩

theorem grows_put (h : n.isDir ∨ n.ino?.isSome ∨ p∈ps) : Grows ps fs (fs.put p n) := by
  by_cases hput : fs.Puttable p n
  · refine ⟨fun q hq => ?_,fun q t hq => ?_⟩
    · rw [node_put hput]
      split_ifs
      · exact Option.some_ne_none _
      · exact hq
    · rw [node_put hput] at hq
      split_ifs at hq with hqp
      · cases hq
        rcases h with h | h | h
        · cases h
        · cases h
        · exact .inl (hqp ▸ h)
      · exact .inr hq
  · rw [put,dif_neg hput]
    exact .refl _ _

theorem grows_mkdir {mode : ℕ} (h : mkdir fs p mode = .ok fs') : Grows ps fs fs' := by
  obtain ⟨q,-,-,rfl⟩:=mkdir_ok h
  exact grows_put (.inl rfl)

/-! ## Where a path leads -/

/-- From the directory `cur` the path leads to the last place, through at most `k` links. -/
inductive Resolves (fs : FS) : ℕ → Path → Path → Path → Prop
  | done (k : ℕ) (cur : Path) : Resolves fs k cur [] cur
  | skip {k : ℕ} {cur rest d : Path} {c : Str} (hc : c = [] ∨ c = ['.']) (h : Resolves fs k cur rest d) :
      Resolves fs k cur (c :: rest) d
  | up {k : ℕ} {cur rest d : Path} (h : Resolves fs k cur.dropLast rest d) : Resolves fs k cur (['.','.'] :: rest) d
  | dir {k : ℕ} {cur rest d : Path} {c : Str} {m : ℕ} (hc : Plain c) (hn : fs.node (cur ++ [c]) = some (.dir m))
      (h : Resolves fs k (cur ++ [c]) rest d) : Resolves fs k cur (c :: rest) d
  | file {k : ℕ} {cur : Path} {c : Str} {i : ℕ} (hc : Plain c) (hn : fs.node (cur ++ [c]) = some (.file i)) :
      Resolves fs k cur [c] (cur ++ [c])
  | link {k : ℕ} {cur rest d : Path} {c t : Str} (hc : Plain c) (hn : fs.node (cur ++ [c]) = some (.link t))
      (h : Resolves fs k (if t.head? = some '/' then [] else cur) (t.splitOn '/' ++ rest) d) :
      Resolves fs (k + 1) cur (c :: rest) d

theorem resolves_of_walk {onLink : Path → Str → Path → Except Errno Path}
    (hk : ∀cur c t rest,Plain c → fs.node (cur++[c])=some (.link t) → onLink cur t rest = .ok d →
      Resolves fs k cur (c::rest) d) (h : walk fs onLink cur p = .ok d) : Resolves fs k cur p d := by
  induction p generalizing cur with
  | nil =>
    cases h
    exact .done k d
  | cons c rest ih =>
    by_cases hskip : c=[] ∨ c=['.']
    · rw [walk,if_pos hskip] at h
      exact .skip hskip (ih h)
    by_cases hup : c=['.','.']
    · subst hup
      exact .up (ih h)
    have hc : Plain c:=⟨fun e => hskip (.inl e),fun e => hskip (.inr e),hup⟩
    rw [walk_plain hc] at h
    cases hn : fs.node (cur++[c]) with
    | none =>
      rw [hn] at h
      cases h
    | some n =>
      rw [hn] at h
      cases n with
      | dir m => exact .dir hc hn (ih h)
      | file i =>
        split_ifs at h with hrest
        cases h
        rw [hrest]
        exact .file hc hn
      | link t => exact hk cur c t rest hc hn h

theorem resolves_of_follow (h : follow fs k cur p = .ok d) : Resolves fs k cur p d := by
  induction k generalizing cur p with
  | zero =>
    refine resolves_of_walk ?_ h
    intro cur c t rest hc hn hlink
    cases hlink
  | succ k ih => exact resolves_of_walk (fun _ _ _ _ hc hn hlink => .link hc hn (ih hlink)) h

theorem Resolves.follow (h : Resolves fs k cur p d) : follow fs k cur p = .ok d := by
  induction h with
  | done k cur => cases k <;> rfl
  | @skip k cur rest d c hc h ih =>
    obtain ⟨onLink,hw⟩:=@follow_eq_walk fs k
    rw [hw] at ih ⊢
    rw [walk,if_pos hc]
    exact ih
  | @up k cur rest d h ih =>
    obtain ⟨onLink,hw⟩:=@follow_eq_walk fs k
    rw [hw] at ih ⊢
    exact ih
  | @dir k cur rest d c m hc hn h ih =>
    obtain ⟨onLink,hw⟩:=@follow_eq_walk fs k
    rw [hw] at ih ⊢
    rw [walk_plain hc,hn]
    exact ih
  | @file k cur c i hc hn =>
    obtain ⟨onLink,hw⟩:=@follow_eq_walk fs k
    rw [hw,walk_plain hc,hn]
    rfl
  | @link k cur rest d c t hc hn h ih =>
    rw [FS.follow,walk_plain hc,hn]
    exact ih

theorem realpath_iff : realpath fs p = .ok d ↔ Resolves fs maxLinks [] p d := ⟨resolves_of_follow,Resolves.follow⟩

/-! ## Places -/

theorem isDir_nil (fs : FS) : fs.isDir []=true := isDir_iff.mpr ⟨_,fs.node_nil⟩

theorem Resolves.entry (h : Resolves fs k cur p d) (hcur : fs.isDir cur=true) : ∃n,fs.node d=some n := by
  induction h with
  | done k cur =>
    obtain ⟨m,hm⟩:=isDir_iff.mp hcur
    exact ⟨_,hm⟩
  | skip hc h ih => exact ih hcur
  | up h ih =>
    obtain ⟨m,hm⟩:=isDir_iff.mp hcur
    exact ih (isDir_dropLast hm)
  | dir hc hn h ih => exact ih (isDir_iff.mpr ⟨_,hn⟩)
  | file hc hn => exact ⟨_,hn⟩
  | link hc hn h ih =>
    apply ih
    split_ifs
    · exact isDir_nil _
    · exact hcur

/-- Both parts of a path that leads somewhere. -/
theorem Resolves.split (h : Resolves fs k cur (a++x) e) : ∃d k',Resolves fs k cur a d ∧ Resolves fs k' d x e := by
  generalize hp : a++x=p at h
  induction h generalizing a with
  | done k cur =>
    obtain ⟨rfl,rfl⟩:=append_eq_nil_iff.mp hp
    exact ⟨cur,k,.done k cur,.done k cur⟩
  | @skip k cur rest d c hc h ih =>
    cases a with
    | nil =>
      subst hp
      exact ⟨cur,k,.done k cur,.skip hc h⟩
    | cons c' a =>
      cases hp
      obtain ⟨d,k',hd,he⟩:=ih rfl
      exact ⟨d,k',.skip hc hd,he⟩
  | @up k cur rest d h ih =>
    cases a with
    | nil =>
      subst hp
      exact ⟨cur,k,.done k cur,.up h⟩
    | cons c' a =>
      cases hp
      obtain ⟨d,k',hd,he⟩:=ih rfl
      exact ⟨d,k',.up hd,he⟩
  | @dir k cur rest d c m hc hn h ih =>
    cases a with
    | nil =>
      subst hp
      exact ⟨cur,k,.done k cur,.dir hc hn h⟩
    | cons c' a =>
      cases hp
      obtain ⟨d,k',hd,he⟩:=ih rfl
      exact ⟨d,k',.dir hc hn hd,he⟩
  | @file k cur c i hc hn =>
    cases a with
    | nil =>
      subst hp
      exact ⟨cur,k,.done k cur,.file hc hn⟩
    | cons c' a =>
      obtain ⟨rfl,hrest⟩:=cons_eq_cons.mp hp
      obtain ⟨rfl,rfl⟩:=append_eq_nil_iff.mp hrest
      exact ⟨_,k,.file hc hn,.done k _⟩
  | @link k cur rest d c t hc hn h ih =>
    cases a with
    | nil =>
      subst hp
      exact ⟨cur,k+1,.done _ cur,.link hc hn h⟩
    | cons c' a =>
      cases hp
      obtain ⟨d,k',hd,he⟩:=ih (append_assoc _ _ _)
      exact ⟨d,k',.link hc hn hd,he⟩

theorem realpath_init (h : realpath fs (a++x) = .ok e) : ∃d,realpath fs a = .ok d := by
  obtain ⟨d,-,hd,-⟩:=(realpath_iff.mp h).split
  exact ⟨d,realpath_iff.mpr hd⟩

/-- No name of `x` behind `d` is a link. -/
def NoLinks (fs : FS) (d x : Path) : Prop := ∀ y, y <+: x → y ≠ [] → ∀ t, fs.node (d ++ y) ≠ some (.link t)

theorem NoLinks.tail {c : Str} (h : NoLinks fs d (c::x)) : NoLinks fs (d++[c]) x := by
  intro y hy _ t
  rw [append_assoc]
  exact h (c::y) (by simpa using hy) (by simp) t

theorem Resolves.straight (h : Resolves fs k cur x e) (hx : ∀c∈x,Plain c) (hn : NoLinks fs cur x) : e=cur++x := by
  induction h with
  | done k cur => simp
  | skip hc h ih =>
    have hplain:=hx _ mem_cons_self
    rcases hc with rfl | rfl
    · exact absurd rfl hplain.1
    · exact absurd rfl hplain.2.1
  | up h ih => exact absurd rfl (hx _ mem_cons_self).2.2
  | dir hc hd h ih =>
    rw [ih (fun c hc => hx c (mem_cons_of_mem _ hc)) hn.tail,append_assoc]
    rfl
  | file hc hd => rfl
  | link hc hd h ih => exact absurd hd (hn _ (by simp) (by simp) _)

/-- Behind the place that a path leads to, names that are no links stand for themselves. -/
theorem realpath_beyond (h : realpath fs a = .ok d) (hx : ∀c∈x,Plain c) (hn : NoLinks fs d x)
    (h' : realpath fs (a++x) = .ok e) : e=d++x := by
  obtain ⟨d',k',hd,he⟩:=(realpath_iff.mp h').split
  have heq : d'=d := by
    rw [←realpath_iff,h] at hd
    exact (Except.ok.inj hd).symm
  subst heq
  exact he.straight hx hn

/-! ## Added entries -/

/-- Every entry stays what it is; a directory may get another mode. -/
def Extends (fs fs' : FS) : Prop :=
  ∀ q n, fs.node q = some n → fs'.node q = some n ∨ n.isDir = true ∧ fs'.isDir q = true

theorem Extends.refl (fs : FS) : Extends fs fs := fun _ _ h => .inl h

theorem Extends.isDir (h : Extends fs fs') (hd : fs.isDir q=true) : fs'.isDir q=true := by
  obtain ⟨m,hm⟩:=isDir_iff.mp hd
  rcases h q _ hm with hsame | ⟨-,hdir⟩
  · exact isDir_iff.mpr ⟨m,hsame⟩
  · exact hdir

theorem extends_put {n : Node} (hn : fs.node p=none ∨ fs.isDir p=true ∧ n.isDir=true) : Extends fs (fs.put p n) := by
  by_cases hput : fs.Puttable p n
  · intro q m hm
    rw [isDir,node_put hput]
    split_ifs with hq
    · subst hq
      rcases hn with hnone | ⟨hd,hdir⟩
      · rw [hnone] at hm
        cases hm
      · rw [isDir,hm] at hd
        exact .inr ⟨hd,hdir⟩
    · exact .inl hm
  · rw [put,dif_neg hput]
    exact .refl fs

theorem Resolves.extends (h : Resolves fs k cur p d) (hext : Extends fs fs') : Resolves fs' k cur p d := by
  induction h with
  | done k cur => exact .done k cur
  | skip hc h ih => exact .skip hc ih
  | up h ih => exact .up ih
  | dir hc hn h ih =>
    obtain ⟨m,hm⟩:=isDir_iff.mp (hext.isDir (isDir_iff.mpr ⟨_,hn⟩))
    exact .dir hc hm ih
  | file hc hn =>
    rcases hext _ _ hn with hsame | ⟨hdir,-⟩
    · exact .file hc hsame
    · cases hdir
  | link hc hn h ih =>
    rcases hext _ _ hn with hsame | ⟨hdir,-⟩
    · exact .link hc hsame ih
    · cases hdir

theorem Extends.realpath (h : Extends fs fs') (hp : realpath fs p = .ok d) : realpath fs' p = .ok d :=
  realpath_iff.mpr ((realpath_iff.mp hp).extends h)

theorem locate_concat {c : Str} (hd : realpath fs a = .ok d) (hdir : fs.isDir d=true) :
    locate fs (a++[c]) = .ok (d++[c]) := by
  rw [locate,dropLast_concat,hd]
  simp [hdir]

theorem locate_cases (h : locate fs p = .ok q) :
    p=[] ∧ q=[] ∨ ∃a c d,p=a++[c] ∧ realpath fs a = .ok d ∧ fs.isDir d=true ∧ q=d++[c] := by
  rcases eq_nil_or_concat' p with rfl | ⟨a,c,rfl⟩
  · cases h
    exact .inl ⟨rfl,rfl⟩
  rw [locate,if_neg (by simp),dropLast_concat] at h
  cases hd : realpath fs a with
  | error e =>
    rw [hd] at h
    cases h
  | ok d =>
    rw [hd] at h
    change (if _ then _ else _)=_ at h
    split_ifs at h with hdir
    cases h
    exact .inr ⟨a,c,d,rfl,hd,hdir,by simp⟩

theorem Extends.locate (h : Extends fs fs') (hp : locate fs p = .ok q) : locate fs' p = .ok q := by
  rcases locate_cases hp with ⟨rfl,rfl⟩ | ⟨a,c,d,rfl,hd,hdir,rfl⟩
  · rfl
  · exact locate_concat (h.realpath hd) (h.isDir hdir)

end Ratarmount.Posix.FS
