import Ratarmount.ExceptRuns
import Ratarmount.PosixTree

/-!
# Calls on a file tree

Path resolution, and the calls by path. A call returns its result or an error,
and the tree it leaves; only the creation of several directories leaves a changed
tree with an error.
-/

namespace Ratarmount.Posix

open List

/-- The entry limit of one resolution, `ELOOP` beyond it. -/
def maxLinks : ℕ := 40

namespace FS

variable (fs : FS)

/-- From the directory `cur` through `rest`; `onLink` goes on at a link in `cur`. -/
def walk (onLink : Path → Str → Path → Except Errno Path) : Path → Path → Except Errno Path
  | cur, [] => .ok cur
  | cur, c :: rest =>
    if c = [] ∨ c = ['.'] then walk onLink cur rest
    else if c = ['.','.'] then walk onLink cur.dropLast rest
    else match fs.node (cur ++ [c]) with
      | none => .error .noEnt
      | some (.dir _) => walk onLink (cur ++ [c]) rest
      | some (.file _) => if rest = [] then .ok (cur ++ [c]) else .error .notDir
      | some (.link t) => onLink cur t rest

def follow : ℕ → Path → Path → Except Errno Path
  | 0 => walk fs fun _ _ _ => .error .loop
  | n + 1 => walk fs fun cur t rest => follow n (if t.head? = some '/' then [] else cur) (t.splitOn '/' ++ rest)

def realpath (p : Path) : Except Errno Path := follow fs maxLinks [] p

/-- The place of the last component, itself not followed. -/
def locate (p : Path) : Except Errno Path :=
  if p = [] then .ok []
  else do
    let d ← realpath fs p.dropLast
    if fs.isDir d then .ok (d ++ [p.getLastD []]) else .error .notDir

def entryAt (q : Path) : Except Errno Node :=
  match fs.node q with
  | some n => .ok n
  | none => .error .noEnt

def lstat (p : Path) : Except Errno Node := do entryAt fs (← locate fs p)

def stat (p : Path) : Except Errno Node := do entryAt fs (← realpath fs p)

def readDir (p : Path) : Except Errno (List Str) := do
  let q ← realpath fs p
  if fs.isDir q then .ok (fs.children q) else .error .notDir

def mkdir (p : Path) (mode : ℕ) : Except Errno FS := do
  let q ← locate fs p
  if (fs.node q).isSome then .error .exist else .ok (fs.put q (.dir mode))

/-- The directories `ps` in turn, each made where it is missing; at most `room` are made. -/
def mkdirs : ℕ → List Path → FS → Except Errno Unit × FS
  | _, [], fs => (.ok (),fs)
  | room, q :: qs, fs =>
    match stat fs q with
    | .ok (.dir _) => mkdirs room qs fs
    | .ok _ => (.error .exist,fs)
    | .error .noEnt =>
      match room, mkdir fs q 0o755 with
      | 0, _ => (.error .io,fs)
      | _, .error e => (.error e,fs)
      | room + 1, .ok fs => mkdirs room qs fs
    | .error e => (.error e,fs)

def createDirAll (room : ℕ) (p : Path) : Except Errno Unit × FS := mkdirs room p.inits fs

structure OpenFlags where
  write : Bool
  create : Bool
  excl : Bool
  trunc : Bool
  deriving DecidableEq

/-- An open that follows no link at the end: the inode, or `none` for a directory opened to read. -/
def openAt (p : Path) (flags : OpenFlags) (mode : ℕ) : Except Errno (Option ℕ × FS) := do
  let q ← locate fs p
  match fs.node q with
  | none =>
    if flags.create then
      let (i,fs) := fs.alloc ⟨[],mode⟩
      .ok (some i,fs.put q (.file i))
    else .error .noEnt
  | some n =>
    if flags.create && flags.excl then .error .exist
    else match n with
      | .link _ => .error .loop
      | .dir _ => if flags.write || flags.create || flags.trunc then .error .isDir else .ok (none,fs)
      | .file i =>
        .ok (some i,if flags.trunc then fs.setInode i { fs.inodes i with bytes := [] } else fs)

def unlink (p : Path) : Except Errno FS := do
  let q ← locate fs p
  match fs.node q with
  | none => .error .noEnt
  | some (.dir _) => .error .isDir
  | some _ => .ok (fs.remove q)

def rmdir (p : Path) : Except Errno FS := do
  let q ← locate fs p
  match fs.node q with
  | none => .error .noEnt
  | some (.dir _) => if q = [] then .error .inval else if fs.Childless q then .ok (fs.remove q) else .error .notEmpty
  | some _ => .error .notDir

/-- Two names of one file are left as they are. Directories are not renamed here. -/
def rename (p p' : Path) : Except Errno FS := do
  let q ← locate fs p
  let q' ← locate fs p'
  match fs.node q, fs.node q' with
  | none, _ => .error .noEnt
  | some (.dir _), _ => .error .inval
  | some _, some (.dir _) => .error .isDir
  | some n, old => if q = q' ∨ (n.ino?.isSome ∧ old = some n) then .ok fs else .ok ((fs.remove q).put q' n)

def symlink (target : Str) (p : Path) : Except Errno FS := do
  let q ← locate fs p
  if (fs.node q).isSome then .error .exist else .ok (fs.put q (.link target))

def chmod (p : Path) (mode : ℕ) : Except Errno FS := do
  let q ← locate fs p
  match fs.node q with
  | none => .error .noEnt
  | some (.link _) => .error .inval
  | some (.dir _) => .ok (fs.put q (.dir mode))
  | some (.file i) => .ok (fs.setInode i { fs.inodes i with mode := mode })

/-! ## Away from links -/

def Plain (c : Str) : Prop := c ≠ [] ∧ c ≠ ['.'] ∧ c ≠ ['.','.']

variable {fs} {onLink : Path → Str → Path → Except Errno Path} {cur rest p : Path} {n : Node}

theorem walk_plain {c : Str} (hc : Plain c) : walk fs onLink cur (c::rest)=match fs.node (cur++[c]) with
    | none => .error .noEnt
    | some (.dir _) => walk fs onLink (cur++[c]) rest
    | some (.file _) => if rest=[] then .ok (cur++[c]) else .error .notDir
    | some (.link t) => onLink cur t rest := by
  rw [walk,if_neg (by simp [hc.1,hc.2.1]),if_neg hc.2.2]

theorem follow_eq_walk (k : ℕ) : ∃onLink,follow fs k=walk fs onLink := by
  cases k with
  | zero => exact ⟨_,rfl⟩
  | succ k => exact ⟨_,rfl⟩

/-! ## What a call did -/

variable {fs' : FS} {p' : Path} {mode : ℕ}

theorem mkdir_ok (h : mkdir fs p mode = .ok fs') : ∃q,locate fs p = .ok q ∧ fs.node q=none ∧ fs'=fs.put q (.dir mode) := by
  obtain ⟨q,hq,hk⟩:=bind_ok h
  split_ifs at hk with hn
  cases hk
  exact ⟨q,hq,by simpa using hn,rfl⟩

theorem symlink_ok {target : Str} (h : symlink fs target p = .ok fs') :
    ∃q,locate fs p = .ok q ∧ fs.node q=none ∧ fs'=fs.put q (.link target) := by
  obtain ⟨q,hq,hk⟩:=bind_ok h
  split_ifs at hk with hn
  cases hk
  exact ⟨q,hq,by simpa using hn,rfl⟩

/-- A new file, a directory opened to read, or a file that was there. -/
theorem openAt_ok {flags : OpenFlags} {ino : Option ℕ} (h : openAt fs p flags mode = .ok (ino,fs')) :
    ∃q,locate fs p = .ok q ∧ ((fs.node q=none ∧ ino=some fs.next ∧ fs'=(fs.alloc ⟨[],mode⟩).2.put q (.file fs.next)) ∨
        (∃m,fs.node q=some (.dir m) ∧ flags.write=false ∧ ino=none ∧ fs'=fs) ∨
        ∃i,fs.node q=some (.file i) ∧ ino=some i ∧
          fs'=if flags.trunc then fs.setInode i { fs.inodes i with bytes := [] } else fs) := by
  obtain ⟨q,hq,hk⟩:=bind_ok h
  refine ⟨q,hq,?_⟩
  cases hn : fs.node q with
  | none =>
    rw [hn] at hk
    dsimp only at hk
    split_ifs at hk
    cases hk
    exact .inl ⟨rfl,rfl,rfl⟩
  | some n =>
    rw [hn] at hk
    dsimp only at hk
    by_cases hx : (flags.create && flags.excl)=true
    · rw [if_pos hx] at hk
      cases hk
    rw [if_neg hx] at hk
    cases n with
    | link t => cases hk
    | dir m =>
      dsimp only at hk
      split_ifs at hk with hw
      cases hk
      simp only [Bool.or_eq_true,not_or,Bool.not_eq_true] at hw
      exact .inr (.inl ⟨m,rfl,hw.1.1,rfl,rfl⟩)
    | file i =>
      cases hk
      exact .inr (.inr ⟨i,rfl,rfl,rfl⟩)

theorem ne_nil_of_node (h : fs.node p=some n) (hd : n.isDir=false) : p≠[] := by
  rintro rfl
  cases h
  cases hd

theorem unlink_ok (h : unlink fs p = .ok fs') :
    ∃q n,locate fs p = .ok q ∧ fs.node q=some n ∧ n.isDir=false ∧ fs'=fs.remove q := by
  obtain ⟨q,hq,hk⟩:=bind_ok h
  cases hn : fs.node q with
  | none =>
    rw [hn] at hk
    cases hk
  | some n =>
    rw [hn] at hk
    cases n with
    | dir m => cases hk
    | link _ | file _ =>
      cases hk
      exact ⟨q,_,hq,hn,rfl,rfl⟩

theorem rmdir_ok (h : rmdir fs p = .ok fs') :
    ∃q,locate fs p = .ok q ∧ q≠[] ∧ fs.isDir q=true ∧ fs.Childless q ∧ fs'=fs.remove q := by
  obtain ⟨q,hq,hk⟩:=bind_ok h
  cases hn : fs.node q with
  | none =>
    rw [hn] at hk
    cases hk
  | some n =>
    rw [hn] at hk
    cases n with
    | dir m =>
      split_ifs at hk with hnil hc
      cases hk
      exact ⟨q,hq,hnil,isDir_iff.mpr ⟨m,hn⟩,hc,rfl⟩
    | _ => cases hk

theorem chmod_ok (h : chmod fs p mode = .ok fs') : ∃q,locate fs p = .ok q ∧
    ((∃m,fs.node q=some (.dir m) ∧ fs'=fs.put q (.dir mode)) ∨
      ∃i,fs.node q=some (.file i) ∧ fs'=fs.setInode i { fs.inodes i with mode := mode }) := by
  obtain ⟨q,hq,hk⟩:=bind_ok h
  refine ⟨q,hq,?_⟩
  cases hn : fs.node q with
  | none =>
    rw [hn] at hk
    cases hk
  | some n =>
    rw [hn] at hk
    cases n with
    | dir m =>
      cases hk
      exact .inl ⟨m,rfl,rfl⟩
    | link t => cases hk
    | file i =>
      cases hk
      exact .inr ⟨i,rfl,rfl⟩

/-- Two names of one file stay; else the entry, which is no directory, moves. -/
theorem rename_ok (h : rename fs p p' = .ok fs') : ∃q q' n,locate fs p = .ok q ∧ locate fs p' = .ok q' ∧
    fs.node q=some n ∧ n.isDir=false ∧ fs.isDir q'=false ∧ (fs'=fs ∧ (q=q' ∨ n.ino?.isSome ∧ fs.node q'=some n) ∨
      q≠q' ∧ (n.ino?.isSome → fs.node q'≠some n) ∧ fs'=(fs.remove q).put q' n) := by
  obtain ⟨q,hq,h⟩:=bind_ok h
  obtain ⟨q',hq',hk⟩:=bind_ok h
  have hmove : ∀{n : Node},(if q=q' ∨ (n.ino?.isSome ∧ fs.node q'=some n) then .ok fs
      else .ok ((fs.remove q).put q' n) : Except Errno FS) = .ok fs' →
      fs'=fs ∧ (q=q' ∨ n.ino?.isSome ∧ fs.node q'=some n) ∨
        q≠q' ∧ (n.ino?.isSome → fs.node q'≠some n) ∧ fs'=(fs.remove q).put q' n := by
    intro n hk
    split_ifs at hk with hsame
    · cases hk
      exact .inl ⟨rfl,hsame⟩
    · cases hk
      rw [not_or,not_and] at hsame
      exact .inr ⟨hsame.1,hsame.2,rfl⟩
  cases hn : fs.node q with
  | none =>
    rw [hn] at hk
    cases hk
  | some n =>
    cases hn' : fs.node q' with
    | none =>
      rw [hn] at hk
      rw [hn'] at hk hmove
      cases n with
      | dir m => cases hk
      | link _ | file _ => exact ⟨q,q',_,hq,hq',hn,rfl,by rw [isDir,hn']; rfl,hn' ▸ hmove hk⟩
    | some n' =>
      rw [hn] at hk
      rw [hn'] at hk hmove
      cases n with
      | dir m => cases hk
      | link _ | file _ =>
        cases n' with
        | dir m => cases hk
        | link _ | file _ => exact ⟨q,q',_,hq,hq',hn,rfl,by rw [isDir,hn']; rfl,hn' ▸ hmove hk⟩

end FS

def resize (bytes : List UInt8) (n : ℕ) : List UInt8 := bytes.take n ++ List.replicate (n - bytes.length) 0

/-- A write at an offset; a gap before it is zeros, and an empty write leaves the file. -/
def overwrite (bytes : List UInt8) (offset : ℕ) (data : List UInt8) : List UInt8 :=
  if data = [] then bytes else resize bytes offset ++ data ++ bytes.drop (offset + data.length)

end Ratarmount.Posix
