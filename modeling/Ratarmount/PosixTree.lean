import Mathlib.Data.List.AList
import Mathlib.Data.List.Infix
import Mathlib.Tactic.Common
import Ratarmount.Utf8Text

/-!
# File trees with symbolic links and inodes

Entries by absolute path, the contents of files behind their inodes, and the
calls that read and change them. A path is resolved component by component, a
symbolic link on the way by its target; the last component is followed or kept as
the call asks. Away from links a path stands for itself, and the second half says
what the calls do there.
-/

namespace Ratarmount.Posix

open List Option AList

abbrev Path := List Str

inductive Errno
  | noEnt
  | exist
  | notDir
  | isDir
  | notEmpty
  | loop
  | perm
  | inval
  | io
  | roFs
  | quota
  deriving DecidableEq

inductive Node
  | dir (mode : ℕ)
  | link (target : Str)
  | file (ino : ℕ)
  deriving DecidableEq

def Node.isDir : Node → Bool
  | .dir _ => true
  | _ => false

def Node.ino? : Node → Option ℕ
  | .file i => some i
  | _ => none

/-- The node refers to no inode from `next` on. -/
def Node.below (next : ℕ) (n : Node) : Bool := n.ino?.all (· < next)

structure Inode where
  bytes : List UInt8
  mode : ℕ

/-- Every entry stands in a directory. Inodes from `next` on are free. -/
structure FS where
  entries : AList (fun _ : Path => Node)
  inodes : ℕ → Inode
  next : ℕ
  rooted : ∀ p n, entries.lookup p = some n →
    p ≠ [] ∧ (p.dropLast = [] ∨ ∃ m, entries.lookup p.dropLast = some (.dir m))
  allocated : ∀ p n, entries.lookup p = some n → n.below next = true

namespace FS

def empty : FS where
  entries := ∅
  inodes _ := ⟨[],0⟩
  next := 0
  rooted p n h := by simp at h
  allocated p n h := by simp at h

def node (fs : FS) (p : Path) : Option Node := if p = [] then some (.dir 0o755) else fs.entries.lookup p

def isDir (fs : FS) (p : Path) : Bool := (fs.node p).any Node.isDir

def children (fs : FS) (p : Path) : List Str :=
  fs.entries.keys.filterMap fun q => if q.dropLast = p then q.getLast? else none

variable {fs : FS} {p : Path}

theorem isDir_iff : fs.isDir p=true ↔ ∃m,fs.node p=some (.dir m) := by
  rw [isDir]
  cases h : fs.node p with
  | none => simp
  | some n => cases n <;> simp [Node.isDir]

theorem node_nil (fs : FS) : fs.node []=some (.dir 0o755) := if_pos rfl

theorem node_of_ne (fs : FS) (h : p≠[]) : fs.node p=fs.entries.lookup p := if_neg h

theorem isDir_dropLast {fs : FS} {p : Path} {n : Node} (h : fs.node p=some n) : fs.isDir p.dropLast=true := by
  rw [isDir_iff]
  by_cases hp : p=[]
  · exact ⟨0o755,by rw [hp]; rfl⟩
  · rw [fs.node_of_ne hp] at h
    by_cases hd : p.dropLast=[]
    · exact ⟨0o755,by rw [hd]; rfl⟩
    · obtain ⟨m,hm⟩:=((fs.rooted p n h).2).resolve_left hd
      exact ⟨m,by rw [fs.node_of_ne hd,hm]⟩

theorem isDir_of_append {fs : FS} {p q : Path} {n : Node} (h : fs.node (p++q)=some n) (hq : q≠[]) :
    fs.isDir p=true := by
  induction q using List.reverseRecOn generalizing n with
  | nil => exact absurd rfl hq
  | append_singleton q c ih =>
    have hd:=isDir_dropLast h
    rw [←append_assoc,dropLast_concat] at hd
    by_cases hq' : q=[]
    · rwa [hq',append_nil] at hd
    · obtain ⟨m,hm⟩:=isDir_iff.mp hd
      exact ih hm hq'

/-! ## Changes of one entry -/

/-- The directory of `p` is there, and a directory keeps being one. -/
def Puttable (fs : FS) (p : Path) (n : Node) : Prop :=
  p ≠ [] ∧ fs.isDir p.dropLast = true ∧ (fs.isDir p = true → n.isDir = true) ∧ n.below fs.next = true

instance (fs : FS) (p : Path) (n : Node) : Decidable (fs.Puttable p n) := inferInstanceAs (Decidable (_ ∧ _))

theorem lookup_insert_eq (t : AList (fun _ : Path => Node)) (p q : Path) (n : Node) :
    (t.insert p n).lookup q=if q=p then some n else t.lookup q := by
  split_ifs with h
  · rw [h,lookup_insert]
  · exact lookup_insert_ne h

theorem lookup_erase_eq (t : AList (fun _ : Path => Node)) (p q : Path) :
    (t.erase p).lookup q=if q=p then none else t.lookup q := by
  split_ifs with h
  · rw [h,lookup_erase]
  · exact lookup_erase_ne h

def put (fs : FS) (p : Path) (n : Node) : FS :=
  if h : fs.Puttable p n then
    { fs with
      entries := fs.entries.insert p n
      rooted := by
        obtain ⟨hp,hd,hkeep,-⟩ := h
        intro q m hq
        -- a directory that was there is there after the insertion
        have hdir : ∀ d, (d = [] ∨ ∃ m, fs.entries.lookup d = some (.dir m)) →
            d = [] ∨ ∃ m, (fs.entries.insert p n).lookup d = some (.dir m) := by
          rintro d (hd | ⟨m,hm⟩)
          · exact .inl hd
          · right
            simp only [lookup_insert_eq]
            split_ifs with hdp
            · have hnode : fs.isDir p = true := isDir_iff.mpr ⟨m,by rw [fs.node_of_ne hp,← hdp,hm]⟩
              cases n with
              | dir k => exact ⟨k,rfl⟩
              | link t => exact absurd (hkeep hnode) (by simp [Node.isDir])
              | file i => exact absurd (hkeep hnode) (by simp [Node.isDir])
            · exact ⟨m,hm⟩
        rw [lookup_insert_eq] at hq
        split_ifs at hq with hqp
        · subst hqp
          refine ⟨hp,hdir _ ?_⟩
          by_cases hnil : q.dropLast = []
          · exact .inl hnil
          · obtain ⟨k,hk⟩ := isDir_iff.mp hd
            exact .inr ⟨k,by rw [← fs.node_of_ne hnil,hk]⟩
        · exact ⟨(fs.rooted q m hq).1,hdir _ (fs.rooted q m hq).2⟩
      allocated := by
        intro q m hq
        rw [lookup_insert_eq] at hq
        split_ifs at hq with hqp
        · rw [← some_inj.mp hq]
          exact h.2.2.2
        · exact fs.allocated q m hq }
  else fs

def Childless (fs : FS) (p : Path) : Prop := ∀ q ∈ fs.entries.keys, q.dropLast ≠ p

instance (fs : FS) (p : Path) : Decidable (fs.Childless p) := inferInstanceAs (Decidable (∀ q ∈ _, _))

def remove (fs : FS) (p : Path) : FS :=
  if h : fs.Childless p then
    { fs with
      entries := fs.entries.erase p
      rooted := by
        intro q n hq
        rw [lookup_erase_eq] at hq
        split_ifs at hq with hqp
        have hold := fs.rooted q n hq
        refine ⟨hold.1,hold.2.imp_right ?_⟩
        rintro ⟨m,hm⟩
        have hmem : q ∈ fs.entries.keys := mem_keys.mp (lookup_isSome.mp (by rw [hq]; rfl))
        exact ⟨m,by rw [lookup_erase_eq,if_neg (h q hmem),hm]⟩
      allocated := by
        intro q n hq
        rw [lookup_erase_eq] at hq
        split_ifs at hq
        exact fs.allocated q n hq }
  else fs

theorem node_put {n : Node} (h : fs.Puttable p n) (q : Path) :
    (fs.put p n).node q=if q=p then some n else fs.node q := by
  rw [put,dif_pos h]
  by_cases hq : q=[]
  · rw [hq,if_neg h.1.symm,node_nil,node_nil]
  · rw [node_of_ne _ hq,node_of_ne _ hq]
    exact lookup_insert_eq _ _ _ _

theorem node_remove {fs : FS} {p : Path} (h : fs.Childless p) (hp : p≠[]) (q : Path) :
    (fs.remove p).node q=if q=p then none else fs.node q := by
  rw [remove,dif_pos h]
  by_cases hq : q=[]
  · rw [hq,if_neg hp.symm,node_nil,node_nil]
  · rw [node_of_ne _ hq,node_of_ne _ hq]
    exact lookup_erase_eq _ _ _

theorem childless_of_not_isDir (h : fs.isDir p=false) : fs.Childless p := by
  intro q hq hd
  obtain ⟨n,hn⟩:=isSome_iff_exists.mp (lookup_isSome.mpr (mem_keys.mpr hq))
  have hdir:=@isDir_dropLast fs q n (by rw [fs.node_of_ne (fs.rooted q n hn).1,hn])
  rw [hd,h] at hdir
  cases hdir

@[simp] theorem inodes_put (fs : FS) (p : Path) (n : Node) : (fs.put p n).inodes=fs.inodes := by
  rw [put]
  split_ifs <;> rfl

@[simp] theorem inodes_remove (fs : FS) (p : Path) : (fs.remove p).inodes=fs.inodes := by
  rw [remove]
  split_ifs <;> rfl

@[simp] theorem next_put (fs : FS) (p : Path) (n : Node) : (fs.put p n).next=fs.next := by
  rw [put]
  split_ifs <;> rfl

@[simp] theorem next_remove (fs : FS) (p : Path) : (fs.remove p).next=fs.next := by
  rw [remove]
  split_ifs <;> rfl

def setInode (fs : FS) (i : ℕ) (x : Inode) : FS := { fs with inodes := Function.update fs.inodes i x }

def alloc (fs : FS) (x : Inode) : ℕ × FS :=
  (fs.next,{ fs with
    inodes := Function.update fs.inodes fs.next x
    next := fs.next + 1
    allocated := by
      intro p n h
      have := fs.allocated p n h
      cases n with
      | file i => simp only [Node.below,Node.ino?,all_some,decide_eq_true_eq] at this ⊢; omega
      | _ => rfl })

@[simp] theorem node_setInode (fs : FS) (i : ℕ) (x : Inode) (p : Path) : (fs.setInode i x).node p=fs.node p := rfl

@[simp] theorem node_alloc (fs : FS) (x : Inode) (p : Path) : (fs.alloc x).2.node p=fs.node p := rfl

end FS

end Ratarmount.Posix
