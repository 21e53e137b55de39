import Mathlib.Data.Finset.Insert
import Mathlib.Data.List.AList
import Ratarmount.MountSource

/-!
# Rows of the overlay database and tombstones in memory

What one finished change of the overlay folder writes to the `files` table, and
what it does to the set of deleted paths that the mount keeps in memory. Both
follow from what the change says about each path.
-/

namespace Ratarmount.Overlay

open AList

open Mount (Path)

/-- `PendingFilesOp`: a change whose effect on the overlay folder already happened. -/
inductive FilesOp
  | rename (src dst : Path) (mode : ℕ) (hidesFrom : Bool)
  | deleted (path : Path) (hidesBase : Bool)
  | present (path : Path) (mode : ℕ)
  | clearDeleted (path : Path)
  deriving DecidableEq

structure Row where
  mode : Option ℕ
  deleted : Bool
  deriving DecidableEq

abbrev Files := AList (fun _ : Path => Row)

def Files.markPresent (t : Files) (p : Path) (mode : ℕ) : Files := t.insert p ⟨some mode,false⟩

/-- `INSERT OR REPLACE` of a tombstone, or the removal of the row. -/
def Files.markDeleted (t : Files) (p : Path) (hides : Bool) : Files :=
  if hides then t.insert p ⟨none,true⟩ else t.erase p

def applyFilesOpSql (t : Files) : FilesOp → Files
  | .rename src dst mode hidesFrom => (t.markPresent dst mode).markDeleted src hidesFrom
  | .deleted p hidesBase => t.markDeleted p hidesBase
  | .present p mode => t.markPresent p mode
  | .clearDeleted p =>
    match t.lookup p with
    | some row => t.insert p { row with deleted := false }
    | none => t

def applyPendingOpsSql (t : Files) (ops : List FilesOp) : Files := ops.foldl applyFilesOpSql t

def tombstoneMark (set : Finset Path) (p : Path) (hides : Bool) : Finset Path :=
  if hides then insert p set else set.erase p

/-- The change of the in-memory set that follows the row write. -/
def rememberOp (set : Finset Path) : FilesOp → Finset Path
  | .rename src dst _ hidesFrom => tombstoneMark (set.erase dst) src hidesFrom
  | .deleted p hidesBase => tombstoneMark set p hidesBase
  | .present p _ => set.erase p
  | .clearDeleted p => set.erase p

/-! ## What a change says about a path -/

/-- Whether the path is a tombstone after the change, where the change says so. -/
def FilesOp.verdict (p : Path) : FilesOp → Option Bool
  | .rename src dst _ hidesFrom => if p = src then some hidesFrom else if p = dst then some false else none
  | .deleted q hidesBase => if p = q then some hidesBase else none
  | .present q _ => if p = q then some false else none
  | .clearDeleted q => if p = q then some false else none

def Files.isDeleted (t : Files) (p : Path) : Bool := (t.lookup p).any Row.deleted

theorem isDeleted_markPresent (t : Files) (p q : Path) (mode : ℕ) :
    (t.markPresent q mode).isDeleted p=if p=q then false else t.isDeleted p := by
  rw [Files.isDeleted,Files.markPresent]
  split_ifs with h
  · rw [h,lookup_insert]
    rfl
  · rw [lookup_insert_ne h]
    rfl

theorem isDeleted_markDeleted (t : Files) (p q : Path) (hides : Bool) :
    (t.markDeleted q hides).isDeleted p=if p=q then hides else t.isDeleted p := by
  rw [Files.isDeleted,Files.markDeleted]
  by_cases h : p=q
  · rw [if_pos h,h]
    cases hides
    · rw [if_neg (by simp),lookup_erase]
      rfl
    · rw [if_pos rfl,lookup_insert]
      rfl
  · rw [if_neg h]
    cases hides
    · rw [if_neg (by simp),lookup_erase_ne h]
      rfl
    · rw [if_pos rfl,lookup_insert_ne h]
      rfl

theorem isDeleted_apply (t : Files) (op : FilesOp) (p : Path) :
    (applyFilesOpSql t op).isDeleted p=(op.verdict p).getD (t.isDeleted p) := by
  cases op with
  | rename src dst mode hidesFrom =>
    rw [applyFilesOpSql,isDeleted_markDeleted,isDeleted_markPresent,FilesOp.verdict]
    split_ifs <;> rfl
  | deleted q hidesBase =>
    rw [applyFilesOpSql,isDeleted_markDeleted,FilesOp.verdict]
    split_ifs <;> rfl
  | present q mode =>
    rw [applyFilesOpSql,isDeleted_markPresent,FilesOp.verdict]
    split_ifs <;> rfl
  | clearDeleted q =>
    rw [applyFilesOpSql,FilesOp.verdict,Files.isDeleted]
    by_cases h : p=q
    · rw [h]
      cases hrow : t.lookup q with
      | none => simp [hrow]
      | some row => simp
    · rw [if_neg h]
      cases hrow : t.lookup q with
      | none => rfl
      | some row =>
        rw [lookup_insert_ne h]
        rfl

theorem mem_tombstoneMark (set : Finset Path) (p q : Path) (hides : Bool) :
    decide (p∈tombstoneMark set q hides)=if p=q then hides else decide (p∈set) := by
  rw [tombstoneMark]
  cases hides <;> by_cases h : p=q <;> simp [h]

theorem mem_rememberOp (set : Finset Path) (op : FilesOp) (p : Path) :
    decide (p∈rememberOp set op)=(op.verdict p).getD (decide (p∈set)) := by
  cases op with
  | rename src dst mode hidesFrom =>
    rw [rememberOp,mem_tombstoneMark,FilesOp.verdict]
    split_ifs with h1 h2 <;> simp [*]
  | deleted q hidesBase =>
    rw [rememberOp,mem_tombstoneMark,FilesOp.verdict]
    split_ifs <;> rfl
  | present q mode =>
    rw [rememberOp,FilesOp.verdict]
    split_ifs <;> simp [*]
  | clearDeleted q =>
    rw [rememberOp,FilesOp.verdict]
    split_ifs <;> simp [*]

end Ratarmount.Overlay
