import Mathlib.Data.Nat.Notation
import Mathlib.Algebra.Order.Group.Nat
import Mathlib.Tactic.Ring

/-!
# Fixed fields of byte strings

Slices of a byte string, fields cut out of a concatenation, and little-endian
integers of a fixed width.
-/

namespace Ratarmount

open List

abbrev Bytes := List UInt8

namespace Bytes

/-- `xs[start..start + len]`, shorter where the string ends. -/
def slice (xs : Bytes) (start len : ℕ) : Bytes := (xs.drop start).take len

@[simp] theorem length_slice (xs : Bytes) (start len : ℕ) :
    (xs.slice start len).length=min len (xs.length-start) := by simp [slice]

theorem slice_length_eq {xs : Bytes} {start len : ℕ} (h : start+len≤xs.length) : (xs.slice start len).length=len := by
  rw [length_slice]
  omega

/-- The field that follows `pre` in a concatenation. -/
theorem slice_append (pre mid post : Bytes) {start len : ℕ} (hs : start=pre.length)
    (hl : len=mid.length) : slice (pre++(mid++post)) start len=mid := by
  subst hs hl
  simp [slice]

theorem slice_append_end (pre mid : Bytes) {start len : ℕ} (hs : start=pre.length)
    (hl : len=mid.length) : slice (pre++mid) start len=mid := by
  subst hs hl
  simp [slice]

/-- The field with number `k` of a concatenation. -/
theorem slice_flatten {fields : List Bytes} (k : ℕ) {field : Bytes} (h : fields[k]?=some field) {start len : ℕ}
    (hs : start=(fields.take k).flatten.length) (hl : len=field.length) : slice fields.flatten start len=field := by
  obtain ⟨hk,rfl⟩:=List.getElem?_eq_some_iff.mp h
  have hsplit : fields.flatten=(fields.take k).flatten++(fields[k]++(fields.drop (k+1)).flatten) := by
    rw [←flatten_cons,getElem_cons_drop,←flatten_append,take_append_drop]
  rw [hsplit]
  exact slice_append _ _ _ hs hl

theorem slice_append_right (pre post : Bytes) {start len k : ℕ} (hs : start=pre.length+k) :
    slice (pre++post) start len=post.slice k len := by
  subst hs
  rw [slice,slice,drop_append,drop_eq_nil_of_le (Nat.le_add_right _ _),nil_append,Nat.add_sub_cancel_left]

theorem slice_append_left (pre post : Bytes) {start len : ℕ} (h : start+len≤pre.length) :
    slice (pre++post) start len=pre.slice start len := by
  have hd : start≤pre.length := by omega
  rw [slice,slice,drop_append_of_le_length hd,take_append_of_le_length (by simp; omega)]

@[simp] theorem slice_zero_length (xs : Bytes) : xs.slice 0 xs.length=xs := by simp [slice]

theorem slice_slice (xs : Bytes) {a b c d : ℕ} (h : c+d≤b) : (xs.slice a b).slice c d=xs.slice (a+c) d := by
  simp only [slice,drop_take,take_take,drop_drop]
  rw [min_eq_left (by omega)]

theorem length_le_flatMap {α : Type} {xs : List α} {bytes : α → Bytes} (h : ∀x∈xs,0<(bytes x).length) :
    xs.length≤(xs.flatMap bytes).length := by
  induction xs with
  | nil => exact le_rfl
  | cons x xs ih =>
    have hfirst:=h x mem_cons_self
    have hrest:=ih fun y hy => h y (mem_cons_of_mem _ hy)
    rw [flatMap_cons,length_append,length_cons]
    omega

def zeros (len : ℕ) : Bytes := List.replicate len 0

@[simp] theorem length_zeros (len : ℕ) : (zeros len).length=len := by simp [zeros]

theorem zeros_add (a b : ℕ) : zeros (a+b)=zeros a++zeros b := by
  rw [zeros,zeros,zeros,replicate_append_replicate]

/-- `n` in `width` bytes, least significant first. -/
def le (width n : ℕ) : Bytes :=
  match width with
  | 0 => []
  | w + 1 => UInt8.ofNat (n % 256) :: le w (n / 256)

/-- The number that a little-endian string spells. -/
def ofLe : Bytes → ℕ
  | [] => 0
  | b :: bs => b.toNat + 256 * ofLe bs

@[simp] theorem length_le (width n : ℕ) : (le width n).length=width := by
  induction width generalizing n with
  | zero => rfl
  | succ w ih => simp [le,ih]

theorem ofLe_le (width n : ℕ) : ofLe (le width n)=n % 256^width := by
  induction width generalizing n with
  | zero => simp [le,ofLe,Nat.mod_one]
  | succ w ih =>
    rw [le,ofLe,ih,UInt8.toNat_ofNat_of_lt' (by simp [UInt8.size]; omega),pow_succ,mul_comm,
      mul_comm (256^w) 256,Nat.mod_mul]
    ring

theorem ofLe_le_of_lt {width n : ℕ} (h : n<256^width) : ofLe (le width n)=n := by
  rw [ofLe_le,Nat.mod_eq_of_lt h]

end Bytes

end Ratarmount
