import Mathlib.Data.Nat.Notation

/-!
# Objects whose updates become durable only by a sync

An object is the content the last sync left on the disk and the updates made since,
newest first. A reader sees every update. After a crash each pending update is found
applied in whatever part `Tear` allows it, so the object is one of its images.
-/

namespace Ratarmount.Durability

open List

/-- How an update acts on a content, and what a crash can leave of it. -/
class Update (σ : outParam Type) (Upd : Type) where
  apply : Upd → σ → σ
  Tear : Upd → σ → σ → Prop
  tear_apply : ∀ u x, Tear u x (apply u x)
  tear_none : ∀ u x, Tear u x x

structure Durable (σ Upd : Type) where
  disk : σ
  pending : List Upd
  deriving Repr, DecidableEq

namespace Durable

variable {σ Upd : Type} [Update σ Upd]

def settled (x : σ) : Durable σ Upd := ⟨x,[]⟩

def cur (d : Durable σ Upd) : σ := d.pending.foldr Update.apply d.disk

def push (d : Durable σ Upd) (u : Upd) : Durable σ Upd := ⟨d.disk,u :: d.pending⟩

def sync (d : Durable σ Upd) : Durable σ Upd := settled d.cur

/-- `x` is a content a crash can leave when `us` are pending over `disk`. -/
def ImageOf (disk : σ) : List Upd → σ → Prop
  | [], x => x = disk
  | u :: us, y => ∃ x, ImageOf disk us x ∧ Update.Tear u x y

def Image (d : Durable σ Upd) (x : σ) : Prop := ImageOf d.disk d.pending x

/-- Every content that a crash or a reader can find satisfies `P`. -/
def All (d : Durable σ Upd) (P : σ → Prop) : Prop := ∀ x, d.Image x → P x

@[simp] theorem cur_settled (x : σ) : (settled x : Durable σ Upd).cur=x := rfl
@[simp] theorem cur_push (d : Durable σ Upd) (u : Upd) : (d.push u).cur=Update.apply u d.cur := rfl
@[simp] theorem cur_sync (d : Durable σ Upd) : d.sync.cur=d.cur := rfl

@[simp] theorem image_settled (x y : σ) : (settled x : Durable σ Upd).Image y ↔ y=x := Iff.rfl

@[simp] theorem all_settled (x : σ) (P : σ → Prop) : (settled x : Durable σ Upd).All P ↔ P x := by
  constructor
  · intro h
    exact h x rfl
  · rintro h y rfl
    exact h

theorem image_cur (d : Durable σ Upd) : d.Image d.cur := by
  obtain ⟨disk,us⟩:=d
  induction us with
  | nil => rfl
  | cons u us ih => exact ⟨_,ih,Update.tear_apply u _⟩

variable {d : Durable σ Upd} {P : σ → Prop}

theorem All.cur (h : d.All P) : P d.cur := h _ d.image_cur

theorem All.sync (h : d.All P) : d.sync.All P :=
  (all_settled _ _).mpr h.cur

theorem All.mono {R : σ → Prop} (h : d.All P) (hr : ∀x,P x → R x) : d.All R := fun x hx => hr x (h x hx)

/-- An update keeps a property of all images when none of its parts breaks it. -/
theorem All.push {u : Upd} (h : d.All P) (hu : ∀x y,P x → Update.Tear u x y → P y) : (d.push u).All P := by
  rintro y ⟨x,hx,hxy⟩
  exact hu x y (h x hx) hxy

end Durable

/-! ## Whole-value updates -/

/-- An update that replaces the content in one atomic step: a directory entry, an
extended attribute. -/
structure Assign (σ : Type) where
  value : σ
  deriving Repr, DecidableEq

instance {σ : Type} : Update σ (Assign σ) where
  apply u _ := u.value
  Tear u x y := y = x ∨ y = u.value
  tear_apply _ _ := .inr rfl
  tear_none _ _ := .inl rfl

namespace Durable

variable {σ : Type}

variable {d : Durable σ (Assign σ)}

theorem All.assign {P : σ → Prop} {v : σ} (h : d.All P) (hv : P v) : (d.push ⟨v⟩).All P := by
  refine h.push ?_
  rintro x y hx (rfl | rfl)
  · exact hx
  · exact hv

/-- The images of an assignment are the old ones and the new value. -/
theorem image_assign {v y : σ} : (d.push ⟨v⟩).Image y ↔ d.Image y ∨ y=v := by
  constructor
  · rintro ⟨x,hx,rfl | rfl⟩
    · exact .inl hx
    · exact .inr rfl
  · rintro (h | rfl)
    · exact ⟨y,h,.inl rfl⟩
    · exact ⟨d.cur,d.image_cur,.inr rfl⟩

end Durable

/-! ## Byte files -/

/-- `bs` written at `pos`; a gap below `pos` reads as zeros. -/
def writeAt (pos : ℕ) (bs xs : List UInt8) : List UInt8 :=
  if bs = [] then xs
  else xs.take pos ++ List.replicate (pos - xs.length) 0 ++ bs ++ xs.drop (pos + bs.length)

def setLength (n : ℕ) (xs : List UInt8) : List UInt8 :=
  xs.take n ++ List.replicate (n - xs.length) 0

inductive FileUpdate where
  | write (pos : ℕ) (bs : List UInt8)
  | setLen (n : ℕ)
  deriving Repr, DecidableEq

/-- An unsynced write is found in any prefix; a length change is found or not. -/
instance : Update (List UInt8) FileUpdate where
  apply
    | .write pos bs, xs => writeAt pos bs xs
    | .setLen n, xs => setLength n xs
  Tear
    | .write pos bs, xs, ys => ∃ k, ys = writeAt pos (bs.take k) xs
    | .setLen n, xs, ys => ys = xs ∨ ys = setLength n xs
  tear_apply
    | .write _ bs, _ => ⟨bs.length,by simp⟩
    | .setLen _, _ => .inr rfl
  tear_none
    | .write _ _, _ => ⟨0,by simp [writeAt]⟩
    | .setLen _, _ => .inl rfl

abbrev File := Durable (List UInt8) FileUpdate

/-- The first `off` bytes are there and are those of `base`. -/
def Keeps (off : ℕ) (base xs : List UInt8) : Prop := off ≤ xs.length ∧ xs.take off = base.take off

variable {off : ℕ} {xs base : List UInt8} {u : FileUpdate}

theorem Keeps.refl (h : off≤xs.length) : Keeps off xs xs := ⟨h,rfl⟩

theorem Keeps.append {off : ℕ} {base tail : List UInt8} (h : off≤base.length) :
    Keeps off base (base.take off++tail) := by
  refine ⟨by simp [Nat.min_eq_left h],?_⟩
  simp [Nat.min_eq_left h]

theorem Keeps.writeAt {pos : ℕ} {bs : List UInt8} (h : Keeps off base xs) (hp : off≤pos) : Keeps off base (writeAt pos bs xs) := by
  unfold Durability.writeAt
  split
  · exact h
  · obtain ⟨hl,ht⟩:=h
    refine ⟨by simp only [length_append,length_take]; omega,?_⟩
    rw [append_assoc,append_assoc,take_append_of_le_length (by simp; omega),
      take_take,Nat.min_eq_left hp,ht]

theorem Keeps.setLength {n : ℕ} (h : Keeps off base xs) (hn : off≤n) : Keeps off base (setLength n xs) := by
  obtain ⟨hl,ht⟩:=h
  refine ⟨by simp only [Durability.setLength,length_append,length_take,
    length_replicate]; omega,?_⟩
  rw [Durability.setLength,take_append_of_le_length (by simp; omega),take_take,
    Nat.min_eq_left hn,ht]

/-- An update that touches nothing below `off`. -/
def FileUpdate.Above (off : ℕ) : FileUpdate → Prop
  | .write pos _ => off ≤ pos
  | .setLen n => off ≤ n

theorem Keeps.tear {ys : List UInt8} (h : Keeps off base xs) (hu : u.Above off) (ht : Update.Tear u xs ys) : Keeps off base ys := by
  cases u with
  | write pos bs =>
    obtain ⟨k,rfl⟩:=ht
    exact h.writeAt hu
  | setLen n =>
    rcases ht with rfl | rfl
    · exact h
    · exact h.setLength hu

/-- Whatever is pending above `off`, every image keeps the bytes below it. -/
theorem Durable.All.keeps {d : File} (h : d.All (Keeps off base)) (hu : u.Above off) : (d.push u).All (Keeps off base) :=
  h.push (fun _ _ hx hxy => hx.tear hu hxy)

theorem writeAt_end (bs xs : List UInt8) : writeAt xs.length bs xs=xs++bs := by
  unfold writeAt
  split
  · simp [*]
  · simp

theorem setLength_of_le {n : ℕ} (h : n≤xs.length) : setLength n xs=xs.take n := by
  simp [setLength,Nat.sub_eq_zero_of_le h]

end Ratarmount.Durability
