import Mathlib.Tactic.Common

/-!
# Readers of a format

A reader takes tokens off the front of its input or fails. `Reads p xs a` says that it
takes exactly the tokens `xs` and returns `a`, whatever follows them, `Fails p xs`
that it fails on every input that begins with `xs`, and `ReadsIf c p xs a` that `c`
decides which.
-/

namespace Ratarmount.Reading

open List

variable {τ ε α β : Type}

abbrev Reader (τ ε α : Type) := StateT (List τ) (Except ε) α

def Reads (p : Reader τ ε α) (xs : List τ) (a : α) : Prop := ∀ rest, p (xs ++ rest) = .ok (a,rest)

def Fails (p : Reader τ ε α) (xs : List τ) : Prop := ∀ rest, ∃ e, p (xs ++ rest) = .error e

structure ReadsIf (c : Prop) (p : Reader τ ε α) (xs : List τ) (a : α) : Prop where
  reads : c → Reads p xs a
  fails : ¬ c → Fails p xs

section Rules

variable {p : Reader τ ε α} {k : α → Reader τ ε β} {xs ys : List τ} {a : α} {b : β}

theorem Reads.pure (a : α) : Reads (Pure.pure a : Reader τ ε α) [] a := fun _ => rfl

theorem Reads.bind (hp : Reads p xs a) (hk : Reads (k a) ys b) : Reads (p >>= k) (xs++ys) b := by
  intro rest
  change (p (xs++ys++rest) >>= fun r => k r.1 r.2)=_
  rw [append_assoc,hp]
  exact hk rest

/-- The last step takes nothing. -/
theorem Reads.bind_nil (hp : Reads p xs a) (hk : Reads (k a) [] b) : Reads (p >>= k) xs b := by
  have hbind:=hp.bind hk
  rwa [append_nil] at hbind

theorem Fails.throw (e : ε) : Fails (MonadExcept.throw e : Reader τ ε α) xs := fun _ => ⟨e,rfl⟩

theorem Fails.bind (hp : Fails p xs) : Fails (p >>= k) xs := by
  intro rest
  obtain ⟨e,he⟩:=hp rest
  refine ⟨e,?_⟩
  change (p (xs++rest) >>= fun r => k r.1 r.2)=_
  rw [he]
  rfl

theorem Reads.bind_fails (hp : Reads p xs a) (hk : Fails (k a) ys) : Fails (p >>= k) (xs++ys) := by
  intro rest
  obtain ⟨e,he⟩:=hk rest
  refine ⟨e,?_⟩
  change (p (xs++ys++rest) >>= fun r => k r.1 r.2)=_
  rw [append_assoc,hp]
  exact he

/-- It fails also where more tokens are named. -/
theorem Fails.append (hp : Fails p xs) (ys : List τ) : Fails p (xs++ys) := by
  intro rest
  rw [append_assoc]
  exact hp (ys++rest)

variable {c d : Prop}

theorem Reads.always (hp : Reads p xs a) : ReadsIf True p xs a := ⟨fun _ => hp,fun h => absurd trivial h⟩

theorem ReadsIf.of_iff (hp : ReadsIf c p xs a) (h : d ↔ c) : ReadsIf d p xs a := by rwa [h]

theorem ReadsIf.bind (hp : ReadsIf c p xs a) (hk : ReadsIf d (k a) ys b) : ReadsIf (c ∧ d) (p >>= k) (xs++ys) b where
  reads h := (hp.reads h.1).bind (hk.reads h.2)
  fails h := by
    by_cases hc : c
    · exact (hp.reads hc).bind_fails (hk.fails fun hd => h ⟨hc,hd⟩)
    · exact (hp.fails hc).bind.append ys

theorem Reads.bindIf (hp : Reads p xs a) (hk : ReadsIf c (k a) ys b) : ReadsIf c (p >>= k) (xs++ys) b :=
  (hp.always.bind hk).of_iff (iff_of_eq (true_and c)).symm

theorem ReadsIf.andThen (hp : ReadsIf c p xs a) (hk : Reads (k a) ys b) : ReadsIf c (p >>= k) (xs++ys) b :=
  (hp.bind hk.always).of_iff (iff_of_eq (and_true c)).symm

theorem ReadsIf.last (hp : ReadsIf c p xs a) (hk : Reads (k a) [] b) : ReadsIf c (p >>= k) xs b := by
  have hbind:=hp.andThen hk
  rwa [append_nil] at hbind

/-- A limit that is checked first. -/
theorem ReadsIf.limit {q : Prop} [Decidable q] {e : ε} (hp : ReadsIf c p xs a) :
    ReadsIf (¬q ∧ c) (if q then MonadExcept.throw e else p) xs a := by
  split_ifs with hq
  · exact ⟨fun h => absurd hq h.1,fun _ => Fails.throw e⟩
  · exact hp.of_iff (and_iff_right hq)

end Rules

section Lists

def each (f : α → Reader τ ε β) : List α → Reader τ ε (List β)
  | [] => pure []
  | a :: as => do
    let b ← f a
    let bs ← each f as
    pure (b :: bs)

def times (n : ℕ) (p : Reader τ ε β) : Reader τ ε (List β) := each (fun _ => p) (List.replicate n ())

section Each

variable {f : α → Reader τ ε β} {as : List α} {bytes : α → List τ} {g : α → β}

theorem Reads.each (h : ∀a∈as,Reads (f a) (bytes a) (g a)) : Reads (each f as) (as.flatMap bytes) (as.map g) := by
  induction as with
  | nil => exact Reads.pure []
  | cons a as ih =>
    have hrest:=ih fun x hx => h x (mem_cons_of_mem _ hx)
    exact (h a mem_cons_self).bind (hrest.bind_nil (Reads.pure _))

theorem ReadsIf.each {c : α → Prop} (h : ∀a∈as,ReadsIf (c a) (f a) (bytes a) (g a)) :
    ReadsIf (∀a∈as,c a) (each f as) (as.flatMap bytes) (as.map g) := by
  induction as with
  | nil => exact (Reads.pure []).always.of_iff (iff_true_intro nofun)
  | cons a as ih =>
    have hrest:=ih fun x hx => h x (mem_cons_of_mem _ hx)
    exact ReadsIf.of_iff ((h a mem_cons_self).bind (hrest.last (Reads.pure _))) forall_mem_cons

theorem each_map {γ : Type} (h : γ → α) (cs : List γ) : Reading.each f (cs.map h)=Reading.each (fun c => f (h c)) cs := by
  induction cs with
  | nil => rfl
  | cons c cs ih => rw [map_cons,Reading.each,Reading.each,ih]

theorem times_eq (n : List α) (p : Reader τ ε β) : times n.length p=Reading.each (fun _ => p) n := by
  rw [times]
  induction n with
  | nil => rfl
  | cons a as ih =>
    rw [length_cons,replicate_succ,Reading.each,Reading.each,ih]

end Each

variable {p : Reader τ ε β} {as : List α} {bytes : α → List τ} {g : α → β}

theorem Reads.times (h : ∀a∈as,Reads p (bytes a) (g a)) : Reads (times as.length p) (as.flatMap bytes) (as.map g) := by
  rw [times_eq]
  exact Reads.each h

theorem ReadsIf.times {c : α → Prop} (h : ∀a∈as,ReadsIf (c a) p (bytes a) (g a)) :
    ReadsIf (∀a∈as,c a) (times as.length p) (as.flatMap bytes) (as.map g) := by
  rw [times_eq]
  exact ReadsIf.each h

end Lists

end Ratarmount.Reading
