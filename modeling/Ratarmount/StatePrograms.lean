import Mathlib.Tactic.Common

/-!
# Programs that return or fail and keep their state

Rules for `EStateM` programs, whose changes stay when they fail. `Keeps A R` says
that from states with `A` every run leaves a state that `R` relates to the one it
started in, and `Triple` gives conditions for a return and for a failure.
-/

namespace Ratarmount.Programs

variable {ε σ τ α β : Type}

/-- The state a run leaves, whether it returns or fails. -/
def final : EStateM.Result ε σ α → σ
  | .ok _ s => s
  | .error _ s => s

/-- Changes that can follow each other, and leave the assertion true. -/
class Carried (A : σ → Prop) (R : σ → σ → Prop) : Prop where
  refl : ∀ s, R s s
  trans : ∀ {s t u}, R s t → R t u → R s u
  stable : ∀ {s t}, A s → R s t → A t

def Keeps (A : σ → Prop) (R : σ → σ → Prop) (m : EStateM ε σ α) : Prop := ∀ s, A s → R s (final (m s))

section Keeps

variable {A : σ → Prop} {R : σ → σ → Prop} [Carried A R] {m m' : EStateM ε σ α} {k : α → EStateM ε σ β}

theorem Keeps.pure (a : α) : Keeps A R (Pure.pure a : EStateM ε σ α) := fun s _ => Carried.refl A s

theorem Keeps.throw (e : ε) : Keeps A R (MonadExcept.throw e : EStateM ε σ α) := fun s _ => Carried.refl A s

theorem Keeps.bind (hm : Keeps A R m) (hk : ∀a,Keeps A R (k a)) : Keeps A R (m >>= k) := by
  intro s hs
  have h:=hm s hs
  change R s (final (EStateM.bind m k s))
  rw [EStateM.bind]
  cases hr : m s with
  | ok a s' =>
    rw [hr] at h
    exact Carried.trans A h (hk a s' (Carried.stable hs h))
  | error e s' =>
    rw [hr] at h
    exact h

omit [Carried A R] in
theorem Keeps.ite {b : Prop} [Decidable b] (h : b → Keeps A R m) (h' : ¬b → Keeps A R m') :
    Keeps A R (if b then m else m') := by
  split_ifs with hb
  · exact h hb
  · exact h' hb

end Keeps

section Run

variable {m : EStateM ε σ α} {k : α → EStateM ε σ β} {s t : σ}

theorem run_bind {a : α} (h : m s = .ok a t) : (m >>= k) s=k a t := by
  change EStateM.bind m k s=k a t
  rw [EStateM.bind,h]

theorem run_bind_error {e : ε} (h : m s = .error e t) : (m >>= k) s = .error e t := by
  change EStateM.bind m k s = .error e t
  rw [EStateM.bind,h]

theorem ok_of_bind {b : β} {u : σ} (h : (m >>= k) s = .ok b u) : ∃a t,m s = .ok a t ∧ k a t = .ok b u := by
  cases hm : m s with
  | ok a t => exact ⟨a,t,rfl,(run_bind hm).symm.trans h⟩
  | error e t =>
    rw [run_bind_error hm] at h
    cases h

theorem run_get_bind (k : σ → EStateM ε σ β) (s : σ) : (get >>= k) s=k s s := rfl

theorem run_set_bind (t : σ) (k : PUnit → EStateM ε σ β) (s : σ) : (set t >>= k) s=k ⟨⟩ t := rfl

theorem run_modify_bind (f : σ → σ) (k : PUnit → EStateM ε σ β) (s : σ) : (modify f >>= k) s=k ⟨⟩ (f s) := rfl

end Run

/-- Changes that leave the assertion true. -/
def Holding (A : σ → Prop) (s t : σ) : Prop := A s → A t

instance (A : σ → Prop) : Carried A (Holding A) where
  refl _ h := h
  trans h h' hs := h' (h hs)
  stable hs h := h hs

/-- From `P` a return leaves `Q` and a failure `E`. -/
def Triple (P : σ → Prop) (m : EStateM ε σ α) (Q : α → σ → Prop) (E : σ → Prop) : Prop :=
  ∀ s, P s → match m s with
    | .ok a s' => Q a s'
    | .error _ s' => E s'

section Triple

variable {P E : σ → Prop} {m : EStateM ε σ α} {k : α → EStateM ε σ β} {Q Q' : α → σ → Prop} {Q₂ : β → σ → Prop}

theorem Triple.pure {a : α} (h : ∀s,P s → Q a s) : Triple P (Pure.pure a : EStateM ε σ α) Q E := fun s hs => h s hs

theorem Triple.done {a : α} : Triple P (Pure.pure a : EStateM ε σ α) (fun _ => P) E := fun _ hs => hs

theorem Triple.bind (hm : Triple P m Q E) (hk : ∀a,Triple (Q a) (k a) Q₂ E) : Triple P (m >>= k) Q₂ E := by
  intro s hs
  have h:=hm s hs
  change match EStateM.bind m k s with
    | .ok a s' => Q₂ a s'
    | .error _ s' => E s'
  rw [EStateM.bind]
  cases hr : m s with
  | ok a s' =>
    rw [hr] at h
    exact hk a s' h
  | error e s' =>
    rw [hr] at h
    exact h

theorem Triple.weaken (hm : Triple P m Q E) (h : ∀a s,Q a s → Q' a s) : Triple P m Q' E := by
  intro s hs
  have hms:=hm s hs
  cases hr : m s with
  | ok a s' =>
    rw [hr] at hms
    exact h a s' hms
  | error e s' =>
    rw [hr] at hms
    exact hms

theorem Triple.throw {e : ε} (h : ∀s,P s → E s) : Triple P (MonadExcept.throw e : EStateM ε σ α) Q E := fun s hs => h s hs

theorem Triple.tryCatch {E' : σ → Prop} {handle : ε → EStateM ε σ α} (hm : Triple P m Q E')
    (hh : ∀e,Triple E' (handle e) Q E) : Triple P (MonadExcept.tryCatch m handle) Q E := by
  intro s hs
  have h:=hm s hs
  change match EStateM.tryCatch m handle s with
    | .ok a s' => Q a s'
    | .error _ s' => E s'
  rw [EStateM.tryCatch]
  cases hr : m s with
  | ok a s' =>
    rw [hr] at h
    exact h
  | error e s' =>
    rw [hr] at h
    exact hh e s' h

/-- The state is known from here on. -/
theorem Triple.get {k : σ → EStateM ε σ β} (h : ∀s,P s → Triple (fun t => t=s) (k s) Q₂ E) :
    Triple P (MonadState.get >>= k) Q₂ E := fun s hs => h s hs s rfl

theorem Triple.read {k : σ → EStateM ε σ β} (h : ∀s,P s → Triple P (k s) Q₂ E) : Triple P (MonadState.get >>= k) Q₂ E :=
  fun s hs => h s hs s hs

theorem Triple.set {t : σ} {Q : PUnit → σ → Prop} (h : Q ⟨⟩ t) : Triple P (MonadStateOf.set t : EStateM ε σ PUnit) Q E :=
  fun _ _ => h

theorem Triple.modify {f : σ → σ} {Q : PUnit → σ → Prop} (h : ∀s,P s → Q ⟨⟩ (f s)) :
    Triple P (modify f : EStateM ε σ PUnit) Q E := fun s hs => h s hs

theorem Triple.ite {b : Prop} [Decidable b] {m' : EStateM ε σ α} (h : b → Triple P m Q E) (h' : ¬b → Triple P m' Q E) :
    Triple P (if b then m else m') Q E := by
  split_ifs with hb
  · exact h hb
  · exact h' hb

theorem Triple.branch {b : Prop} [Decidable b] {m' : EStateM ε σ α} (h : Triple P m Q E) (h' : Triple P m' Q E) :
    Triple P (if b then m else m') Q E :=
  .ite (fun _ => h) fun _ => h'

theorem Triple.early {b : Prop} [Decidable b] {a : α} (h : ∀s,P s → Q a s) (hm : ¬b → Triple P m Q E) :
    Triple P (if b then Pure.pure a else m) Q E :=
  .ite (fun _ => .pure h) hm

theorem Triple.pre {P' : σ → Prop} (hm : Triple P m Q E) (h : ∀s,P' s → P s) : Triple P' m Q E := fun s hs => hm s (h s hs)

theorem Triple.of_final (h : ∀s,P s → E (final (m s))) : Triple P m (fun _ => E) E := by
  intro s hs
  have hms:=h s hs
  cases hr : m s <;> rw [hr] at hms <;> exact hms

theorem Triple.final {s : σ} (h : Triple P m (fun _ => E) E) (hs : P s) : E (final (m s)) := by
  have hms:=h s hs
  cases hr : m s <;> rw [hr] at hms <;> exact hms

variable {A : σ → Prop} {R : σ → σ → Prop} [Carried A R]

theorem Keeps.triple (h : Keeps A R m) (hE : ∀s,A s → E s) : Triple A m (fun _ => A) E := by
  intro s hs
  have hms:=Carried.stable hs (h s hs)
  cases hr : m s with
  | ok a s' =>
    rw [hr] at hms
    exact hms
  | error e s' =>
    rw [hr] at hms
    exact hE s' hms

end Triple

end Ratarmount.Programs
