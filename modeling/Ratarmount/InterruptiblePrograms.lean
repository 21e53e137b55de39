import Mathlib.Data.Nat.Notation

/-!
# Programs of system calls that an environment answers and a crash interrupts

A program is a finite tree of calls. The environment picks, at each step and for
the call made there, a choice that decides the answer and the next state. A run
consumes such a schedule to its end; a crash leaves the state after any number of
calls. `Always` is the rule both kinds of statement are proved with: an invariant
of every state the program stands in, and a condition on the returned value.
-/

namespace Ratarmount.Interruptible

inductive Prog (Call : Type) (Ans : Call → Type) (α : Type) where
  | ret (a : α)
  | call (c : Call) (next : Ans c → Prog Call Ans α)

variable {Call : Type} {Ans : Call → Type} {Choice σ α β ε δ : Type}

namespace Prog

def bind : Prog Call Ans α → (α → Prog Call Ans β) → Prog Call Ans β
  | .ret a, f => f a
  | .call c next, f => .call c (fun x => (next x).bind f)

instance : Monad (Prog Call Ans) where
  pure := .ret
  bind := bind

def perform (c : Call) : Prog Call Ans (Ans c) := .call c .ret

end Prog

/-- What the environment does at step `n` when the call there is `c`. -/
abbrev Schedule (Call Choice : Type) := ℕ → Call → Choice

def Schedule.rest (e : Schedule Call Choice) : Schedule Call Choice := fun n => e (n + 1)

/-- Every choice of the schedule is one that its call admits. -/
def Schedule.Admits (allowed : Call → Choice → Prop) (e : Schedule Call Choice) : Prop :=
  ∀ n c, allowed c (e n c)

theorem Schedule.Admits.rest {allowed : Call → Choice → Prop} {e : Schedule Call Choice}
    (h : e.Admits allowed) : e.rest.Admits allowed := fun n => h (n+1)

section Semantics

variable (act : (c : Call) → Choice → σ → Ans c × σ)

namespace Prog

def run : Prog Call Ans α → Schedule Call Choice → σ → α × σ
  | .ret a, _, s => (a,s)
  | .call c next, e, s => (next (act c (e 0 c) s).1).run e.rest (act c (e 0 c) s).2

/-- The state a crash after `k` calls finds; a program that returned earlier stays
where it returned. -/
def after : Prog Call Ans α → Schedule Call Choice → ℕ → σ → σ
  | .ret _, _, _, s => s
  | .call _ _, _, 0, s => s
  | .call c next, e, k + 1, s => (next (act c (e 0 c) s).1).after e.rest k (act c (e 0 c) s).2

variable (allowed : Call → Choice → Prop)

/-- Under every admitted schedule `I` holds before and after each call and `Q`
holds of the result in the final state. -/
def Always (I : σ → Prop) (Q : α → σ → Prop) : Prog Call Ans α → σ → Prop
  | .ret a, s => I s ∧ Q a s
  | .call c next, s => I s ∧ ∀ x, allowed c x →
      (next (act c x s).1).Always I Q (act c x s).2

variable {act allowed} {I : σ → Prop} {Q : α → σ → Prop} {s : σ}

variable {p : Prog Call Ans α} {e : Schedule Call Choice}

theorem Always.mono {Q' : α → σ → Prop} (h : p.Always act allowed I Q s) (hq : ∀a t,I t → Q a t → Q' a t) : p.Always act allowed I Q' s := by
  induction p generalizing s with
  | ret a => exact ⟨h.1,hq a s h.1 h.2⟩
  | call c next ih => exact ⟨h.1,fun x hx => ih _ (h.2 x hx)⟩

theorem Always.weaken {J : σ → Prop} (h : p.Always act allowed I Q s) (hj : ∀t,I t → J t) : p.Always act allowed J Q s := by
  induction p generalizing s with
  | ret a => exact ⟨hj s h.1,h.2⟩
  | call c next ih => exact ⟨hj s h.1,fun x hx => ih _ (h.2 x hx)⟩

/-- What no call changes holds of the final state too. -/
theorem Always.frame {K : σ → Prop} (h : p.Always act allowed I Q s) (hk : ∀c x t,K t → K (act c x t).2) (hs : K s) :
    p.Always act allowed I (fun a t => Q a t ∧ K t) s := by
  induction p generalizing s with
  | ret a => exact ⟨h.1,h.2,hs⟩
  | call c next ih => exact ⟨h.1,fun x hx => ih _ (h.2 x hx) (hk c x s hs)⟩

/-- The crash rule. -/
theorem Always.after (h : p.Always act allowed I Q s) (he : e.Admits allowed) (k : ℕ) : I (p.after act e k s) := by
  induction p generalizing s e k with
  | ret a => exact h.1
  | call c next ih =>
    cases k with
    | zero => exact h.1
    | succ k => exact ih _ (h.2 _ (he 0 c)) he.rest k

/-- The return rule. -/
theorem Always.run (h : p.Always act allowed I Q s) (he : e.Admits allowed) :
    I (p.run act e s).2 ∧ Q (p.run act e s).1 (p.run act e s).2 := by
  induction p generalizing s e with
  | ret a => exact h
  | call c next ih => exact ih _ (h.2 _ (he 0 c)) he.rest

theorem always_bind {f : α → Prog Call Ans β} {R : β → σ → Prop}
    (h : p.Always act allowed I (fun a t => (f a).Always act allowed I R t) s) :
    (p >>= f).Always act allowed I R s := by
  induction p generalizing s with
  | ret a => exact h.2
  | call c next ih => exact ⟨h.1,fun x hx => ih _ (h.2 x hx)⟩

end Prog

/-! ## Fallible programs -/

/-- A program that returns a value or an error. -/
abbrev Fallible (Call : Type) (Ans : Call → Type) (ε α : Type) := ExceptT ε (Prog Call Ans) α

namespace Fallible

variable {act} {allowed : Call → Choice → Prop} {I : σ → Prop} {s : σ}

/-- `Always` with the condition split into the value's and the error's. A structure,
so that the program inside is not unfolded. -/
structure Spec (act : (c : Call) → Choice → σ → Ans c × σ) (allowed : Call → Choice → Prop)
    (I : σ → Prop) (Q : α → σ → Prop) (E : ε → σ → Prop) (p : Fallible Call Ans ε α) (s : σ) : Prop where
  always : Prog.Always act allowed I (fun r t => match r with | .ok a => Q a t | .error x => E x t) p.run s

variable {Q : α → σ → Prop} {E : ε → σ → Prop}

variable {p : Fallible Call Ans ε α} {E' : δ → σ → Prop} {e : Schedule Call Choice} {x : ε}

section Rules

variable (h : Spec act allowed I Q E p s)
include h

theorem Spec.mono {Q' : α → σ → Prop} {E' : ε → σ → Prop} (hq : ∀a t,I t → Q a t → Q' a t)
    (he : ∀x t,I t → E x t → E' x t) : Spec act allowed I Q' E' p s := by
  refine ⟨Prog.Always.mono h.always ?_⟩
  rintro (x | a) t hI hr
  · exact he x t hI hr
  · exact hq a t hI hr

theorem Spec.weaken {J : σ → Prop} (hj : ∀t,I t → J t) : Spec act allowed J Q E p s := ⟨h.always.weaken hj⟩

theorem Spec.frame {K : σ → Prop} (hk : ∀c x t,K t → K (act c x t).2) (hs : K s) :
    Spec act allowed I (fun a t => Q a t ∧ K t) (fun x t => E x t ∧ K t) p s := by
  refine ⟨(h.always.frame hk hs).mono ?_⟩
  rintro (x | a) t _ hr
  · exact hr
  · exact hr

/-- The crash rule for fallible programs. -/
theorem Spec.after (he : e.Admits allowed) (k : ℕ) : I (Prog.after act p.run e k s) := h.always.after he k

theorem Spec.run_ok {a : α} {t : σ} (he : e.Admits allowed) (hr : Prog.run act p.run e s=(.ok a,t)) :
    I t ∧ Q a t := by
  simpa [hr] using h.always.run he

theorem Spec.run_error {t : σ} (he : e.Admits allowed) (hr : Prog.run act p.run e s=(.error x,t)) : I t ∧ E x t := by
  simpa [hr] using h.always.run he

end Rules

theorem spec_pure {a : α} (hI : I s) (h : Q a s) :
    Spec act allowed I Q E (pure a : Fallible Call Ans ε α) s := ⟨⟨hI,h⟩⟩

theorem spec_throw (hI : I s) (h : E x s) : Spec act allowed I Q E (throw x : Fallible Call Ans ε α) s := ⟨⟨hI,h⟩⟩

theorem spec_bind {f : α → Fallible Call Ans ε β} {R : β → σ → Prop}
    (h : Spec act allowed I (fun a t => Spec act allowed I R E (f a) t) E p s) :
    Spec act allowed I R E (p >>= f) s := by
  refine ⟨Prog.always_bind (Prog.Always.mono h.always ?_)⟩
  rintro (x | a) t hI hr
  · exact ⟨hI,hr⟩
  · exact hr.always

def ensure (b : Bool) (x : ε) : Fallible Call Ans ε Unit := if b then pure () else throw x

theorem spec_ensure {b : Bool} {Q : Unit → σ → Prop} (hI : I s) (hq : b=true → Q () s) (he : b=false → E x s) : Spec act allowed I Q E (ensure b x) s := by
  cases b with
  | true => exact ⟨⟨hI,hq rfl⟩⟩
  | false => exact ⟨⟨hI,he rfl⟩⟩

def onlyIf (b : Bool) (p : Fallible Call Ans ε Unit) : Fallible Call Ans ε Unit :=
  if b then p else pure ()

theorem spec_onlyIf {b : Bool} {p : Fallible Call Ans ε Unit} {Q : Unit → σ → Prop} (hI : I s)
    (ht : b=true → Spec act allowed I Q E p s) (hf : b=false → Q () s) : Spec act allowed I Q E (onlyIf b p) s := by
  cases b with
  | true => exact ht rfl
  | false => exact ⟨⟨hI,hf rfl⟩⟩

def withError (g : ε → δ) (p : Fallible Call Ans ε α) : Fallible Call Ans δ α :=
  ExceptT.adapt g p

theorem spec_withError {g : ε → δ} (h : Spec act allowed I Q (fun x t => E' (g x) t) p s) :
    Spec act allowed I Q E' (withError g p) s := by
  refine ⟨Prog.always_bind (Prog.Always.mono h.always ?_)⟩
  rintro (x | a) t hI hr
  · exact ⟨hI,hr⟩
  · exact ⟨hI,hr⟩

def attempt (p : Fallible Call Ans ε α) : Fallible Call Ans δ (Except ε α) :=
  ExceptT.lift p.run

theorem spec_attempt {R : Except ε α → σ → Prop}
    (h : Spec act allowed I (fun a t => R (.ok a) t) (fun x t => R (.error x) t) p s) :
    Spec act allowed I R E' (attempt p) s := by
  refine ⟨Prog.always_bind (Prog.Always.mono h.always ?_)⟩
  rintro (x | a) t hI hr
  · exact ⟨hI,hr⟩
  · exact ⟨hI,hr⟩

end Fallible

end Semantics

end Ratarmount.Interruptible
