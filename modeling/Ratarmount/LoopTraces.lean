import Mathlib.Data.List.Basic
import Mathlib.Data.List.Pairwise
import Mathlib.Order.Nat

/-!
# Loops that move forward

A loop is a partial function from a state to the next one. When every turn moves
a position forward by a fixed gap and reads below a fixed limit, the positions of
a run lie apart and the run is short.
-/

namespace Loop

open List

variable {σ : Type*} (next : σ → Option σ)

/-- The states at the head of the first `n` turns. -/
def trace : ℕ → σ → List σ
  | 0, _ => []
  | n + 1, s => s :: ((next s).map (trace n)).getD []

variable {next} {n : ℕ} {s a b : σ}

theorem trace_succ_of_none (h : next s=none) : trace next (n+1) s=[s] := by
  rw [trace,h]
  rfl

theorem trace_succ_of_some (h : next s=some b) : trace next (n+1) s=s::trace next n b := by
  rw [trace,h]
  rfl

theorem pair_sublist_trace (ha : a∈trace next n s) (hb : next a=some b) :
    List.Sublist [a,b] (trace next (n+1) s) := by
  induction n generalizing s with
  | zero => exact absurd ha not_mem_nil
  | succ n ih =>
    cases hs : next s with
    | none =>
      rw [trace_succ_of_none hs,mem_singleton] at ha
      rw [ha,hs] at hb
      exact absurd hb (by simp)
    | some t =>
      rw [trace_succ_of_some hs] at ha ⊢
      rcases mem_cons.mp ha with rfl | ha
      · rw [hs,Option.some.injEq] at hb
        rw [hb]
        exact (singleton_sublist.mpr mem_cons_self).cons_cons a
      · exact (ih ha).cons s

/-- The positions of a run lie at least `gap` apart, and the run has at most `limit / gap + 1` turns. -/
def Progresses (next : σ → Option σ) (pos : σ → ℕ) (gap limit : ℕ) (s : σ) : Prop :=
  ∀ n, (trace next n s).Pairwise (fun a b => pos a + gap ≤ pos b) ∧ (trace next n s).length ≤ limit / gap + 1

variable {pos : σ → ℕ} {gap limit : ℕ}

/-- A run whose turns all move forward, by induction on the turns. -/
theorem trace_apart (hread : ∀a b,next a=some b → pos a+gap≤limit)
    (hstep : ∀a∈trace next n s,∀b,next a=some b → pos a+gap≤pos b) :
    (∀a∈trace next n s,pos s≤pos a) ∧ (trace next n s).Pairwise (fun a b => pos a+gap≤pos b) ∧
      gap*(trace next n s).length≤limit-pos s+gap := by
  induction n generalizing s with
  | zero => exact ⟨fun a ha => absurd ha not_mem_nil,List.Pairwise.nil,by simp [trace]⟩
  | succ n ih =>
    cases hs : next s with
    | none =>
      rw [trace_succ_of_none hs,length_singleton]
      exact ⟨by simp,pairwise_singleton _ _,by omega⟩
    | some t =>
      rw [trace_succ_of_some hs] at hstep ⊢
      have hst:=hstep s mem_cons_self t hs
      have hlimit:=hread s t hs
      obtain ⟨hle,hpair,hlength⟩:=ih fun a ha => hstep a (mem_cons_of_mem _ ha)
      have hfar : ∀a∈trace next n t,pos s+gap≤pos a:=fun a ha => hst.trans (hle a ha)
      refine ⟨?_,List.Pairwise.cons hfar hpair,?_⟩
      · intro a ha
        rcases mem_cons.mp ha with rfl | ha
        · exact le_rfl
        · exact (Nat.le_add_right _ _).trans (hfar a ha)
      · rw [length_cons,Nat.mul_succ]
        omega

/-- A loop progresses exactly when each of its turns does. -/
theorem progresses_iff (hgap : 0<gap) (hread : ∀a b,next a=some b → pos a+gap≤limit) :
    Progresses next pos gap limit s ↔ ∀n,∀a∈trace next n s,∀b,next a=some b → pos a+gap≤pos b := by
  constructor
  · intro h n a ha b hb
    have hpair:=(h (n+1)).1.sublist (pair_sublist_trace ha hb)
    exact (pairwise_cons.mp hpair).1 b (mem_singleton.mpr rfl)
  · intro h n
    obtain ⟨-,hpair,hlength⟩:=trace_apart hread (h n)
    refine ⟨hpair,?_⟩
    have hle : gap*(trace next n s).length≤limit+gap := by omega
    calc (trace next n s).length=gap*(trace next n s).length / gap := by
          rw [Nat.mul_div_cancel_left _ hgap]
      _≤(limit+gap) / gap := Nat.div_le_div_right hle
      _=limit / gap+1 := Nat.add_div_right _ hgap

end Loop
