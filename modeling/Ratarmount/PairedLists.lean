import Mathlib.Data.List.Forall2
import Mathlib.Tactic.Common

/-!
# Lists in step

Two lists whose elements are related in pairs.
-/

namespace Ratarmount.PairedLists

open List

variable {α β γ : Type} {R : α → β → Prop} {as : List α} {bs : List β}

theorem exists_right (h : List.Forall₂ R as bs) {a : α} (ha : a∈as) : ∃b∈bs,R a b := by
  induction h with
  | nil => cases ha
  | @cons a' b as bs hhead _ ih =>
    rcases List.mem_cons.mp ha with rfl | ha
    · exact ⟨b,mem_cons_self,hhead⟩
    · obtain ⟨b',hb',hab⟩:=ih ha
      exact ⟨b',mem_cons_of_mem _ hb',hab⟩

theorem exists_left (h : List.Forall₂ R as bs) {b : β} (hb : b∈bs) : ∃a∈as,R a b :=
  exists_right h.flip hb

theorem map_eq_iff {g : β → γ} {f : α → γ} {C : α → Prop} (h : List.Forall₂ R as bs)
    (hR : ∀a∈as,∀b,R a b→(g b=f a ↔ C a)) : bs.map g=as.map f ↔ ∀a∈as,C a := by
  induction h with
  | nil => simp
  | cons hab _ ih =>
    rw [map_cons,map_cons,List.cons.injEq,forall_mem_cons,hR _ mem_cons_self _ hab,
      ih fun a ha => hR a (mem_cons_of_mem _ ha)]

end Ratarmount.PairedLists
