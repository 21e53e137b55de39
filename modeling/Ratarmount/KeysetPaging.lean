import Mathlib.Data.List.Basic
import Mathlib.Order.Lattice
import Mathlib.Tactic.Common

/-!
# Keyset paging

A list that is strictly sorted by a key, read in pages: each page starts behind
the last key of the page before. Whatever the page size, the pages together are
the list.
-/

namespace Ratarmount.Keyset

open List

variable {α κ : Type} [LinearOrder κ] (key : α → κ) (rows : List α) (limit : ℕ)

/-- The first `limit` rows behind `after`. -/
def page (after : κ) : List α := (rows.filter (fun r => after < key r)).take limit

/-- All pages from `after` on, up to the first empty one. -/
def pages : ℕ → κ → List α
  | 0, _ => []
  | fuel + 1, after =>
    match (page key rows limit after).getLast? with
    | none => []
    | some last => page key rows limit after ++ pages fuel (key last)

variable {key rows limit}

/-- Behind the last row of a page come the rows that the page left out. -/
theorem filter_after_last (hsorted : rows.Pairwise (fun r s => key r<key s)) {after : κ} {last : α}
    (hlast : (page key rows limit after).getLast?=some last) :
    rows.filter (fun r => key last<key r)=(rows.filter (fun r => after<key r)).drop limit := by
  have hafter : after<key last := by
    simpa using (mem_filter.mp (mem_of_mem_take (mem_of_getLast? hlast))).2
  have hfilter : rows.filter (fun r => key last<key r) =
      (rows.filter (fun r => after<key r)).filter (fun r => key last<key r) := by
    rw [filter_filter]
    refine filter_congr ?_
    intro r _
    by_cases h : key last<key r
    · simp [hafter.trans h]
    · simp [h]
  have hbehind:=hsorted.filter (fun r => after<key r)
  obtain ⟨front,hfront⟩:=getLast?_eq_some_iff.mp hlast
  rw [page] at hfront
  rw [hfilter]
  generalize rows.filter (fun r => after<key r)=behind at hfront hbehind ⊢
  have hsplit : behind=(front++[last])++behind.drop limit := by rw [←hfront,take_append_drop]
  generalize behind.drop limit=tail at hsplit ⊢
  subst hsplit
  obtain ⟨hpage,-,hcross⟩:=pairwise_append.mp hbehind
  have hbefore : (front++[last]).filter (fun r => key last<key r)=[] := by
    rw [filter_eq_nil_iff]
    intro r hr
    rcases mem_append.mp hr with hr | hr
    · simpa using ((pairwise_append.mp hpage).2.2 r hr last mem_cons_self).le
    · simp [mem_singleton.mp hr]
  have hlater : tail.filter (fun r => key last<key r)=tail := by
    rw [filter_eq_self]
    intro r hr
    simpa using hcross last (mem_append_right _ mem_cons_self) r hr
  rw [filter_append,hbefore,hlater,nil_append]

theorem pages_eq (hsorted : rows.Pairwise (fun r s => key r<key s)) (hlimit : 0<limit) {fuel : ℕ} {after : κ}
    (hfuel : (rows.filter (fun r => after<key r)).length<fuel) :
    pages key rows limit fuel after=rows.filter (fun r => after<key r) := by
  induction fuel generalizing after with
  | zero => omega
  | succ fuel ih =>
    rw [pages]
    cases hlast : (page key rows limit after).getLast? with
    | none =>
      have hnil : page key rows limit after=[]:=getLast?_eq_none_iff.mp hlast
      rw [page,take_eq_nil_iff] at hnil
      rcases hnil with h | h
      · omega
      · exact h.symm
    | some last =>
      have hdrop:=filter_after_last hsorted hlast
      have hne : rows.filter (fun r => after<key r)≠[] := by
        intro hnil
        rw [page,hnil,take_nil] at hlast
        cases hlast
      have hpos:=length_pos_of_ne_nil hne
      have hshort : (rows.filter (fun r => key last<key r)).length<fuel := by
        rw [hdrop,length_drop]
        omega
      change page key rows limit after++pages key rows limit fuel (key last)=_
      rw [ih hshort,hdrop,page,take_append_drop]

end Ratarmount.Keyset
