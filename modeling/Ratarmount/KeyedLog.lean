import Mathlib.Data.List.Nodup
import Mathlib.Tactic.Common

/-!
# Keyed insertion logs

A table whose inserts replace the row that has their key, as the log of its
inserts: the rows that are left are those with no later row of the same key.
-/

namespace Ratarmount.KeyedLog

open List

variable {α κ : Type} (key : α → κ)

/-- The rows that no later insert has replaced, in the order of their inserts. -/
def latest [DecidableEq κ] : List α → List α
  | [] => []
  | r :: log => if ∃ r' ∈ log, key r' = key r then latest log else r :: latest log

variable {key} {p : α → Bool}

theorem latest_sublist [DecidableEq κ] (log : List α) : (latest key log).Sublist log := by
  induction log with
  | nil => exact .slnil
  | cons r log ih =>
    rw [latest]
    split_ifs
    · exact ih.cons r
    · exact ih.cons_cons r

section Append

variable [DecidableEq κ] {log log' : List α}

/-- Of the earlier rows those stay whose key no later row has. -/
theorem latest_append (log log' : List α) : latest key (log++log') =
    (latest key log).filter (fun r => ∀r'∈log',key r'≠key r)++latest key log' := by
  induction log with
  | nil => rfl
  | cons s log ih =>
    have hsplit : (∃r'∈log++log',key r'=key s) ↔
        (∃r'∈log,key r'=key s) ∨ ∃r'∈log',key r'=key s := by
      simp only [mem_append,or_and_right,exists_or]
    rw [cons_append,latest,latest,ih]
    by_cases hs : ∃r'∈log,key r'=key s
    · rw [if_pos (hsplit.mpr (.inl hs)),if_pos hs]
    · rw [if_neg hs]
      by_cases hs' : ∃r'∈log',key r'=key s
      · rw [if_pos (hsplit.mpr (.inr hs')),filter_cons_of_neg (by simpa using hs')]
      · rw [if_neg (hsplit.not.mpr (not_or.mpr ⟨hs,hs'⟩)),filter_cons_of_pos (by simpa using hs'),cons_append]

theorem mem_latest_append {r : α} : r∈latest key (log++log') ↔
      r∈latest key log' ∨ (r∈latest key log ∧ ∀r'∈log',key r'≠key r) := by
  rw [latest_append,mem_append,mem_filter,or_comm,decide_eq_true_iff]

end Append

end Ratarmount.KeyedLog
