import Mathlib.Data.List.Basic
import Mathlib.Data.Int.Order.Basic
import Mathlib.Tactic.Linarith

/-!
# Edit graphs

Points of the edit graph of two lists and the number of insertions and deletions that
reach them, and the greedy search's frontier: on every diagonal the furthest point
reached with a given number of edits.
-/

namespace Ratarmount.EditGraph

open List

variable {α : Type*}

section Reach

variable (a b : List α)

/-- The point is reached with `d` insertions and deletions. They may run past the ends of the lists. -/
inductive Reach : ℕ → ℕ → ℕ → Prop
  | start : Reach 0 0 0
  | right {d x y : ℕ} : Reach d x y → Reach (d + 1) (x + 1) y
  | down {d x y : ℕ} : Reach d x y → Reach (d + 1) x (y + 1)
  | diag {d x y : ℕ} : Reach d x y → x < a.length → y < b.length → a[x]? = b[y]? → Reach d (x + 1) (y + 1)

/-- The diagonals that `d` edits can end on. -/
def OnDiagonal (d : ℕ) (k : ℤ) : Prop := -d ≤ k ∧ k ≤ d ∧ (d - k) % 2 = 0

variable {a b} {d x y : ℕ} {k : ℤ}

theorem Reach.onDiagonal (h : Reach a b d x y) : OnDiagonal d (x-y) := by
  induction h with
  | start => exact ⟨Int.le_refl _,Int.le_refl _,rfl⟩
  | right _ ih =>
    obtain ⟨hlow,hhigh,hpar⟩:=ih
    refine ⟨?_,?_,?_⟩ <;> omega
  | down _ ih =>
    obtain ⟨hlow,hhigh,hpar⟩:=ih
    refine ⟨?_,?_,?_⟩ <;> omega
  | diag _ _ _ _ ih =>
    obtain ⟨hlow,hhigh,hpar⟩:=ih
    refine ⟨?_,?_,?_⟩ <;> omega

/-- A path past the ends of the lists reaches the nearest point inside with fewer edits. -/
theorem Reach.clamp (h : Reach a b d x y) :
    ∃e,Reach a b e (min x a.length) (min y b.length) ∧ e+(x-a.length)+(y-b.length)=d := by
  induction h with
  | start => exact ⟨0,by simpa using Reach.start,by omega⟩
  | @right d x y _ ih =>
    obtain ⟨e,he,hsum⟩:=ih
    by_cases hx : x<a.length
    · refine ⟨e+1,?_,by omega⟩
      rw [min_eq_left (le_of_lt hx)] at he
      rw [min_eq_left hx]
      exact he.right
    · refine ⟨e,?_,by omega⟩
      rw [min_eq_right (by omega)] at he ⊢
      exact he
  | @down d x y _ ih =>
    obtain ⟨e,he,hsum⟩:=ih
    by_cases hy : y<b.length
    · refine ⟨e+1,?_,by omega⟩
      rw [min_eq_left (le_of_lt hy)] at he
      rw [min_eq_left (b := b.length) hy]
      exact he.down
    · refine ⟨e,?_,by omega⟩
      rw [min_eq_right (b := b.length) (by omega)] at he ⊢
      exact he
  | @diag d x y _ hx hy heq ih =>
    obtain ⟨e,he,hsum⟩:=ih
    refine ⟨e,?_,by omega⟩
    rw [min_eq_left (le_of_lt hx),min_eq_left (le_of_lt hy)] at he
    rw [min_eq_left hx,min_eq_left (b := b.length) hy]
    exact he.diag hx hy heq

/-- Deleting everything and inserting everything is a path to the end. -/
theorem reach_end : Reach a b (a.length+b.length) a.length b.length := by
  have hright : ∀x,Reach a b x x 0 := by
    intro x
    induction x with
    | zero => exact .start
    | succ x ih => exact ih.right
  have hdown : ∀y,Reach a b (a.length+y) a.length y := by
    intro y
    induction y with
    | zero => exact hright _
    | succ y ih => exact ih.down
  exact hdown _

end Reach

variable [DecidableEq α]

def common : List α → List α → ℕ
  | x :: xs, y :: ys => if x = y then common xs ys + 1 else 0
  | _, _ => 0

theorem take_common (xs ys : List α) : xs.take (common xs ys)=ys.take (common xs ys) := by
  induction xs generalizing ys with
  | nil => cases ys <;> rfl
  | cons x xs ih =>
    cases ys with
    | nil => rfl
    | cons y ys =>
      rw [common]
      split_ifs with h
      · rw [h,take_succ_cons,take_succ_cons,ih]
      · rfl

theorem common_le (xs ys : List α) : common xs ys≤xs.length ∧ common xs ys≤ys.length := by
  induction xs generalizing ys with
  | nil => cases ys <;> exact ⟨Nat.zero_le _,Nat.zero_le _⟩
  | cons x xs ih =>
    cases ys with
    | nil => exact ⟨Nat.zero_le _,Nat.zero_le _⟩
    | cons y ys =>
      have hih:=ih ys
      rw [common,length_cons,length_cons]
      split_ifs <;> omega

/-- The common beginning cannot be extended. -/
theorem common_stuck (xs ys : List α) (hx : common xs ys<xs.length) (hy : common xs ys<ys.length) :
    xs[common xs ys]?≠ys[common xs ys]? := by
  induction xs generalizing ys with
  | nil => exact absurd hx (Nat.not_lt_zero _)
  | cons x xs ih =>
    cases ys with
    | nil => exact absurd hy (Nat.not_lt_zero _)
    | cons y ys =>
      rw [common] at hx hy ⊢
      split_ifs at hx hy ⊢ with h
      · rw [getElem?_cons_succ]
        exact ih ys (Nat.lt_of_succ_lt_succ hx) (Nat.lt_of_succ_lt_succ hy)
      · intro heq
        exact h (Option.some.inj heq)

theorem getElem?_of_lt_common {xs ys : List α} {j : ℕ} (h : j<common xs ys) : xs[j]?=ys[j]? := by
  rw [←getElem?_take_of_lt h,take_common,getElem?_take_of_lt h]

section Frontier

variable (a b : List α)

def slide (x y : ℕ) : ℕ := common (a.drop x) (b.drop y)

/-- Where a diagonal is entered from its two neighbours: from the right one, or one step past the left one. -/
def enter (d : ℕ) (k : ℤ) (left right : ℕ) : ℕ := if k = -d ∨ (k ≠ d ∧ left < right) then right else left + 1

/-- The greedy search: the furthest point of the diagonal with `d` edits. -/
def frontier : ℕ → ℤ → ℕ
  | 0, _ => slide a b 0 0
  | d + 1, k =>
    let x := enter (d + 1) k (frontier d (k - 1)) (frontier d (k + 1))
    x + slide a b x (x - k).toNat

variable {a b} {d x y : ℕ} {k : ℤ}

theorem slide_step {j : ℕ} (hj : j<slide a b x y) : x+j<a.length ∧ y+j<b.length ∧ a[x+j]?=b[y+j]? := by
  have hle:=common_le (a.drop x) (b.drop y)
  have heq:=getElem?_of_lt_common hj
  rw [getElem?_drop,getElem?_drop] at heq
  rw [length_drop,length_drop] at hle
  rw [slide] at hj
  exact ⟨by omega,by omega,heq⟩

theorem slide_stuck (hx : x+slide a b x y<a.length) (hy : y+slide a b x y<b.length) :
    a[x+slide a b x y]?≠b[y+slide a b x y]? := by
  have hstuck:=common_stuck (a.drop x) (b.drop y)
  rw [length_drop,length_drop,getElem?_drop,getElem?_drop] at hstuck
  rw [slide] at hx hy ⊢
  exact hstuck (by omega) (by omega)

theorem slide_of_eq (hx : x<a.length) (hy : y<b.length) (heq : a[x]?=b[y]?) :
    slide a b x y=slide a b (x+1) (y+1)+1 := by
  rw [getElem?_eq_getElem hx,getElem?_eq_getElem hy,Option.some_inj] at heq
  rw [slide,drop_eq_getElem_cons hx,drop_eq_getElem_cons hy,common,if_pos heq,slide]

theorem slide_of_not (h : ¬(x<a.length ∧ y<b.length ∧ a[x]?=b[y]?)) : slide a b x y=0 := by
  by_contra hne
  exact h (slide_step (Nat.pos_of_ne_zero hne))

theorem Reach.slide (h : Reach a b d x y) : ∀j ≤ slide a b x y,Reach a b d (x+j) (y+j) := by
  intro j
  induction j with
  | zero => exact fun _ => h
  | succ j ih =>
    intro hj
    obtain ⟨hx,hy,heq⟩:=slide_step (show j<EditGraph.slide a b x y from hj)
    exact (ih (Nat.le_of_succ_le hj)).diag hx hy heq

/-- The neighbour a diagonal is entered from, and the point behind the edit. -/
theorem enter_cases (hk : OnDiagonal (d+1) k) (left right : ℕ) :
    (OnDiagonal d (k+1) ∧ enter (d+1) k left right=right) ∨
      (OnDiagonal d (k-1) ∧ enter (d+1) k left right=left+1) := by
  obtain ⟨hlow,hhigh,hpar⟩:=hk
  rw [enter]
  split_ifs with h
  · refine .inl ⟨⟨by omega,?_,by omega⟩,rfl⟩
    rcases h with h | h <;> omega
  · refine .inr ⟨⟨?_,by omega,by omega⟩,rfl⟩
    omega

/-- The greedy search's points are reached. -/
theorem reach_frontier (hk : OnDiagonal d k) :
    k≤frontier a b d k ∧ Reach a b d (frontier a b d k) (frontier a b d k-k).toNat := by
  induction d generalizing k with
  | zero =>
    obtain ⟨hlow,hhigh,-⟩:=hk
    obtain rfl : k=0 := by omega
    have hreach:=(Reach.start (a:=a) (b:=b)).slide _ le_rfl
    rw [zero_add] at hreach
    exact ⟨by omega,hreach⟩
  | succ d ih =>
    rw [frontier]
    obtain ⟨x,hx⟩ : ∃x,x=enter (d+1) k (frontier a b d (k - 1)) (frontier a b d (k+1)):=⟨_,rfl⟩
    -- the point behind the edit
    have hpoint : k≤x ∧ Reach a b (d+1) x (x-k).toNat := by
      rcases enter_cases hk (frontier a b d (k - 1)) (frontier a b d (k+1)) with ⟨hnext,henter⟩ | ⟨hnext,henter⟩
      · obtain ⟨hle,hreach⟩:=ih hnext
        rw [hx,henter]
        have hy : (frontier a b d (k+1)-k : ℤ).toNat=(frontier a b d (k+1)-(k+1) : ℤ).toNat+1 := by omega
        rw [hy]
        exact ⟨by omega,hreach.down⟩
      · obtain ⟨hle,hreach⟩:=ih hnext
        rw [hx,henter]
        have hy : ((frontier a b d (k-1)+1 : ℕ)-k : ℤ).toNat=(frontier a b d (k-1)-(k-1) : ℤ).toNat := by omega
        rw [hy]
        exact ⟨by omega,hreach.right⟩
    have hslide:=hpoint.2.slide _ le_rfl
    rw [←hx]
    have hy : ((x+slide a b x (x-k).toNat : ℕ)-k : ℤ).toNat=(x-k).toNat+slide a b x (x-k).toNat := by omega
    rw [hy]
    exact ⟨by omega,hslide⟩

/-- Every step past the end of the first list is an edit. -/
theorem frontier_le (hk : OnDiagonal d k) : frontier a b d k≤a.length+d := by
  obtain ⟨e,-,hsum⟩:=(reach_frontier (a:=a) (b:=b) hk).2.clamp
  omega

theorem frontier_stuck (hk : OnDiagonal d k) {y : ℕ} (hy : (frontier a b d k : ℤ)-y=k)
    (hxlt : frontier a b d k<a.length) (hylt : y<b.length) : a[frontier a b d k]?≠b[y]? := by
  cases d with
  | zero =>
    obtain ⟨hlow,hhigh,-⟩:=hk
    obtain rfl : y=frontier a b 0 k := by omega
    have hstuck:=slide_stuck (a:=a) (b:=b) (x := 0) (y := 0)
    rw [zero_add] at hstuck
    exact hstuck hxlt hylt
  | succ d =>
    rw [frontier] at hy hxlt ⊢
    obtain ⟨x,hx⟩ : ∃x,x=enter (d+1) k (frontier a b d (k - 1)) (frontier a b d (k+1)):=⟨_,rfl⟩
    rw [←hx] at hy hxlt ⊢
    have hle : k≤x := by
      rcases enter_cases hk (frontier a b d (k - 1)) (frontier a b d (k+1)) with ⟨hnext,henter⟩ | ⟨hnext,henter⟩
      · have hle:=(reach_frontier (a:=a) (b:=b) hnext).1
        omega
      · have hle:=(reach_frontier (a:=a) (b:=b) hnext).1
        omega
    obtain rfl : y=(x - k).toNat+slide a b x (x - k).toNat := by omega
    exact slide_stuck hxlt hylt

/-- No path with as many edits gets further. -/
theorem Reach.le_frontier (h : Reach a b d x y) : x≤frontier a b d (x-y) := by
  induction h with
  | start => exact Nat.zero_le _
  | @right d x y hreach ih =>
    obtain ⟨hlow,-,-⟩:=hreach.onDiagonal
    have hk : ((x+1 : ℕ)-y : ℤ)-1=x-y := by omega
    rw [frontier,hk]
    refine le_trans ?_ (Nat.le_add_right _ _)
    rw [enter]
    split_ifs with henter
    · omega
    · omega
  | @down d x y hreach ih =>
    obtain ⟨-,hhigh,-⟩:=hreach.onDiagonal
    have hk : ((x : ℤ)-(y+1 : ℕ))+1=x-y := by omega
    rw [frontier,hk]
    refine le_trans ?_ (Nat.le_add_right _ _)
    rw [enter]
    split_ifs with henter
    · exact ih
    · omega
  | @diag d x y hreach hx hy heq ih =>
    have hk : ((x+1 : ℕ) : ℤ)-(y+1 : ℕ)=x-y := by omega
    rw [hk]
    refine Nat.lt_of_le_of_ne ih fun hsame => ?_
    refine frontier_stuck (a := a) (b := b) hreach.onDiagonal (y := y) ?_ ?_ hy ?_
    · omega
    · omega
    · rw [←hsame]
      exact heq

/-- The search is past the ends of both lists on this diagonal. -/
def Hit (a b : List α) (d : ℕ) (k : ℤ) : Prop := a.length ≤ frontier a b d k ∧ b.length ≤ frontier a b d k - k

theorem Reach.hit (h : Reach a b d a.length b.length) : Hit a b d (a.length-b.length) := by
  have hle:=h.le_frontier
  refine ⟨hle,?_⟩
  omega

/-- The first hit is the end of both lists itself. -/
theorem first_hit (hk : OnDiagonal d k) (hhit : Hit a b d k)
    (hfirst : ∀e<d,∀k,OnDiagonal e k→¬Hit a b e k) : frontier a b d k=a.length ∧ k=a.length-b.length := by
  obtain ⟨hx,hy⟩:=hhit
  obtain ⟨hle,hreach⟩:=reach_frontier (a:=a) (b:=b) hk
  obtain ⟨e,hclamp,hsum⟩:=hreach.clamp
  rw [min_eq_right hx,min_eq_right (by omega)] at hclamp
  have hlast : e=d := by
    by_contra hne
    exact hfirst e (by omega) _ hclamp.onDiagonal hclamp.hit
  omega

end Frontier

end Ratarmount.EditGraph
