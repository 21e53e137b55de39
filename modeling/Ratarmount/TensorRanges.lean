import Mathlib.Data.List.Sort
import Ratarmount.TensorPaths

/-!
# Byte ranges of tensors

The overlap marks of a mount and the overlap check of a manifest, two sweeps over the ranges in
the order of their offsets. Ends are sums of `u64` that are checked; the errors are `none`.
-/

namespace Ratarmount.Tensors

open List

def checked (n : ℕ) : Option ℕ := if n < 2 ^ 64 then some n else none

structure Range where
  offset : ℕ
  size : ℕ

structure Tensor extends Range where
  name : Str

namespace Range

variable (r t : Range)

def Holds (b : ℕ) : Prop := r.offset ≤ b ∧ b < r.offset + r.size

def Shares : Prop := ∃ b, r.Holds b ∧ t.Holds b

end Range

/-- The ends of the ranges are `u64`. -/
def EndsFit (tensors : List Tensor) : Prop := ∀ t ∈ tensors, 0 < t.size → t.offset + t.size < 2 ^ 64

/-! ### The sweep of the mount -/

/-- The furthest end with its tensor, and the marks. -/
structure Sweep where
  furthest : Option (ℕ × ℕ)
  overlaps : List ℕ

def order (tensors : List Tensor) : List (Tensor × ℕ) :=
  (tensors.zipIdx.filter fun t => 0 < t.1.size).mergeSort (·.1.offset ≤ ·.1.offset)

def Sweep.step (s : Sweep) (t : Tensor × ℕ) : Option Sweep := do
  let stop ← checked (t.1.offset + t.1.size)
  match s.furthest with
  | none => pure ⟨some (stop,t.2),s.overlaps⟩
  | some (maxEnd,j) =>
    let overlaps := if t.1.offset < maxEnd then t.2 :: j :: s.overlaps else s.overlaps
    pure ⟨if maxEnd < stop then some (stop,t.2) else some (maxEnd,j),overlaps⟩

def overlaps (tensors : List Tensor) : Option (List ℕ) :=
  ((order tensors).foldlM Sweep.step ⟨none,[]⟩).map Sweep.overlaps

/-! ### The manifest -/

def noOverlapsStep (furthest : Option (ℕ × Str)) (t : Tensor) : Option (Option (ℕ × Str)) := do
  let stop ← checked (t.offset + t.size)
  match furthest with
  | none => pure (some (stop,t.name))
  | some (maxEnd,name) =>
    if t.offset < maxEnd then none else pure (some (if maxEnd < stop then (stop,t.name) else (maxEnd,name)))

def noOverlaps (tensors : List Tensor) : Option Unit := do
  let _ ← ((tensors.filter (0 < ·.size)).mergeSort (·.offset ≤ ·.offset)).foldlM noOverlapsStep none

/-! ### What is marked -/

variable {t : Tensor} {tensors : List Tensor}

theorem checked_eq_some {n m : ℕ} : checked n=some m ↔ n<2^64 ∧ m=n := by
  rw [checked]
  split_ifs <;> grind

theorem Range.shares_comm {r t : Range} : r.Shares t ↔ t.Shares r := by
  simp only [Range.Shares,and_comm]

theorem Range.Shares.pos {r t : Range} (h : r.Shares t) : 0 < r.size ∧ 0<t.size := by
  obtain ⟨b,⟨_,_⟩,_,_⟩:=h
  omega

/-- Of two ranges that share a byte the second begins in the first, if it begins later. -/
theorem Range.shares_iff {r t : Range} (h : r.offset≤t.offset) (ht : 0<t.size) :
    r.Shares t ↔ t.offset < r.offset+r.size := by
  constructor
  · rintro ⟨b,hr,ht⟩
    exact lt_of_le_of_lt ht.1 hr.2
  · intro hlt
    exact ⟨t.offset,⟨h,hlt⟩,le_rfl,by omega⟩

/-- The marks of the tensors that the sweep has passed. -/
structure Marked (done : List (Tensor × ℕ)) (s : Sweep) : Prop where
  start : s.furthest = none → done = []
  furthest : ∀ m j, s.furthest = some (m,j) → (∃ x ∈ done, x.2 = j ∧ x.1.offset + x.1.size = m) ∧
    ∀ x ∈ done, x.1.offset + x.1.size ≤ m
  marks : ∀ i, i ∈ s.overlaps ↔ ∃ x ∈ done, ∃ y ∈ done, x.2 = i ∧ y.2 ≠ i ∧ x.1.Shares y.1.toRange

/-- A tensor that shares a byte with the next one shares it with the furthest one, too. -/
theorem Marked.step {done : List (Tensor × ℕ)} {s s' : Sweep} {x : Tensor × ℕ} (h : Marked done s) (hx : 0<x.1.size)
    (hafter : ∀y∈done,y.1.offset≤x.1.offset ∧ y.2≠x.2) (hstep : s.step x=some s') : Marked (done++[x]) s' := by
  obtain ⟨stop,hstop,hstep⟩:=Option.bind_eq_some_iff.mp hstep
  obtain ⟨-,rfl⟩:=checked_eq_some.mp hstop
  have hshares : ∀y∈done,y.1.Shares x.1.toRange ↔ x.1.offset<y.1.offset+y.1.size:=fun y hy =>
    Range.shares_iff (hafter y hy).1 hx
  obtain ⟨hstart,hfurthest,hmarks⟩:=h
  cases hf : s.furthest with
  | none =>
    rw [hf] at hstep
    obtain rfl:=Option.some.inj hstep
    obtain rfl:=hstart hf
    constructor <;> grind
  | some f =>
    obtain ⟨m,j⟩:=f
    obtain ⟨⟨z,hz,rfl,rfl⟩,hall⟩:=hfurthest m j hf
    rw [hf] at hstep
    obtain rfl:=Option.some.inj hstep
    have hboth : ∀y∈done,y.1.Shares x.1.toRange → z.1.Shares x.1.toRange ∧ y.1.Shares z.1.toRange := by
      intro y hy hyx
      have hlt:=lt_of_lt_of_le ((hshares y hy).mp hyx) (hall y hy)
      exact ⟨(hshares z hz).mpr hlt,x.1.offset,⟨(hafter y hy).1,(hshares y hy).mp hyx⟩,(hafter z hz).1,hlt⟩
    refine ⟨by grind,by grind,fun i => ?_⟩
    have hgrown : (∃a∈done++[x], ∃b∈done++[x], a.2=i ∧ b.2≠i ∧ a.1.Shares b.1.toRange) ↔
        i∈s.overlaps ∨ ∃y∈done,y.1.Shares x.1.toRange ∧ (y.2=i ∨ x.2=i) := by
      have hcomm : ∀y∈done,x.1.Shares y.1.toRange ↔ y.1.Shares x.1.toRange:=fun _ _ => Range.shares_comm
      simp only [hmarks,mem_append,mem_singleton,or_and_right,exists_or,exists_eq_left]
      grind
    rw [hgrown]
    dsimp only
    split_ifs with hlt
    · have hzx:=(hshares z hz).mpr hlt
      rw [mem_cons,mem_cons]
      constructor
      · rintro (rfl | rfl | hi)
        · exact .inr ⟨z,hz,hzx,.inr rfl⟩
        · exact .inr ⟨z,hz,hzx,.inl rfl⟩
        · exact .inl hi
      · rintro (hi | ⟨y,hy,hyx,rfl | rfl⟩)
        · exact .inr (.inr hi)
        · by_cases hyz : y.2=z.2
          · exact .inr (.inl hyz)
          · exact .inr (.inr ((hmarks _).mpr ⟨y,hy,z,hz,rfl,Ne.symm hyz,(hboth y hy hyx).2⟩))
        · exact .inl rfl
    · have hnone : ¬∃y∈done,y.1.Shares x.1.toRange ∧ (y.2=i ∨ x.2=i) := by
        rintro ⟨y,hy,hyx,-⟩
        exact hlt ((hshares z hz).mp (hboth y hy hyx).1)
      simp only [hnone,or_false]

/-- The sweep over the rest of a list that is in order. -/
theorem Marked.foldlM {done rest : List (Tensor × ℕ)} {s s' : Sweep} (h : Marked done s) (hsize : ∀x∈rest,0<x.1.size)
    (horder : (done++rest).Pairwise fun y x => y.1.offset≤x.1.offset ∧ y.2≠x.2)
    (hrest : rest.foldlM Sweep.step s=some s') : Marked (done++rest) s' := by
  induction rest generalizing done s with
  | nil =>
    obtain rfl:=Option.some.inj hrest
    rwa [append_nil]
  | cons x rest ih =>
    rw [foldlM_cons] at hrest
    obtain ⟨u,hu,hrest⟩:=Option.bind_eq_some_iff.mp hrest
    have hafter:=fun y hy => (pairwise_append.mp horder).2.2 y hy x mem_cons_self
    rw [append_cons] at horder ⊢
    exact ih (h.step (hsize x mem_cons_self) hafter hu) (fun y hy => hsize y (mem_cons_of_mem _ hy)) horder hrest

theorem mem_order {i : ℕ} : (t,i)∈order tensors ↔ tensors[i]?=some t ∧ 0<t.size := by
  rw [order,mem_mergeSort,mem_filter,mem_zipIdx_iff_getElem?,decide_eq_true_iff]

theorem pairwise_mergeSort_le {α : Type} (f : α → ℕ) (xs : List α) : (xs.mergeSort (f ·≤f ·)).Pairwise (f ·≤f ·) := by
  refine (pairwise_mergeSort ?_ ?_ xs).imp of_decide_eq_true
  · intro a b c hab hbc
    exact decide_eq_true ((of_decide_eq_true hab).trans (of_decide_eq_true hbc))
  · intro a b
    simpa using Nat.le_total _ _

theorem pairwise_order (tensors : List Tensor) :
    (order tensors).Pairwise fun y x => y.1.offset≤x.1.offset ∧ y.2≠x.2 := by
  refine (pairwise_mergeSort_le _ _).and ((mergeSort_perm _ _).symm.pairwise (Pairwise.filter _ ?_) fun h => Ne.symm h)
  rw [← @pairwise_map _ _ Prod.snd (·≠·),zipIdx_map_snd]
  exact nodup_range'

theorem Sweep.step_isSome (s : Sweep) (x : Tensor × ℕ) : (s.step x).isSome ↔ x.1.offset+x.1.size<2^64 := by
  rw [Sweep.step,checked]
  split_ifs with h
  · cases s.furthest <;> exact iff_of_true rfl h
  · exact iff_of_false Bool.false_ne_true h

theorem foldlM_step_isSome (rest : List (Tensor × ℕ)) (s : Sweep) :
    (rest.foldlM Sweep.step s).isSome ↔ ∀x∈rest,x.1.offset+x.1.size<2^64 := by
  induction rest generalizing s with
  | nil => simp
  | cons x rest ih =>
    rw [foldlM_cons,forall_mem_cons,←s.step_isSome x]
    cases s.step x with
    | none => simp
    | some u => simpa using ih u

theorem overlaps_eq_none : overlaps tensors=none ↔ ¬EndsFit tensors := by
  rw [overlaps,Option.map_eq_none_iff,←Option.not_isSome_iff_eq_none,foldlM_step_isSome,not_congr]
  constructor
  · intro h t ht hsize
    obtain ⟨i,hi⟩:=mem_iff_getElem?.mp ht
    exact h (t,i) (mem_order.mpr ⟨hi,hsize⟩)
  · rintro h ⟨t,i⟩ hx
    obtain ⟨hi,hsize⟩:=mem_order.mp hx
    exact h t (mem_of_getElem? hi) hsize

theorem mem_overlaps {marks : List ℕ} (h : overlaps tensors=some marks) (i : ℕ) :
    i∈marks ↔ ∃t u j,tensors[i]?=some t ∧ tensors[j]?=some u ∧ j≠i ∧ t.Shares u.toRange := by
  obtain ⟨s,hs,rfl⟩:=Option.map_eq_some_iff.mp h
  have hstart : Marked [] ⟨none,[]⟩ := by constructor <;> simp
  have hmarked:=hstart.foldlM (fun x hx => (mem_order.mp hx).2) (pairwise_order tensors) hs
  rw [hmarked.marks i]
  constructor
  · rintro ⟨x,hx,y,hy,rfl,hne,hshares⟩
    exact ⟨x.1,y.1,y.2,(mem_order.mp hx).1,(mem_order.mp hy).1,hne,hshares⟩
  · rintro ⟨t,u,j,hi,hj,hne,hshares⟩
    exact ⟨(t,i),mem_order.mpr ⟨hi,hshares.pos.1⟩,(u,j),mem_order.mpr ⟨hj,hshares.pos.2⟩,rfl,hne,hshares⟩

/-! ### The two sweeps -/

theorem map_order (tensors : List Tensor) :
    (order tensors).map Prod.fst=(tensors.filter (0<·.size)).mergeSort (·.offset≤·.offset) := by
  have hfilter : (tensors.zipIdx.filter fun t => 0<t.1.size).map Prod.fst=tensors.filter (0<·.size) := by
    conv_rhs => rw [←zipIdx_map_fst 0 tensors,filter_map]
    rfl
  rw [order,←hfilter]
  exact map_mergeSort fun _ _ _ _ => rfl

theorem suffix_foldlM {rest : List (Tensor × ℕ)} {s s' : Sweep} (h : rest.foldlM Sweep.step s=some s') :
    s.overlaps <:+ s'.overlaps := by
  induction rest generalizing s with
  | nil => exact Option.some.inj h ▸ suffix_rfl
  | cons x rest ih =>
    rw [foldlM_cons] at h
    obtain ⟨u,hu,h⟩:=Option.bind_eq_some_iff.mp h
    refine IsSuffix.trans ?_ (ih h)
    obtain ⟨stop,-,hu⟩:=Option.bind_eq_some_iff.mp hu
    cases hf : s.furthest with
    | none =>
      rw [hf] at hu
      exact Option.some.inj hu ▸ suffix_rfl
    | some f =>
      rw [hf] at hu
      obtain rfl:=Option.some.inj hu
      dsimp only
      split_ifs
      · exact (suffix_cons _ _).trans (suffix_cons _ _)
      · exact suffix_rfl

/-- The sweeps have the same furthest end as long as no tensor is marked. -/
theorem foldlM_noOverlapsStep (rest : List (Tensor × ℕ)) {f : Option (ℕ × Str)} {g : Option (ℕ × ℕ)}
    (hfg : f.map Prod.fst=g.map Prod.fst) :
    ((rest.map Prod.fst).foldlM noOverlapsStep f).isSome ↔ (rest.foldlM Sweep.step ⟨g,[]⟩).map Sweep.overlaps=some [] := by
  induction rest generalizing f g with
  | nil => simp
  | cons x rest ih =>
    rw [map_cons,foldlM_cons,foldlM_cons,noOverlapsStep,Sweep.step]
    cases checked (x.1.offset+x.1.size) with
    | none => simp
    | some stop =>
      cases f with
      | none =>
        cases g with
        | none => exact ih rfl
        | some _ => cases hfg
      | some f =>
        cases g with
        | none => cases hfg
        | some g =>
          obtain ⟨m,name⟩:=f
          obtain ⟨_,j⟩:=g
          obtain rfl:=Option.some.inj hfg
          have hclash : ∀g,(rest.foldlM Sweep.step ⟨g,[x.2,j]⟩).map Sweep.overlaps≠some [] := by
            intro g h
            obtain ⟨s',hs',hnil⟩:=Option.map_eq_some_iff.mp h
            have hsuffix:=suffix_foldlM hs'
            rw [hnil] at hsuffix
            exact absurd (suffix_nil.mp hsuffix) (cons_ne_nil _ _)
          simp only [Option.bind_eq_bind,Option.bind_some,Option.pure_def]
          split_ifs
          · exact iff_of_false Bool.false_ne_true (hclash _)
          · exact iff_of_false Bool.false_ne_true (hclash _)
          · exact ih rfl
          · exact ih rfl

/-- The mount fails if the end of a range is no `u64`, and marks the tensors that share a byte with another one. The manifest
accepts the files in which the mount marks nothing. -/
theorem overlaps_exact (tensors : List Tensor) : (overlaps tensors = none ↔ ¬ EndsFit tensors) ∧
    (∀ i, i ∈ (overlaps tensors).getD [] ↔ EndsFit tensors ∧
      ∃ t u j, tensors[i]? = some t ∧ tensors[j]? = some u ∧ j ≠ i ∧ t.Shares u.toRange) ∧
    (noOverlaps tensors = some () ↔ overlaps tensors = some []) := by
  refine ⟨overlaps_eq_none,fun i => ?_,?_⟩
  · cases ho : overlaps tensors with
    | none => exact iff_of_false (not_mem_nil) fun h => overlaps_eq_none.mp ho h.1
    | some marks =>
      have hends : EndsFit tensors := by
        by_contra hends
        rw [overlaps_eq_none.mpr hends] at ho
        cases ho
      rw [Option.getD_some,mem_overlaps ho i,and_iff_right hends]
  · rw [overlaps,← @foldlM_noOverlapsStep (order tensors) none none rfl,noOverlaps,map_order]
    cases foldlM noOverlapsStep none _ <;> simp

end Ratarmount.Tensors
