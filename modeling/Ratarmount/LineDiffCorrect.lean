import Ratarmount.LineDiff

/-!
# The edit script keeps both texts

The frontiers that the search stores are those of the greedy search in the edit graph,
so it ends at the end of both lists, and the trace back passes the points it came by.
-/

namespace Ratarmount.Patch

open EditGraph List

def oldLines (script : List Line) : List Bytes := (script.filter (·.tag ≠ .added)).map Line.text

def newLines (script : List Line) : List Bytes := (script.filter (·.tag ≠ .removed)).map Line.text

@[simp] theorem oldLines_append (s t : List Line) : oldLines (s++t)=oldLines s++oldLines t := by
  rw [oldLines,filter_append,map_append,oldLines,oldLines]

@[simp] theorem newLines_append (s t : List Line) : newLines (s++t)=newLines s++newLines t := by
  rw [newLines,filter_append,map_append,newLines,newLines]

structure Script (a b : List Bytes) (script : List Line) : Prop where
  old : oldLines script = a
  new : newLines script = b

variable {a b : List Bytes} {script : List Line}

theorem filter_tagged (tag other : Tag) (xs : List Bytes) :
    ((xs.map fun text => (⟨tag,text⟩ : Line)).filter (·.tag≠other)).map Line.text=if tag=other then [] else xs := by
  by_cases htag : tag=other
  · rw [if_pos htag,filter_eq_nil_iff.mpr,map_nil]
    intro line hline
    obtain ⟨x,-,rfl⟩:=mem_map.mp hline
    simp [htag]
  · rw [if_neg htag,filter_eq_self.mpr,map_map]
    · exact map_id _
    · intro line hline
      obtain ⟨x,-,rfl⟩:=mem_map.mp hline
      exact decide_eq_true htag

theorem oldLines_tagged (tag : Tag) (xs : List Bytes) :
    oldLines (xs.map (⟨tag,·⟩))=if tag = .added then [] else xs := filter_tagged tag .added xs

theorem newLines_tagged (tag : Tag) (xs : List Bytes) :
    newLines (xs.map (⟨tag,·⟩))=if tag = .removed then [] else xs := filter_tagged tag .removed xs

theorem script_fallback : Script a b (fallback a b) := by
  constructor
  · rw [fallback,oldLines_append,oldLines_tagged,oldLines_tagged,if_neg nofun,if_pos rfl,append_nil]
  · rw [fallback,newLines_append,newLines_tagged,newLines_tagged,if_pos rfl,if_neg nofun,nil_append]

theorem drop_of_getElem? {xs : List Bytes} {i : ℕ} {t : Bytes} (h : xs[i]?=some t) : xs.drop i=t::xs.drop (i+1) := by
  obtain ⟨hlt,rfl⟩:=List.getElem?_eq_some_iff.mp h
  exact drop_eq_getElem_cons hlt

section Steps

variable {x y : ℕ} {text : Bytes}

theorem Script.context (h : Script (a.drop (x+1)) (b.drop (y+1)) script) (ha : a[x]?=some text)
    (hb : b[y]?=some text) : Script (a.drop x) (b.drop y) (⟨.context,text⟩::script) := by
  rw [drop_of_getElem? ha,drop_of_getElem? hb,←h.old,←h.new]
  exact ⟨rfl,rfl⟩

theorem Script.removed (h : Script (a.drop (x+1)) (b.drop y) script) (ha : a[x]?=some text) :
    Script (a.drop x) (b.drop y) (⟨.removed,text⟩::script) := by
  rw [drop_of_getElem? ha,←h.old,←h.new]
  exact ⟨rfl,rfl⟩

theorem Script.added (h : Script (a.drop x) (b.drop (y+1)) script) (hb : b[y]?=some text) :
    Script (a.drop x) (b.drop y) (⟨.added,text⟩::script) := by
  rw [drop_of_getElem? hb,←h.old,←h.new]
  exact ⟨rfl,rfl⟩

end Steps

theorem asUsize_of_lt {z : ℤ} (h : 0≤z) (hlt : z<2^64) : asUsize z=z.toNat := by
  rw [asUsize,Int.emod_eq_of_lt h hlt]

theorem snake_eq {turns x y : ℕ} (h : a.length≤turns+x) : snake a b turns x y=(x+slide a b x y,y+slide a b x y) := by
  induction turns generalizing x y with
  | zero =>
    have hend : slide a b x y=0:=slide_of_not fun hin => by omega
    rw [snake,hend,add_zero,add_zero]
  | succ turns ih =>
    rw [snake]
    split_ifs with hin
    · obtain ⟨hx,hy,heq⟩:=hin
      rw [ih (by omega),slide_of_eq hx hy heq]
      congr 1 <;> omega
    · rw [slide_of_not hin,add_zero,add_zero]

/-- The points a diagonal of depth `d` is entered from. In front of depth 0 it is the one above the origin. -/
def before (a b : List Bytes) : ℕ → ℤ → ℕ
  | 0, _ => 0
  | d + 1, k => frontier a b d k

def Beside : ℕ → ℤ → Prop
  | 0, k => k = 1
  | d + 1, k => OnDiagonal d k

variable {d : ℕ} {k : ℤ} {v : List ℕ}

theorem Beside.parity (h : Beside d k) : (d-k) % 2=1 ∧ -d-1≤k ∧ k≤d+1 := by
  cases d with
  | zero =>
    have hone : k=1:=h
    omega
  | succ d =>
    obtain ⟨hlow,hhigh,hpar⟩:=h
    refine ⟨?_,?_,?_⟩ <;> omega

abbrev Down (a b : List Bytes) (d : ℕ) (k : ℤ) : Prop :=
  k = -d ∨ (k ≠ d ∧ before a b d (k - 1) < before a b d (k + 1))

/-- From which neighbour a diagonal is entered, at every depth. -/
theorem entered (a b : List Bytes) (hk : OnDiagonal d k) :
    Down a b d k ∧ Beside d (k+1) ∨ ¬Down a b d k ∧ 0<d ∧ Beside d (k-1) := by
  by_cases hdown : Down a b d k
  · refine .inl ⟨hdown,?_⟩
    cases d with
    | zero =>
      obtain ⟨hlow,hhigh,-⟩:=hk
      show k+1=1
      omega
    | succ d =>
      obtain ⟨hlow,hhigh,hpar⟩:=hk
      exact ⟨by omega,by omega,by omega⟩
  · refine .inr ⟨hdown,?_⟩
    obtain ⟨hlow,hhigh,hpar⟩:=hk
    cases d with
    | zero => omega
    | succ d => exact ⟨Nat.succ_pos _,by omega,by omega,by omega⟩

def entry (a b : List Bytes) (d : ℕ) (k : ℤ) : ℕ := enter d k (before a b d (k - 1)) (before a b d (k + 1))

theorem frontier_eq (a b : List Bytes) (hk : OnDiagonal d k) :
    frontier a b d k=entry a b d k+slide a b (entry a b d k) (entry a b d k-k).toNat := by
  cases d with
  | zero =>
    obtain ⟨hlow,hhigh,-⟩:=hk
    obtain rfl : k=0 := by omega
    exact (zero_add _).symm
  | succ d => rfl

theorem le_before (a b : List Bytes) (hd : 0<d) (hk : Beside d k) : k≤before a b d k := by
  obtain ⟨e,rfl⟩ : ∃e,d=e+1:=⟨d - 1,by omega⟩
  exact (reach_frontier hk).1

theorem le_entry (a b : List Bytes) (hk : OnDiagonal d k) : k≤entry a b d k := by
  rw [entry,enter]
  rcases entered a b hk with ⟨hdown,hbeside⟩ | ⟨hright,hd,hbeside⟩
  · rw [if_pos hdown]
    rcases Nat.eq_zero_or_pos d with rfl | hd
    · obtain ⟨hlow,hhigh,-⟩:=hk
      omega
    · have hle:=le_before a b hd hbeside
      omega
  · rw [if_neg hright]
    have hle:=le_before a b hd hbeside
    omega

/-- The frontiers as the search has them at the beginning of depth `d`. -/
structure Stored (a b : List Bytes) (d : ℕ) (v : List ℕ) : Prop where
  length : v.length = 2 * (a.length + b.length) + 3
  value : ∀ k, Beside d k → v[((a.length + b.length + 1 : ℕ) + k).toNat]? = some (before a b d k)

section Depth

variable (hv : Stored a b d v) (hk : OnDiagonal d k) (hd : d ≤ a.length + b.length)
  (hsmall : a.length + b.length < 2 ^ 62)

include hk hd hsmall in
theorem index_eq : asUsize ((a.length+b.length+1 : ℕ)+k)=((a.length+b.length+1 : ℕ)+k).toNat := by
  obtain ⟨hlow,hhigh,-⟩:=hk
  exact asUsize_of_lt (by omega) (by omega)

include hv in
theorem value_below (h : Beside d (k-1)) :
    v[((a.length+b.length+1 : ℕ)+k).toNat-1]?=some (before a b d (k-1)) := by
  rw [←hv.value _ h]
  congr 1
  omega

include hv hk hd in
theorem value_above (h : Beside d (k+1)) : v[((a.length+b.length+1 : ℕ)+k).toNat+1]?=some (before a b d (k+1)) := by
  obtain ⟨hlow,hhigh,-⟩:=hk
  rw [←hv.value _ h]
  congr 1
  omega

include hv hk hd hsmall in
theorem comesDown_eq : comesDown v (asUsize ((a.length+b.length+1 : ℕ)+k)) k d = some (decide (Down a b d k)) := by
  rw [index_eq hk hd hsmall,comesDown]
  split_ifs with hlow hhigh
  · rw [decide_eq_true (.inl hlow)]
  · rw [decide_eq_false]
    rintro (h | h)
    · exact hlow h
    · exact h.1 hhigh
  · -- both neighbours are diagonals of the last depth
    have hbeside : Beside d (k-1) ∧ Beside d (k+1) := by
      obtain ⟨h1,h2,hpar⟩:=hk
      cases d with
      | zero => omega
      | succ d => exact ⟨⟨by omega,by omega,by omega⟩,⟨by omega,by omega,by omega⟩⟩
    have hsub : checkedSub ((a.length+b.length+1 : ℕ)+k).toNat 1=some (((a.length+b.length+1 : ℕ)+k).toNat-1) := by
      obtain ⟨h1,h2,-⟩:=hk
      exact if_pos (by omega)
    simp only [hsub,Option.bind_eq_bind,Option.bind_some,value_below hv hbeside.1,value_above hv hk hd hbeside.2]
    simp [hlow,hhigh]

include hv hk hd hsmall in
theorem enterFrom_eq : enterFrom v (asUsize ((a.length+b.length+1 : ℕ)+k)) k d=some (entry a b d k) := by
  rw [enterFrom,comesDown_eq hv hk hd hsmall,Option.bind_eq_bind,Option.bind_some,index_eq hk hd hsmall,entry,enter]
  rcases entered a b hk with ⟨hdown,hbeside⟩ | ⟨hright,-,hbeside⟩
  · rw [if_pos (decide_eq_true hdown),if_pos hdown,value_above hv hk hd hbeside]
  · rw [decide_eq_false hright,if_neg Bool.false_ne_true,if_neg hright,checkedSub,if_pos,Option.bind_eq_bind,
      Option.bind_some,value_below hv hbeside,Option.map_some]
    obtain ⟨h1,h2,-⟩:=hk
    omega

include hv hk hd hsmall in
/-- One diagonal of the search: the greedy search's point is stored. -/
theorem visit_eq : visit a b (a.length+b.length+1) d v k = some (frontier a b d k,(frontier a b d k-k).toNat,
      v.set ((a.length+b.length+1 : ℕ)+k).toNat (frontier a b d k)) := by
  have hset : ((a.length+b.length+1 : ℕ)+k).toNat<v.length := by
    obtain ⟨h1,h2,-⟩:=hk
    rw [hv.length]
    omega
  have hle:=le_entry a b hk
  have heq:=frontier_eq a b hk
  have hentry : asUsize (entry a b d k-k)=(entry a b d k-k).toNat := by
    have hfar:=frontier_le (a:=a) (b:=b) hk
    obtain ⟨h1,h2,-⟩:=hk
    exact asUsize_of_lt (by omega) (by omega)
  have hy : (entry a b d k-k).toNat+slide a b (entry a b d k) (entry a b d k-k).toNat =
      (frontier a b d k-k).toNat := by omega
  rw [visit,enterFrom_eq hv hk hd hsmall,Option.bind_eq_bind,Option.bind_some,hentry,snake_eq (by omega),←heq,hy,
    index_eq hk hd hsmall]
  change (checkedSet v _ _).bind _=_
  rw [checkedSet,if_pos hset,Option.bind_some]

end Depth

theorem onDiagonal_of_mem (h : k∈depthDiagonals d) : OnDiagonal d k := by
  obtain ⟨j,hj,rfl⟩:=mem_map.mp h
  have hlt:=mem_range.mp hj
  exact ⟨by omega,by omega,by omega⟩

theorem mem_of_onDiagonal (h : OnDiagonal d k) : k∈depthDiagonals d := by
  obtain ⟨hlow,hhigh,hpar⟩:=h
  exact mem_map.mpr ⟨((k+d) / 2).toNat,mem_range.mpr (by omega),by omega⟩

/-- Storing a point of depth `d` leaves the entries it is computed from. -/
theorem Stored.set (hv : Stored a b d v) (hk : OnDiagonal d k) (hd : d≤a.length+b.length) (x : ℕ) :
    Stored a b d (v.set ((a.length+b.length+1 : ℕ)+k).toNat x) := by
  refine ⟨by rw [length_set,hv.length],?_⟩
  intro k' hbeside
  obtain ⟨hpar',hlow',hhigh'⟩:=hbeside.parity
  obtain ⟨hlow,hhigh,hpar⟩:=hk
  rw [getElem?_set_ne (by omega),hv.value _ hbeside]

/-- One depth: the end is hit on some diagonal, or the next depth's frontiers are stored. -/
theorem diagonals_spec (hd : d≤a.length+b.length) (hsmall : a.length+b.length<2^62) {ks : List ℤ}
    (hks : ∀k∈ks,OnDiagonal d k) (hv : Stored a b d v) (hdone : ∀k,OnDiagonal d k → k∉ks →
      v[((a.length+b.length+1 : ℕ)+k).toNat]?=some (frontier a b d k) ∧ ¬Hit a b d k) :
    (diagonals a b (a.length+b.length+1) d ks v=some .reached ∧ ∃k,OnDiagonal d k ∧ Hit a b d k) ∨
      ∃next,diagonals a b (a.length+b.length+1) d ks v=some (.frontier next) ∧ Stored a b (d+1) next ∧
        ∀k,OnDiagonal d k→¬Hit a b d k := by
  induction ks generalizing v with
  | nil =>
    refine .inr ⟨v,rfl,⟨hv.length,?_⟩,fun k hk => (hdone k hk not_mem_nil).2⟩
    exact fun k hk => (hdone k hk not_mem_nil).1
  | cons k ks ih =>
    have hk:=hks k mem_cons_self
    have hle:=(reach_frontier (a:=a) (b:=b) hk).1
    rw [diagonals,visit_eq hv hk hd hsmall,Option.bind_eq_bind,Option.bind_some]
    by_cases hhit : Hit a b d k
    · obtain ⟨hx,hy⟩:=hhit
      refine .inl ⟨?_,k,hk,hx,hy⟩
      exact if_pos ⟨hx,by omega⟩
    · have hmiss : ¬(frontier a b d k ≥ a.length ∧ (frontier a b d k-k).toNat ≥ b.length) := by
        rintro ⟨hx,hy⟩
        exact hhit ⟨hx,by omega⟩
      simp only [if_neg hmiss]
      refine ih (fun k' hk' => hks k' (mem_cons_of_mem _ hk')) (hv.set hk hd _) ?_
      intro k' hk' hnot
      by_cases hsame : k'=k
      · rw [hsame]
        obtain ⟨h1,h2,-⟩:=hk
        refine ⟨getElem?_set_self ?_,hhit⟩
        rw [hv.length]
        omega
      · obtain ⟨h1,h2,-⟩:=id hk
        rw [getElem?_set_ne (by omega)]
        refine hdone k' hk' fun hmem => ?_
        rcases mem_cons.mp hmem with h | h
        · exact hsame h
        · exact hnot h

/-- The loop back follows the equal lines that the search went along. -/
theorem unwind_spec (prevX prevY : ℕ) {x y n : ℕ} {out : List Line} (hx : prevX≤x) (hy : prevY≤y)
    (hstop : ¬(x > prevX ∧ y > prevY)) (hequal : ∀j<n,a[x+j]?=b[y+j]? ∧ x+j<a.length)
    (hout : Script (a.drop (x+n)) (b.drop (y+n)) out) :
    ∃script,unwind a prevX prevY (x+n) (y+n) out=some (x,y,script) ∧ Script (a.drop x) (b.drop y) script := by
  induction n generalizing out with
  | zero =>
    refine ⟨out,?_,hout⟩
    cases x with
    | zero => rfl
    | succ x =>
      rw [add_zero y,unwind,if_neg hstop]
  | succ n ih =>
    obtain ⟨heq,hlt⟩:=hequal n (Nat.lt_succ_self n)
    have ha:=getElem?_eq_getElem hlt
    rw [←add_assoc] at hout ⊢
    rw [unwind,if_pos ⟨by omega,by omega⟩,ha]
    exact ih (fun j hj => hequal j (Nat.lt_succ_of_lt hj)) (hout.context ha (heq ▸ ha))

structure Found (a b : List Bytes) (d x y : ℕ) : Prop where
  onDiagonal : OnDiagonal d (x - y)
  frontier : x = EditGraph.frontier a b d (x - y)

def StoredUpTo (a b : List Bytes) (d : ℕ) (stored : List (List ℕ)) : Prop :=
  ∀ e ≤ d, ∃ v, stored[e]? = some v ∧ Stored a b e v

section Back

variable {stored : List (List ℕ)} {x y : ℕ} {out : List Line}

theorem retrace_eq {offset depth prevX x0 y0 : ℕ} {script : List Line} {c : Bool} (hget : stored[depth]?=some v)
    (hdown : comesDown v (asUsize (offset+(x-y : ℤ))) (x-y) depth=some c) (prevK : ℤ)
    (hprevK : prevK=if c=true then (x : ℤ)-y+1 else (x : ℤ)-y-1) (hprev : v[asUsize (offset+prevK)]?=some prevX)
    (hunwind : unwind a prevX (asUsize (prevX-prevK)) x y out=some (x0,y0,script)) :
    retrace a offset stored depth x y out=some (prevX,x0,y0,script) := by
  simp only [retrace,hget,Option.bind_eq_bind,Option.bind_some,hdown,←hprevK,hprev,hunwind]

/-- One turn back: the edit that entered the diagonal is reached, an insertion or a deletion. -/
theorem retrace_spec (hstored : StoredUpTo a b (d+1) stored) (hd : d+1≤a.length+b.length)
    (hsmall : a.length+b.length<2^62) (hfound : Found a b (d+1) x y)
    (hout : Script (a.drop x) (b.drop y) out) : ∃x0 y0 script,Found a b d x0 y0 ∧ x0≤x ∧ y0≤y ∧
      ((y0+1≤y ∧ Script (a.drop x0) (b.drop (y0+1)) script ∧
          retrace a (a.length+b.length+1) stored (d+1) x y out=some (x0,x0,y0+1,script)) ∨
        (x0+1≤x ∧ Script (a.drop (x0+1)) (b.drop y0) script ∧
          retrace a (a.length+b.length+1) stored (d+1) x y out=some (x0,x0+1,y0,script))) := by
  obtain ⟨v,hget,hv⟩:=hstored (d+1) le_rfl
  obtain ⟨k,hkeq⟩ : ∃k : ℤ,k=x - y:=⟨_,rfl⟩
  obtain ⟨hk,hx⟩:=hfound
  rw [←hkeq] at hk hx
  obtain ⟨e,he⟩ : ∃e,e=entry a b (d+1) k:=⟨_,rfl⟩
  obtain ⟨n,hn⟩ : ∃n,n=slide a b e (e - k).toNat:=⟨_,rfl⟩
  have hle:=le_entry a b hk
  have hfront:=frontier_eq a b hk
  have hfar:=frontier_le (a:=a) (b:=b) hk
  rw [←he] at hle hfront
  rw [←hn,←hx] at hfront
  rw [←hx] at hfar
  have hy : y=(e-k).toNat+n := by omega
  have hequal : ∀j<n,a[e+j]?=b[(e-k).toNat+j]? ∧ e+j<a.length := by
    intro j hj
    obtain ⟨h1,h2,h3⟩:=slide_step (hn ▸ hj)
    exact ⟨h3,h1⟩
  rw [hfront,hy] at hout
  have hgetx : ∀j,Beside (d+1) j → -(d+2 : ℤ)≤j → j≤d+2 →
      v[asUsize ((a.length+b.length+1 : ℕ)+j)]?=some (before a b (d+1) j) := by
    intro j hj h1 h2
    rw [asUsize_of_lt (by omega) (by omega),hv.value j hj]
  have hcomes:=comesDown_eq hv hk hd hsmall
  rw [hkeq] at hcomes
  obtain ⟨hlow,hhigh,hpar⟩:=id hk
  rcases entered a b hk with ⟨hdown,hbeside⟩ | ⟨hright,-,hbeside⟩
  · -- an insertion, from the diagonal above
    have hprev : before a b (d+1) (k+1)=e := by rw [he,entry,enter,if_pos hdown]
    have hbefore:=le_before a b (Nat.succ_pos d) hbeside
    rw [hprev] at hbefore
    have husize : asUsize (e-(k+1))=(e-k).toNat-1 := by
      rw [asUsize_of_lt (by omega) (by omega)]
      omega
    obtain ⟨script,hunwind,hscript⟩:=unwind_spec (a:=a) (b:=b) e ((e - k).toNat - 1) (le_refl e) (Nat.sub_le _ _) (fun h => lt_irrefl _ h.1) hequal hout
    have hsucc : (e-k).toNat-1+1=(e-k).toNat := by omega
    refine ⟨e,(e-k).toNat-1,script,⟨?_,?_⟩,by omega,by omega,.inl ⟨by omega,?_,?_⟩⟩
    · have hdiag : (e : ℤ)-((e-k).toNat-1 : ℕ)=k+1 := by omega
      rw [hdiag]
      exact hbeside
    · have hdiag : (e : ℤ)-((e-k).toNat-1 : ℕ)=k+1 := by omega
      rw [hdiag]
      exact hprev.symm
    · rw [hsucc]
      exact hscript
    · rw [hsucc]
      refine retrace_eq hget hcomes (k+1) ?_ (hprev ▸ hgetx _ hbeside (by omega) (by omega)) ?_
      · rw [←hkeq,if_pos (decide_eq_true hdown)]
      · rw [husize,hfront,hy]
        exact hunwind
  · -- a deletion, from the diagonal below
    have hprev : before a b (d+1) (k-1)+1=e := by rw [he,entry,enter,if_neg hright]
    obtain ⟨e,rfl⟩ : ∃e',e=e'+1:=⟨_,hprev.symm⟩
    have hprev:=Nat.succ.inj hprev
    have husize : asUsize (e-(k-1))=((e+1 : ℕ)-k).toNat := by
      rw [asUsize_of_lt (by omega) (by omega)]
      omega
    obtain ⟨script,hunwind,hscript⟩:=unwind_spec (a:=a) (b:=b) e ((e+1 : ℕ) - k).toNat (Nat.le_succ e) le_rfl (fun h => lt_irrefl _ h.2) hequal hout
    refine ⟨e,((e+1 : ℕ)-k).toNat,script,⟨?_,?_⟩,by omega,by omega,.inr ⟨by omega,hscript,?_⟩⟩
    · have hdiag : (e : ℤ)-(((e+1 : ℕ)-k).toNat : ℕ)=k-1 := by omega
      rw [hdiag]
      exact hbeside
    · have hdiag : (e : ℤ)-(((e+1 : ℕ)-k).toNat : ℕ)=k-1 := by omega
      rw [hdiag]
      exact hprev.symm
    · refine retrace_eq hget hcomes (k-1) ?_ (hprev ▸ hgetx _ hbeside (by omega) (by omega)) ?_
      · rw [←hkeq,decide_eq_false hright,if_neg Bool.false_ne_true]
      · rw [husize,hfront,hy]
        exact hunwind

/-- The whole way back. The diagonal of depth 0 is not followed, so the lists must differ at once. -/
theorem traceback_spec (hhead : slide a b 0 0=0) (hstored : StoredUpTo a b d stored) (hd : d≤a.length+b.length)
    (hsmall : a.length+b.length<2^62) (hfound : Found a b d x y) (hx : x≤a.length) (hy : y≤b.length)
    (hout : Script (a.drop x) (b.drop y) out) :
    ∃script,traceback a b (a.length+b.length+1) stored d x y out=some script ∧ Script a b script := by
  induction d generalizing x y out with
  | zero =>
    obtain ⟨⟨hlow,hhigh,-⟩,hfrontier⟩:=hfound
    rw [EditGraph.frontier,hhead] at hfrontier
    obtain rfl : y=0 := by omega
    obtain ⟨v,hget,hv⟩:=hstored 0 (le_refl 0)
    have hk : OnDiagonal 0 ((x : ℤ)-(0 : ℕ)):=⟨hlow,hhigh,by omega⟩
    have hcomes:=comesDown_eq hv hk hd hsmall
    have hone : asUsize ((a.length+b.length+1 : ℕ)+1)=((a.length+b.length+1 : ℕ)+1 : ℤ).toNat :=
      asUsize_of_lt (by omega) (by omega)
    have hretrace : retrace a (a.length+b.length+1) stored 0 x 0 out=some (0,0,0,out) := by
      refine retrace_eq hget hcomes 1 ?_ ?_ ?_
      · rw [if_pos (decide_eq_true (.inl (by omega)))]
        omega
      · rw [hone]
        exact hv.value 1 rfl
      · rw [hfrontier,unwind]
    rw [hfrontier] at hout
    refine ⟨out,?_,hout⟩
    rw [traceback,hretrace]
    rfl
  | succ d ih =>
    obtain ⟨x0,y0,script,hfound',hx0,hy0,⟨hy1,hscript,hretrace⟩ | ⟨hx1,hscript,hretrace⟩⟩ :=
      retrace_spec hstored hd hsmall hfound hout
    · have hb:=getElem?_eq_getElem (show y0<b.length by omega)
      obtain ⟨result,htrace,hresult⟩:=ih (fun e he => hstored e (Nat.le_succ_of_le he)) (Nat.le_of_succ_le hd) hfound'
        (by omega) (by omega) (hscript.added hb)
      refine ⟨result,?_,hresult⟩
      rw [traceback,hretrace]
      simp only [if_true,checkedSub,if_pos (Nat.le_add_left 1 y0),Nat.add_sub_cancel,Option.bind_eq_bind,
        Option.bind_some,hb]
      exact htrace
    · have ha:=getElem?_eq_getElem (show x0<a.length by omega)
      obtain ⟨result,htrace,hresult⟩:=ih (fun e he => hstored e (Nat.le_succ_of_le he)) (Nat.le_of_succ_le hd) hfound'
        (by omega) (by omega) (hscript.removed ha)
      refine ⟨result,?_,hresult⟩
      rw [traceback,hretrace]
      simp only [if_neg (Nat.succ_ne_self x0),checkedSub,if_pos (Nat.le_add_left 1 x0),Nat.add_sub_cancel,
        Option.bind_eq_bind,Option.bind_some,ha]
      exact htrace

end Back

theorem search_spec (hhead : slide a b 0 0=0) {turns : ℕ} (hturns : turns+d=a.length+b.length+1)
    (hv : Stored a b d v) {stored : List (List ℕ)} (hlen : stored.length=d)
    (hstored : ∀e<d,∃v,stored[e]?=some v ∧ Stored a b e v) (hmiss : ∀e<d,∀k,OnDiagonal e k→¬Hit a b e k) :
    ∃script,search a b (2*(a.length+b.length)+3) (a.length+b.length+1) turns d v stored=some script ∧
      Script a b script := by
  induction turns generalizing d v stored with
  | zero =>
    -- the end is hit at the latest when everything is deleted and inserted
    have hreach:=reach_end (a:=a) (b:=b)
    exact absurd hreach.hit (hmiss _ (by omega) _ hreach.onDiagonal)
  | succ turns ih =>
    rw [search]
    split_ifs with hbound
    · exact ⟨_,rfl,script_fallback⟩
    have hsmall : a.length+b.length<2^62 := by
      have hle : 2*(a.length+b.length)+3≤(2*(a.length+b.length)+3)*(d+1):=Nat.le_mul_of_pos_right _ (Nat.succ_pos d)
      omega
    have hd : d≤a.length+b.length := by omega
    have hnow : ∀e≤d,∃w,(stored++[v])[e]?=some w ∧ Stored a b e w := by
      intro e he
      by_cases hlast : e=d
      · refine ⟨v,?_,hlast ▸ hv⟩
        rw [hlast,←hlen,getElem?_concat_length]
      · obtain ⟨w,hw,hstored⟩:=hstored e (by omega)
        refine ⟨w,?_,hstored⟩
        rw [getElem?_append_left (by omega),hw]
    rcases diagonals_spec hd hsmall (fun k => onDiagonal_of_mem) hv (fun k hk hnot => absurd (mem_of_onDiagonal hk) hnot) with
      ⟨hreached,k,hk,hhit⟩ | ⟨next,hnext,hfrontiers,hnone⟩
    · rw [hreached]
      obtain ⟨hx,hkeq⟩:=first_hit hk hhit hmiss
      rw [hkeq] at hk hx
      refine traceback_spec hhead hnow hd hsmall ⟨hk,hx.symm⟩ le_rfl le_rfl ?_
      rw [drop_length,drop_length]
      exact ⟨rfl,rfl⟩
    · rw [hnext]
      refine ih (by omega) hfrontiers (by rw [length_append,hlen]; rfl) (fun e he => hnow e (by omega)) ?_
      intro e he k hk
      by_cases hlast : e=d
      · subst hlast
        exact hnone k hk
      · exact hmiss e (by omega) k hk

theorem myers_spec (hhead : slide a b 0 0=0) : ∃script,myers a b=some script ∧ Script a b script := by
  rw [myers]
  split_ifs with hempty
  · exact ⟨_,rfl,script_fallback⟩
  · refine search_spec (d := 0) hhead (add_zero _) ⟨length_replicate,?_⟩ rfl (fun _ h => absurd h (Nat.not_lt_zero _))
      (fun _ h => absurd h (Nat.not_lt_zero _))
    intro k hk
    have hone : k=1:=hk
    rw [getElem?_replicate,if_pos (by omega)]
    rfl

/-- A line of a text: only its last byte may be a newline. -/
def IsLine (line : Bytes) : Prop := ∃ body : Bytes, 0x0a ∉ body ∧ (line = body ++ [0x0a] ∨ line = body ∧ body ≠ [])

theorem isLine_of_mem_split {text line : Bytes} (h : line∈splitInclusive text) : IsLine line := by
  induction text generalizing line with
  | nil => exact absurd h not_mem_nil
  | cons byte rest ih =>
    rw [splitInclusive] at h
    split_ifs at h with hbyte
    · rcases mem_cons.mp h with rfl | h
      · exact ⟨[],not_mem_nil,.inl (by rw [hbyte]; rfl)⟩
      · exact ih h
    cases hrest : splitInclusive rest with
    | nil =>
      simp only [hrest,mem_singleton] at h
      refine ⟨[byte],?_,.inr ⟨h,cons_ne_nil _ _⟩⟩
      rw [mem_singleton]
      exact fun h => hbyte h.symm
    | cons first others =>
      simp only [hrest,mem_cons] at h
      rcases h with rfl | h
      · obtain ⟨body,hbody,hline⟩:=@ih first (by rw [hrest]; exact mem_cons_self)
        refine ⟨byte::body,?_,?_⟩
        · rw [mem_cons]
          rintro (h | h)
          · exact hbyte h.symm
          · exact hbody h
        · rcases hline with rfl | ⟨rfl,-⟩
          · exact .inl rfl
          · exact .inr ⟨rfl,cons_ne_nil _ _⟩
      · exact ih (by rw [hrest]; exact mem_cons_of_mem _ h)

theorem flatten_splitInclusive (text : Bytes) : (splitInclusive text).flatten=text := by
  induction text with
  | nil => rfl
  | cons byte rest ih =>
    rw [splitInclusive]
    split_ifs with hbyte
    · rw [flatten_cons,ih]
      rfl
    · cases hrest : splitInclusive rest with
      | nil =>
        rw [hrest] at ih
        simp [←ih]
      | cons first others =>
        rw [hrest] at ih
        simp [←ih]

/-- The filter of empty lines does nothing. -/
theorem filter_splitInclusive (text : Bytes) : (splitInclusive text).filter (·≠[])=splitInclusive text := by
  refine filter_eq_self.mpr fun line hline => decide_eq_true ?_
  obtain ⟨body,-,rfl | ⟨rfl,hne⟩⟩:=isLine_of_mem_split hline
  · exact concat_ne_nil _ _
  · exact hne

theorem countEqual_eq (a b : List Bytes) : countEqual a b=common a b := by
  induction a generalizing b with
  | nil => rfl
  | cons x a ih =>
    cases b with
    | nil => rfl
    | cons y b =>
      rw [common,countEqual,zip_cons_cons,takeWhile_cons]
      split_ifs with h1 h2 h2
      · rw [length_cons,←ih,countEqual]
      · exact absurd (of_decide_eq_true h1) h2
      · exact absurd (decide_eq_true h2) h1
      · rfl

/-- Between the common first and last lines the lists differ at once. -/
theorem slide_between (a b : List Bytes) (m n : ℕ) :
    slide ((a.drop (common a b)).take m) ((b.drop (common a b)).take n) 0 0=0 := by
  by_contra hne
  obtain ⟨hx,hy,heq⟩:=slide_step (Nat.pos_of_ne_zero hne)
  rw [length_take,length_drop] at hx hy
  rw [getElem?_take_of_lt (by omega),getElem?_take_of_lt (by omega),getElem?_drop,getElem?_drop] at heq
  exact common_stuck a b (by omega) (by omega) heq

theorem lines_spec (old new : Bytes) :
    ∃script,lines old new=some script ∧ Script (splitInclusive old) (splitInclusive new) script := by
  obtain ⟨a,ha⟩ : ∃a,a=splitInclusive old:=⟨_,rfl⟩
  obtain ⟨b,hb⟩ : ∃b,b=splitInclusive new:=⟨_,rfl⟩
  obtain ⟨head,hhead⟩ : ∃head,head=common a b:=⟨_,rfl⟩
  obtain ⟨tail,htail⟩ : ∃tail,tail=common (a.drop head).reverse (b.drop head).reverse:=⟨_,rfl⟩
  have hheads:=common_le a b
  have htails:=common_le (a.drop head).reverse (b.drop head).reverse
  rw [length_reverse,length_reverse,length_drop,length_drop] at htails
  rw [←hhead] at hheads
  rw [←htail] at htails
  -- the parts of both lists
  have hfirst : a.take head=b.take head := by rw [hhead,take_common]
  have hlast : (a.drop head).drop (a.length-tail-head)=(b.drop head).drop (b.length-tail-head) := by
    have hrev:=take_common (a.drop head).reverse (b.drop head).reverse
    rw [←htail,take_reverse,take_reverse,reverse_inj,length_drop,length_drop] at hrev
    rw [show a.length-tail-head=a.length-head-tail by omega,
      show b.length-tail-head=b.length-head-tail by omega]
    exact hrev
  have hdiffer:=slide_between a b (a.length-tail-head) (b.length-tail-head)
  rw [←hhead] at hdiffer
  obtain ⟨middle,hmyers,hmiddle⟩:=myers_spec hdiffer
  have hslice : ∀(xs : List Bytes),head≤xs.length → checkedSlice xs head xs.length=some (xs.drop head) := by
    intro xs hle
    rw [checkedSlice,if_pos ⟨hle,le_rfl⟩,take_of_length_le (by rw [length_drop])]
  have hbetween : ∀(xs : List Bytes),tail≤xs.length-head → head≤xs.length →
      checkedSlice xs head (xs.length-tail)=some ((xs.drop head).take (xs.length-tail-head)) := by
    intro xs h1 h2
    exact if_pos ⟨by omega,by omega⟩
  have hsub : ∀(xs : List Bytes),tail≤xs.length-head → checkedSub xs.length tail=some (xs.length-tail) := by
    intro xs h1
    exact if_pos (by omega)
  have hbegin : checkedSlice a 0 head=some (a.take head):=if_pos ⟨Nat.zero_le _,hheads.1⟩
  have hend : checkedSlice a (a.length-tail) a.length=some ((a.drop head).drop (a.length-tail-head)) := by
    rw [checkedSlice,if_pos ⟨Nat.sub_le _ _,le_rfl⟩,drop_drop,take_of_length_le (by rw [length_drop])]
    congr 2
    omega
  refine ⟨(a.take head).map (⟨.context,·⟩)++middle++((a.drop head).drop (a.length-tail-head)).map (⟨.context,·⟩),
    ?_,?_,?_⟩
  · rw [lines,filter_splitInclusive,filter_splitInclusive,←ha,←hb]
    simp only [countEqual_eq,←hhead,hslice a hheads.1,hslice b hheads.2,Option.bind_eq_bind,Option.bind_some,←htail,
      hbegin,hsub a htails.1,hsub b htails.2,hbetween a htails.1 hheads.1,hbetween b htails.2 hheads.2,hmyers,hend]
  · rw [oldLines_append,oldLines_append,oldLines_tagged,oldLines_tagged,if_neg (by decide),if_neg (by decide),hmiddle.old,
      append_assoc,take_append_drop,take_append_drop,ha]
  · rw [newLines_append,newLines_append,newLines_tagged,newLines_tagged,if_neg (by decide),if_neg (by decide),hmiddle.new,hfirst,
      hlast,append_assoc,take_append_drop,take_append_drop,hb]

/-- Every text of the script is a line of one of the texts. -/
theorem isLine_of_script {old new : Bytes} (h : Script (splitInclusive old) (splitInclusive new) script) :
    ∀line∈script,IsLine line.text := by
  intro line hline
  by_cases htag : line.tag = .added
  · refine @isLine_of_mem_split new _ ?_
    rw [←h.new]
    exact mem_map_of_mem (mem_filter.mpr ⟨hline,by rw [htag]; rfl⟩)
  · refine @isLine_of_mem_split old _ ?_
    rw [←h.old]
    exact mem_map_of_mem (mem_filter.mpr ⟨hline,decide_eq_true htag⟩)

end Ratarmount.Patch
