import Mathlib.Data.List.Basic
import Mathlib.Tactic.Linarith

/-!
# Concatenated members

Inputs that are decoded member after member, cut into parts at the places where a
member's head is found, and a map whose results are computed by several workers.
-/

namespace Ratarmount.Members

open List

variable {α β γ : Type}

/-- Decodes the member at the start of the input: its content and its length. -/
abbrev Decoder (α β : Type) := List α → Option (β × ℕ)

/-- A member begins with a head, and the decoder looks at nothing behind the member. -/
structure Lawful (isHead : List α → Bool) (decode : Decoder α β) : Prop where
  length : ∀ {s d n}, decode s = some (d,n) → 0 < n ∧ n ≤ s.length
  head : ∀ {s d n}, decode s = some (d,n) → isHead s = true
  agree : ∀ {s t d n}, decode s = some (d,n) → s.take n <+: t → decode t = some (d,n)

section Sequential

variable (decode : Decoder α β)

/-- The contents of the members one after another, up to the first place where there is none. -/
def sequential : ℕ → List α → List β
  | 0, _ => []
  | turns + 1, s =>
    match decode s with
    | none => []
    | some (d,n) => d :: sequential turns (s.drop n)

def cut (c : List α) : List ℕ → List (List α)
  | start :: stop :: stops => (c.drop start).take (stop - start) :: cut c (stop :: stops)
  | _ => []

def contents (parts : List (List α)) : List β := parts.filterMap fun part => (decode part).map Prod.fst

/-- The contents of the parts behind the first one that is longer than its member. -/
def behindGap : List (List α) → List β
  | [] => []
  | part :: parts =>
    match decode part with
    | none => []
    | some (_,n) => if n = part.length then behindGap parts else contents decode parts

variable {decode} {isHead : List α → Bool}

theorem Lawful.nil (h : Lawful isHead decode) : decode []=none := by
  cases hd : decode [] with
  | none => rfl
  | some r =>
    obtain ⟨hpos,hle⟩:=h.length hd
    rw [length_nil] at hle
    omega

/-- The parts between all heads hold the members that are decoded one after another, up to the first part that is
longer than its member. -/
theorem contents_cut (h : Lawful isHead decode) {c : List α} {m : ℕ} {ms : List ℕ} (hsorted : (m::ms).Pairwise (·<·))
    (hlast : (m::ms).getLast?=some c.length) (hheads : ∀p,m<p → isHead (c.drop p)=true → p∈ms)
    (hparts : ∀part∈cut c (m::ms),(decode part).isSome) {turns : ℕ} (hturns : c.length<turns+m) :
    contents decode (cut c (m::ms))=sequential decode turns (c.drop m)++behindGap decode (cut c (m::ms)) := by
  induction ms generalizing m turns with
  | nil =>
    obtain rfl : m=c.length:=Option.some.inj hlast
    have hnone : sequential decode turns (c.drop c.length)=[] := by
      rw [drop_length]
      cases turns with
      | zero => rfl
      | succ turns => rw [sequential,h.nil]
    rw [hnone]
    rfl
  | cons stop stops ih =>
    obtain ⟨hbehind,hsorted⟩:=pairwise_cons.mp hsorted
    have hlt:=hbehind stop mem_cons_self
    have hstop : stop ≤ c.length := by
      obtain ⟨hfirst,-⟩:=pairwise_cons.mp hsorted
      rw [getLast?_cons_cons] at hlast
      rcases mem_cons.mp (mem_of_getLast? hlast) with hmem | hmem
      · omega
      · exact le_of_lt (hfirst _ hmem)
    obtain ⟨turns,rfl⟩ : ∃t,turns=t+1:=⟨turns - 1,by omega⟩
    obtain ⟨part,hpart⟩ : ∃part,part=(c.drop m).take (stop - m):=⟨_,rfl⟩
    have hlen : part.length=stop-m := by
      rw [hpart,length_take,length_drop]
      omega
    rw [cut,←hpart] at hparts ⊢
    obtain ⟨⟨d,n⟩,hdecode⟩:=Option.isSome_iff_exists.mp (hparts part mem_cons_self)
    obtain ⟨hn,hle⟩:=h.length hdecode
    have hwhole : decode (c.drop m)=some (d,n) := by
      refine h.agree hdecode ?_
      rw [hpart,take_take]
      exact take_prefix _ _
    rw [contents,filterMap_cons,sequential,hwhole,behindGap,hdecode]
    dsimp only [Option.map_some]
    rw [drop_drop]
    split_ifs with hgap
    · -- the next part begins where the member ends
      rw [show m+n=stop by omega]
      refine congrArg (d::·) (ih hsorted ?_ ?_ (fun p hp => hparts p (mem_cons_of_mem _ hp)) (by omega))
      · rwa [getLast?_cons_cons] at hlast
      · intro p hp hhead
        rcases mem_cons.mp (hheads p (by omega) hhead) with hmem | hmem
        · omega
        · exact hmem
    · -- there is no head behind the member
      have hstuck : decode (c.drop (m+n))=none := by
        cases hd : decode (c.drop (m+n)) with
        | none => rfl
        | some r =>
          have hmem:=hheads (m+n) (by omega) (h.head hd)
          obtain ⟨hfirst,-⟩:=pairwise_cons.mp hsorted
          rcases mem_cons.mp hmem with hmem | hmem
          · omega
          · have hlater:=hfirst _ hmem
            omega
      have hend : sequential decode turns (c.drop (m+n))=[] := by
        cases turns with
        | zero => rfl
        | succ turns => rw [sequential,hstuck]
      rw [hend]
      rfl

end Sequential

section Workers

def chunks (n : ℕ) : ℕ → List α → List (List α)
  | 0, _ => []
  | turns + 1, xs => if xs = [] then [] else xs.take n :: chunks n turns (xs.drop n)

def store (results : List (Option γ)) (base : ℕ) : List γ → List (Option γ)
  | [] => results
  | r :: rs => store (results.set base (some r)) (base + 1) rs

def collect (f : α → γ) (chunk : ℕ) : List (List α) → ℕ → List (Option γ) → List (Option γ)
  | [], _, results => results
  | part :: parts, worker, results => collect f chunk parts (worker + 1) (store results (worker * chunk) (part.map f))

def parallelMap (f : α → γ) (threads : ℕ) (xs : List α) : List (Option γ) :=
  let workers := max (min threads xs.length) 1
  let chunk := max ((xs.length + workers - 1) / workers) 1
  collect f chunk (chunks chunk xs.length xs) 0 (List.replicate xs.length none)

theorem store_eq (done rs : List γ) (k : ℕ) :
    store (done.map some++List.replicate (rs.length+k) none) done.length rs =
      (done++rs).map some++List.replicate k none := by
  induction rs generalizing done with
  | nil => rw [store,append_nil,length_nil,zero_add]
  | cons r rs ih =>
    have hset : (done.map some++List.replicate ((r::rs).length+k) none).set done.length (some r) =
        (done++[r]).map some++List.replicate (rs.length+k) none := by
      rw [length_cons,show rs.length+1+k=rs.length+k+1 by omega,replicate_succ,
        set_append_right _ _ (by rw [length_map]),length_map,Nat.sub_self,set_cons_zero,map_append,
        append_assoc]
      rfl
    have hih:=ih (done++[r])
    rw [length_append,length_singleton,append_assoc] at hih
    rw [store,hset,hih]
    rfl

/-- However many workers there are, every result lands at its place. -/
theorem parallelMap_eq (f : α → γ) (threads : ℕ) (xs : List α) : parallelMap f threads xs=(xs.map f).map some := by
  have hrun : ∀(chunk : ℕ),0<chunk→∀(turns : ℕ) (rest : List α) (worker : ℕ) (done : List α),
      rest.length≤turns→(rest≠[] → done.length=worker*chunk) →
      collect f chunk (chunks chunk turns rest) worker ((done.map f).map some++List.replicate rest.length none) =
        ((done++rest).map f).map some := by
    intro chunk hchunk turns
    induction turns with
    | zero =>
      intro rest worker done hle _
      obtain rfl : rest=[]:=length_eq_zero_iff.mp (Nat.le_zero.mp hle)
      simp [chunks,collect]
    | succ turns ih =>
      intro rest worker done hle hbase
      by_cases hrest : rest=[]
      · simp [chunks,collect,hrest]
      · have hstore:=store_eq (done.map f) ((rest.take chunk).map f) (rest.drop chunk).length
        have hlen : ((rest.take chunk).map f).length+(rest.drop chunk).length=rest.length := by
          rw [length_map,length_take,length_drop]
          omega
        rw [hlen,length_map,hbase hrest] at hstore
        rw [chunks,if_neg hrest,collect,hstore,←map_append]
        have hnext:=ih (rest.drop chunk) (worker+1) (done++rest.take chunk) (by
            rw [length_drop]
            omega) (by
            intro hmore
            have hlonger:=length_pos_iff.mpr hmore
            rw [length_drop] at hlonger
            rw [length_append,length_take,hbase hrest,add_mul]
            omega)
        rw [append_assoc,take_append_drop] at hnext
        exact hnext
  exact hrun _ (lt_of_lt_of_le Nat.zero_lt_one (le_max_right _ _)) xs.length xs 0 [] le_rfl
    (fun _ => (zero_mul _).symm)

end Workers

end Ratarmount.Members
