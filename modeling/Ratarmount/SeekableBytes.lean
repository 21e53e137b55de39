import Mathlib.Algebra.Group.Int.Defs
import Mathlib.Algebra.Group.Nat.Defs
import Mathlib.Data.Int.Basic
import Mathlib.Data.List.Basic
import Mathlib.Tactic.SplitIfs

/-!
# Seekable byte arrays

What a reader over a byte array may answer to seeks and reads, and the rule that
carries a step invariant of a reader to all its runs.
-/

namespace Ratarmount.Seekable

open List

inductive SeekFrom
  | start (offset : ℕ)
  | fromEnd (offset : ℤ)
  | current (offset : ℤ)

inductive Call
  | seek (dest : SeekFrom)
  | read (n : ℕ)

inductive Reply
  | moved (pos : ℕ)
  | bytes (data : List UInt8)
  | error
  deriving DecidableEq

def checkedOffset (n : ℤ) : Option ℕ := if 0 ≤ n ∧ n < 2 ^ 64 then some n.toNat else none

/-- A call whose offset is a `u64` or an `i64`. -/
def Call.Fits : Call → Prop
  | .seek (.start offset) => offset < 2 ^ 64
  | .seek (.fromEnd offset) => -2 ^ 63 ≤ offset ∧ offset < 2 ^ 63
  | .seek (.current offset) => -2 ^ 63 ≤ offset ∧ offset < 2 ^ 63
  | .read _ => True

def SeekFrom.target (size pos : ℕ) : SeekFrom → Option ℕ
  | .start offset => some offset
  | .fromEnd offset => checkedOffset (size + offset)
  | .current offset => checkedOffset (pos + offset)

/-- How many bytes a read of `n` at a position delivers: some of those asked for, if there are any. -/
structure Chunking (size : ℕ) where
  chunk : ℕ → ℕ → ℕ
  le_asked : ∀ pos n, chunk pos n ≤ n
  pos_of_lt : ∀ pos n, n ≠ 0 → pos < size → 0 < chunk pos n
  le_size : ∀ pos n, pos + chunk pos n ≤ max pos size

/-- A call at `pos` that is answered so and leaves the reader at `pos'`. An error leaves the position. -/
def Obeys (data : List UInt8) (c : Chunking data.length) (pos : ℕ) (call : Call) (reply : Reply) (pos' : ℕ) : Prop :=
  match call, reply with
  | _, .error => pos' = pos
  | .seek dest, .moved p => dest.target data.length pos = some p ∧ pos' = p
  | .read n, .bytes out => out = (data.drop pos).take (c.chunk pos n) ∧ pos' = pos + out.length
  | _, _ => False

/-- The calls of a run with their replies and the positions after them. -/
def RunObeys (data : List UInt8) (c : Chunking data.length) : ℕ → List (Call × Reply × ℕ) → Prop
  | _, [] => True
  | pos, (call,reply,pos') :: rest => Obeys data c pos call reply pos' ∧ RunObeys data c pos' rest

/-- As `Obeys`, for a reader whose pieces depend on its state: a read never fails, and delivers some of the bytes
asked for if there are any. -/
def Answers (data : List UInt8) (pos : ℕ) (call : Call) (reply : Reply) (pos' : ℕ) : Prop :=
  match call, reply with
  | .seek _, .error => pos' = pos
  | .seek dest, .moved p => dest.target data.length pos = some p ∧ pos' = p
  | .read n, .bytes out =>
    out <+: data.drop pos ∧ out.length ≤ n ∧ (0 < n → pos < data.length → out ≠ []) ∧ pos' = pos + out.length
  | _, _ => False

section RunsWell

variable {σ : Type} (step : σ → Call → σ × Reply) (pos : σ → ℕ) (data : List UInt8) (Q : σ → Prop)

/-- Every call of the run is answered from `data`, and leaves a state with `Q`. -/
def RunsWell : σ → List Call → Prop
  | _, [] => True
  | s, call :: calls =>
    Answers data (pos s) call (step s call).2 (pos (step s call).1) ∧ Q (step s call).1 ∧
      RunsWell (step s call).1 calls

variable {step pos data Q}

/-- A step invariant for calls of one kind carries over to all their runs. -/
theorem runsWell_of {Inv : σ → Prop} {P : Call → Prop} (hstep : ∀s call,P call → Inv s →
      Inv (step s call).1 ∧ Answers data (pos s) call (step s call).2 (pos (step s call).1))
    (hQ : ∀s,Inv s → Q s) {calls : List Call} (hcalls : ∀call∈calls,P call) {s : σ} (hs : Inv s) :
    RunsWell step pos data Q s calls := by
  induction calls generalizing s with
  | nil => trivial
  | cons call calls ih =>
    obtain ⟨hinv,hanswers⟩:=hstep s call (hcalls call mem_cons_self) hs
    exact ⟨hanswers,hQ _ hinv,ih (fun c hc => hcalls c (mem_cons_of_mem _ hc)) hinv⟩

end RunsWell

def asI64 (n : ℕ) : ℤ := Int.bmod n (2 ^ 64)

/-- Where a seek goes in the wrapping arithmetic of `i64`; a negative result is refused. -/
def seekTarget (size pos : ℕ) : SeekFrom → ℤ
  | .start o => asI64 o
  | .fromEnd o => Int.bmod (asI64 size + o) (2 ^ 64)
  | .current o => Int.bmod (asI64 pos + o) (2 ^ 64)

/-- A sum that an `i64` does not hold wraps to a negative number. -/
theorem bmod_nonneg {x : ℤ} (hlow : -2^63≤x) (hhigh : x<2^64) (h : 0≤Int.bmod x (2^64)) :
    Int.bmod x (2^64)=x ∧ 0≤x ∧ x<2^63 := by
  rw [Int.bmod] at h ⊢
  split_ifs at h ⊢ <;> omega

theorem asI64_of_lt {n : ℕ} (h : n<2^63) : asI64 n=n := by
  unfold asI64
  rw [Int.bmod]
  split_ifs <;> omega

/-- A seek that is not refused goes where it should. -/
theorem seekTarget_spec {size pos : ℕ} (hsize : size<2^63) (hpos : pos<2^63) {dest : SeekFrom}
    (hfits : (Call.seek dest).Fits) (hnew : 0 ≤ seekTarget size pos dest) :
    dest.target size pos=some (seekTarget size pos dest).toNat ∧ (seekTarget size pos dest).toNat<2^63 := by
  have hchecked : ∀x : ℤ,0≤x ∧ x<2^63 → checkedOffset x=some x.toNat ∧ x.toNat<2^63 := by
    intro x hx
    exact ⟨if_pos (by omega),by omega⟩
  cases dest with
  | start o =>
    have ho : o<2^64:=hfits
    obtain ⟨heq,h0,hlt⟩:=@bmod_nonneg o (by omega) (by omega) hnew
    have htarget : seekTarget size pos (.start o)=o:=heq
    rw [htarget]
    exact ⟨rfl,by omega⟩
  | fromEnd o =>
    obtain ⟨hlow,hhigh⟩ : -2^63≤o ∧ o<2^63:=hfits
    rw [seekTarget,asI64_of_lt hsize] at hnew ⊢
    obtain ⟨heq,hx⟩:=bmod_nonneg (by omega) (by omega) hnew
    rw [heq]
    exact hchecked _ hx
  | current o =>
    obtain ⟨hlow,hhigh⟩ : -2^63≤o ∧ o<2^63:=hfits
    rw [seekTarget,asI64_of_lt hpos] at hnew ⊢
    obtain ⟨heq,hx⟩:=bmod_nonneg (by omega) (by omega) hnew
    rw [heq]
    exact hchecked _ hx

section Run

variable {σ ε : Type} (step : σ → Call → ε → σ × Reply) (pos : σ → ℕ)

/-- A run, each call with what the environment does during it. -/
def run : σ → List (Call × ε) → List (Call × Reply × ℕ)
  | _, [] => []
  | s, (call,e) :: calls => (call,(step s call e).2,pos (step s call e).1) :: run (step s call e).1 calls

theorem run_obeys {data : List UInt8} {c : Chunking data.length} {Inv : σ → Prop} {P : Call → Prop}
    (hstep : ∀s call e,P call → Inv s →
      Inv (step s call e).1 ∧ Obeys data c (pos s) call (step s call e).2 (pos (step s call e).1))
    (calls : List (Call × ε)) (hcalls : ∀x∈calls,P x.1) {s : σ} (hs : Inv s) :
    RunObeys data c (pos s) (run step pos s calls) := by
  induction calls generalizing s with
  | nil => trivial
  | cons x calls ih =>
    obtain ⟨hinv,hobeys⟩:=hstep s x.1 x.2 (hcalls x mem_cons_self) hs
    exact ⟨hobeys,ih (fun y hy => hcalls y (mem_cons_of_mem _ hy)) hinv⟩

end Run

end Ratarmount.Seekable
