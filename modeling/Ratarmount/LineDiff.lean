import Ratarmount.ByteFields
import Ratarmount.EditGraph

/-!
# The edit script of two texts

The line diff of `overlay diff`: Myers' search over stored frontiers and the trace
back through them, between the common first and last lines. An index out of range
and an unsigned subtraction below zero are `none`.
-/

namespace Ratarmount.Patch

inductive Tag
  | context
  | removed
  | added
  deriving DecidableEq

structure Line where
  tag : Tag
  text : Bytes
  deriving DecidableEq

/-- The pieces of the text, each with the newline that ends it. -/
def splitInclusive : Bytes → List Bytes
  | [] => []
  | byte :: rest =>
    if byte = 0x0a then [byte] :: splitInclusive rest
    else
      match splitInclusive rest with
      | [] => [[byte]]
      | line :: lines => (byte :: line) :: lines

def asUsize (z : ℤ) : ℕ := (z % 2 ^ 64).toNat

def checkedSub (m n : ℕ) : Option ℕ := if n ≤ m then some (m - n) else none

def checkedSet {α : Type} (xs : List α) (i : ℕ) (x : α) : Option (List α) :=
  if i < xs.length then some (xs.set i x) else none

def checkedSlice {α : Type} (xs : List α) (i j : ℕ) : Option (List α) :=
  if i ≤ j ∧ j ≤ xs.length then some ((xs.drop i).take (j - i)) else none

section Search

variable (a b : List Bytes)

def fallback : List Line := a.map (⟨.removed,·⟩) ++ b.map (⟨.added,·⟩)

/-- If the diagonal `k` is entered from the next one, by an insertion. -/
def comesDown (v : List ℕ) (i : ℕ) (k : ℤ) (d : ℕ) : Option Bool :=
  if k = -d then some true
  else if k = d then some false
  else do
    let left ← v[← checkedSub i 1]?
    let right ← v[i + 1]?
    some (left < right)

def enterFrom (v : List ℕ) (i : ℕ) (k : ℤ) (d : ℕ) : Option ℕ := do
  if ← comesDown v i k d then v[i + 1]? else (v[← checkedSub i 1]?).map (· + 1)

def snake : ℕ → ℕ → ℕ → ℕ × ℕ
  | 0, x, y => (x,y)
  | turns + 1, x, y => if x < a.length ∧ y < b.length ∧ a[x]? = b[y]? then snake turns (x + 1) (y + 1) else (x,y)

def visit (offset d : ℕ) (v : List ℕ) (k : ℤ) : Option (ℕ × ℕ × List ℕ) := do
  let i := asUsize (offset + k)
  let x ← enterFrom v i k d
  let (x,y) := snake a b a.length x (asUsize (x - k))
  let v ← checkedSet v i x
  some (x,y,v)

inductive Depth
  | reached
  | frontier (v : List ℕ)

def diagonals (offset d : ℕ) : List ℤ → List ℕ → Option Depth
  | [], v => some (.frontier v)
  | k :: ks, v => do
    let (x,y,v) ← visit a b offset d v k
    if x ≥ a.length ∧ y ≥ b.length then some .reached else diagonals offset d ks v

def depthDiagonals (d : ℕ) : List ℤ := (List.range (d + 1)).map fun j : ℕ => 2 * (j : ℤ) - d

/-- The loop back along equal lines. The script is built from its end. -/
def unwind (prevX prevY : ℕ) : ℕ → ℕ → List Line → Option (ℕ × ℕ × List Line)
  | 0, y, out => some (0,y,out)
  | x + 1, y, out =>
    if x + 1 > prevX ∧ y > prevY then do
      let text ← a[x]?
      unwind prevX prevY x (y - 1) (⟨.context,text⟩ :: out)
    else some (x + 1,y,out)

def retrace (offset : ℕ) (stored : List (List ℕ)) (depth x y : ℕ) (out : List Line) :
    Option (ℕ × ℕ × ℕ × List Line) := do
  let k : ℤ := x - y
  let previous ← stored[depth]?
  let prevK := if ← comesDown previous (asUsize (offset + k)) k depth then k + 1 else k - 1
  let prevX ← previous[asUsize (offset + prevK)]?
  let (x,y,out) ← unwind a prevX (asUsize (prevX - prevK)) x y out
  some (prevX,x,y,out)

def traceback (offset : ℕ) (stored : List (List ℕ)) : ℕ → ℕ → ℕ → List Line → Option (List Line)
  | 0, x, y, out => do
    let (_,_,_,out) ← retrace a offset stored 0 x y out
    some out
  | depth + 1, x, y, out => do
    let (prevX,x,y,out) ← retrace a offset stored (depth + 1) x y out
    if x = prevX then
      let y ← checkedSub y 1
      let text ← b[y]?
      traceback offset stored depth x y (⟨.added,text⟩ :: out)
    else
      let x ← checkedSub x 1
      let text ← a[x]?
      traceback offset stored depth x y (⟨.removed,text⟩ :: out)

/-- The loop over the depths. Behind the last one the source has `unreachable!`. -/
def search (width offset : ℕ) : ℕ → ℕ → List ℕ → List (List ℕ) → Option (List Line)
  | 0, _, _, _ => none
  | turns + 1, d, v, stored =>
    if width * (d + 1) > 4000000 then some (fallback a b)
    else do
      match ← diagonals a b offset d (depthDiagonals d) v with
      | .reached => traceback a b offset (stored ++ [v]) d a.length b.length []
      | .frontier next => search width offset turns (d + 1) next (stored ++ [v])

def myers : Option (List Line) :=
  if a = [] ∨ b = [] then some (fallback a b)
  else
    let max := a.length + b.length
    let width := 2 * max + 3
    search a b width (max + 1) (max + 1) 0 (List.replicate width 0) []

end Search

def countEqual (a b : List Bytes) : ℕ := ((a.zip b).takeWhile fun pair => pair.1 = pair.2).length

def lines (old new : Bytes) : Option (List Line) := do
  let a := (splitInclusive old).filter (· ≠ [])
  let b := (splitInclusive new).filter (· ≠ [])
  let head := countEqual a b
  let tail := countEqual (← checkedSlice a head a.length).reverse (← checkedSlice b head b.length).reverse
  let first ← checkedSlice a 0 head
  let middle ← myers (← checkedSlice a head (← checkedSub a.length tail)) (← checkedSlice b head (← checkedSub b.length tail))
  let last ← checkedSlice a (← checkedSub a.length tail) a.length
  some (first.map (⟨.context,·⟩) ++ middle ++ last.map (⟨.context,·⟩))

end Ratarmount.Patch
