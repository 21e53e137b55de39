import Ratarmount.Utf8Text
import Mathlib.Data.Nat.Digits.Lemmas

/-!
# Numerals

Unsigned numbers in text: digits of a base up to ten, most significant first,
written without a sign and read with an optional `+`, below a given bound.
-/

namespace Ratarmount

open List

namespace Numeral

def digitChar (d : ℕ) : Char := Char.ofNat (48 + d)

def digitOf (base : ℕ) (c : Char) : Option ℕ :=
  if 48 ≤ c.toNat ∧ c.toNat - 48 < base then some (c.toNat - 48) else none

/-- Least significant digit first; the number is fuel enough for its own digits. -/
def digits (base : ℕ) : ℕ → ℕ → List ℕ
  | 0, _ => []
  | fuel + 1, n => if n = 0 then [] else n % base :: digits base fuel (n / base)

def text (base n : ℕ) : Str :=
  if n = 0 then ['0'] else (digits base n n).reverse.map digitChar

def value (base : ℕ) (ds : List ℕ) : ℕ := ds.foldl (fun v d => v * base + d) 0

def dropPlus : Str → Str
  | '+' :: d :: rest => d :: rest
  | s => s

/-- `from_str_radix` for an unsigned type that holds the numbers below `bound`. -/
def parse (base bound : ℕ) (s : Str) : Option ℕ := do
  let body := dropPlus s
  if body = [] then none
  let ds ← body.mapM (digitOf base)
  if value base ds < bound then some (value base ds) else none

variable {base : ℕ}

variable {n d bound : ℕ} {ds : List ℕ}

theorem digits_eq (hb : 2≤base) {fuel : ℕ} (h : n≤fuel) : digits base fuel n=Nat.digits base n := by
  induction fuel generalizing n with
  | zero =>
    have hn : n=0 := by omega
    simp [digits,hn]
  | succ fuel ih =>
    rw [digits]
    split_ifs with hn
    · simp [hn]
    · have hlt : n / base<n:=Nat.div_lt_self (by omega) (by omega)
      rw [Nat.digits_def' (by omega) (by omega),ih (by omega)]

theorem value_reverse (ds : List ℕ) : value base ds.reverse=Nat.ofDigits base ds := by
  rw [value,foldl_reverse]
  induction ds with
  | nil => rfl
  | cons d ds ih => rw [foldr_cons,ih,Nat.ofDigits_cons,mul_comm,add_comm]

theorem value_zeros (k : ℕ) (ds : List ℕ) : value base (List.replicate k 0++ds)=value base ds := by
  induction k with
  | zero => rfl
  | succ k ih => simpa [value,replicate_succ] using ih

def textDigits (base n : ℕ) : List ℕ := if n = 0 then [0] else (digits base n n).reverse

theorem text_eq (n : ℕ) : text base n=(textDigits base n).map digitChar := by
  rw [text,textDigits]
  split_ifs <;> rfl

theorem value_textDigits (hb : 2≤base) (n : ℕ) : value base (textDigits base n)=n := by
  rw [textDigits]
  split_ifs with hn
  · simp [value,hn]
  · rw [value_reverse,digits_eq hb (le_refl n),Nat.ofDigits_digits]

theorem textDigits_lt (hb : 2≤base) (hd : d∈textDigits base n) : d<base := by
  rw [textDigits] at hd
  split_ifs at hd
  · have h0 : d=0 := by simpa using hd
    omega
  · rw [mem_reverse,digits_eq hb (le_refl n)] at hd
    exact Nat.digits_lt_base (by omega) hd

theorem textDigits_ne_nil (hb : 2≤base) (n : ℕ) : textDigits base n≠[] := by
  rw [textDigits]
  split_ifs with hn
  · simp
  · rw [digits_eq hb (le_refl n)]
    simpa [Nat.digits_eq_nil_iff_eq_zero] using hn

theorem toNat_digitChar (hd : d<10) : (digitChar d).toNat=48+d := by
  have hvalid : (48+d).isValidChar:=Or.inl (by omega)
  unfold digitChar Char.ofNat
  rw [dif_pos hvalid]
  rfl

theorem digitOf_digitChar (hb : base≤10) (hd : d<base) : digitOf base (digitChar d)=some d := by
  rw [digitOf,toNat_digitChar (by omega),if_pos (by omega),Nat.add_sub_cancel_left]

theorem digitChar_ne_plus (hd : d<10) : digitChar d ≠ '+' := by
  intro h
  have := congrArg Char.toNat h
  rw [toNat_digitChar hd] at this
  simp at this
  omega

theorem mapM_digitOf (hb : base≤10) (hds : ∀d∈ds,d<base) : (ds.map digitChar).mapM (digitOf base)=some ds := by
  induction ds with
  | nil => rfl
  | cons d ds ih =>
    rw [map_cons,mapM_cons,digitOf_digitChar hb (hds d mem_cons_self),ih (fun e he => hds e (mem_cons_of_mem d he))]
    rfl

theorem parse_map_digitChar (hb : base≤10) (hne : ds≠[]) (hds : ∀d∈ds,d<base) (hlt : value base ds<bound) :
    parse base bound (ds.map digitChar)=some (value base ds) := by
  have hplus : dropPlus (ds.map digitChar)=ds.map digitChar := by
    cases ds with
    | nil => rfl
    | cons d ds =>
      have hd : digitChar d ≠ '+' := digitChar_ne_plus (by have := hds d mem_cons_self; omega)
      unfold dropPlus
      split
      · rename_i heq
        exact absurd (List.cons.inj heq).1 hd
      · rfl
  have hne' : ds.map digitChar≠[] := by simpa using hne
  simp only [parse,hplus,hne',mapM_digitOf hb hds]
  simp [hlt]

/-- A numeral reads back as its number, zeros in front or not. -/
theorem parse_text (hlo : 2≤base) (hhi : base≤10) (k : ℕ) (hn : n<bound) :
    parse base bound (List.replicate k '0' ++ text base n)=some n := by
  have hz : List.replicate k '0' = (List.replicate k 0).map digitChar := by simp [digitChar]
  have hval : value base (List.replicate k 0++textDigits base n)=n := by
    rw [value_zeros,value_textDigits hlo]
  rw [hz,text_eq,←map_append,parse_map_digitChar hhi,hval]
  · exact append_ne_nil_of_right_ne_nil _ (textDigits_ne_nil hlo n)
  · intro d hd
    rcases List.mem_append.mp hd with hd | hd
    · have h0:=eq_of_mem_replicate hd
      omega
    · exact textDigits_lt hlo hd
  · rwa [hval]

theorem mem_text (hlo : 2≤base) (hhi : base≤10) {c : Char} (hc : c∈text base n) : 48 ≤ c.toNat ∧ c.toNat<58 := by
  rw [text_eq] at hc
  obtain ⟨d,hd,rfl⟩:=List.mem_map.mp hc
  have hlt:=textDigits_lt hlo hd
  rw [toNat_digitChar (by omega)]
  omega

theorem length_text_le (hlo : 2≤base) {k : ℕ} (hk : 0<k) (h : n<base^k) : (text base n).length≤k := by
  rw [text_eq,length_map,textDigits]
  split_ifs with hn
  · rw [length_singleton]
    omega
  · rw [length_reverse,digits_eq hlo (le_refl n)]
    exact (Nat.digits_length_le_iff (by omega) n).mpr h

theorem length_text_mono (hlo : 2≤base) {m n : ℕ} (h : m≤n) : (text base m).length≤(text base n).length := by
  by_cases hn : n=0
  · obtain rfl : m=n := by omega
    exact le_rfl
  have hlen : (text base n).length=(base.digits n).length := by
    rw [text_eq,length_map,textDigits,if_neg hn,length_reverse,digits_eq hlo (le_refl n)]
  have hpos : 0<(text base n).length := by
    rw [text_eq,length_map]
    exact length_pos_of_ne_nil (textDigits_ne_nil hlo n)
  exact length_text_le hlo hpos (h.trans_lt (hlen ▸ Nat.lt_base_pow_length_digits hlo))

theorem encode_text (hlo : 2≤base) (hhi : base≤10) (n : ℕ) :
    Utf8.encode (text base n)=(text base n).map (fun c => UInt8.ofNat c.toNat) := by
  apply Utf8.encode_ascii
  intro c hc
  have := mem_text hlo hhi hc
  omega

end Numeral

end Ratarmount
