import Mathlib.Data.Nat.Bitwise
import Mathlib.Tactic.Ring

/-!
# Bit strings

Bytes as bits, the most significant bit first, numbers of a fixed width, and bits
packed into bytes.
-/

namespace Ratarmount.Bits

open List

/-- The last bits of a number. -/
def word : ℕ → ℕ → List Bool
  | 0, _ => []
  | width + 1, n => n.testBit width :: word width n

def value (bits : List Bool) : ℕ := bits.foldl (fun v b => v * 2 + b.toNat) 0

def ofByte (byte : UInt8) : List Bool := word 8 byte.toNat

def ofBytes (bytes : List UInt8) : List Bool := bytes.flatMap ofByte

/-- Eight bits a byte, the last one filled up with zeros. -/
def packFrom : ℕ → List Bool → List UInt8
  | 0, _ => []
  | turns + 1, bits =>
    if bits = [] then []
    else UInt8.ofNat (value ((bits ++ List.replicate 7 false).take 8)) :: packFrom turns (bits.drop 8)

def pack (bits : List Bool) : List UInt8 := packFrom bits.length bits

@[simp] theorem length_word (width n : ℕ) : (word width n).length=width := by
  induction width with
  | zero => rfl
  | succ width ih => rw [word,length_cons,ih]

theorem value_append (xs ys : List Bool) : value (xs++ys)=value xs*2^ys.length+value ys := by
  have hfold : ∀(ys : List Bool) (v : ℕ),
      ys.foldl (fun v b => v*2+b.toNat) v=v*2^ys.length+value ys := by
    intro ys
    induction ys with
    | nil => intro v; simp [value]
    | cons y ys ih =>
      intro v
      rw [value,foldl_cons,foldl_cons,ih,ih,length_cons]
      ring
  rw [value,foldl_append,hfold]
  rfl

theorem value_cons (x : Bool) (xs : List Bool) : value (x::xs)=x.toNat*2^xs.length+value xs := by
  have happend:=value_append [x] xs
  simpa [value] using happend

theorem value_lt (bits : List Bool) : value bits<2^bits.length := by
  induction bits with
  | nil => decide
  | cons b bits ih =>
    have hb : b.toNat≤1:=Bool.toNat_le b
    rw [value_cons]
    calc b.toNat*2^bits.length+value bits
        ≤ 1*2^bits.length+value bits := Nat.add_le_add_right (Nat.mul_le_mul_right _ hb) _
      _<2^bits.length*2 := by omega

theorem value_word (width n : ℕ) : value (word width n)=n % 2^width := by
  induction width with
  | zero => simp [word,value,Nat.mod_one]
  | succ width ih =>
    rw [word,value_cons,length_word,ih,Nat.mod_pow_succ,Nat.toNat_testBit]
    ring

/-- Strings of one length with the same value are the same. -/
theorem value_inj {xs ys : List Bool} (hlen : xs.length=ys.length) (h : value xs=value ys) : xs=ys := by
  induction xs generalizing ys with
  | nil => exact (length_eq_zero_iff.mp hlen.symm).symm
  | cons x xs ih =>
    cases ys with
    | nil => cases hlen
    | cons y ys =>
      have hrest : xs.length=ys.length:=Nat.succ.inj hlen
      rw [value_cons,value_cons,hrest] at h
      have hx:=value_lt xs
      have hy:=value_lt ys
      rw [hrest] at hx
      cases x <;> cases y
      · rw [ih hrest (by simpa using h)]
      · simp at h
        omega
      · simp at h
        omega
      · rw [ih hrest (by simpa using h)]

theorem word_value (bits : List Bool) : word bits.length (value bits)=bits := by
  refine value_inj (length_word _ _) ?_
  rw [value_word,Nat.mod_eq_of_lt (value_lt bits)]

@[simp] theorem length_ofBytes (bytes : List UInt8) : (ofBytes bytes).length=8*bytes.length := by
  induction bytes with
  | nil => rfl
  | cons byte bytes ih =>
    rw [ofBytes,flatMap_cons,length_append,←ofBytes,ofByte,length_word,length_cons]
    omega

@[simp] theorem ofBytes_append (s t : List UInt8) : ofBytes (s++t)=ofBytes s++ofBytes t := flatMap_append

theorem drop_ofBytes (bytes : List UInt8) (n : ℕ) : (ofBytes bytes).drop (8*n)=ofBytes (bytes.drop n) := by
  by_cases h : n≤bytes.length
  · have hsplit:=congrArg ofBytes (take_append_drop n bytes)
    rw [ofBytes_append] at hsplit
    rw [←hsplit,drop_left' (by rw [length_ofBytes,length_take]; omega)]
  · rw [drop_eq_nil_of_le (by rw [length_ofBytes]; omega),drop_eq_nil_of_le (by omega)]
    rfl

theorem take_ofBytes (bytes : List UInt8) (n : ℕ) : (ofBytes bytes).take (8*n)=ofBytes (bytes.take n) := by
  by_cases h : n≤bytes.length
  · have hsplit:=congrArg ofBytes (take_append_drop n bytes)
    rw [ofBytes_append] at hsplit
    rw [←hsplit,take_left' (by rw [length_ofBytes,length_take]; omega)]
  · rw [take_of_length_le (by rw [length_ofBytes]; omega),take_of_length_le (by omega)]

theorem ofByte_value {bits : List Bool} (h : bits.length=8) : ofByte (UInt8.ofNat (value bits))=bits := by
  have hlt:=value_lt bits
  rw [h] at hlt
  rw [ofByte,UInt8.toNat_ofNat_of_lt' hlt,←h,word_value]

/-- Packed bits are read back, with some zeros behind them. -/
theorem ofBytes_pack (bits : List Bool) : ∃k,ofBytes (pack bits)=bits++List.replicate k false := by
  have hrun : ∀(turns : ℕ) (bits : List Bool),bits.length≤turns →
      ∃k,ofBytes (packFrom turns bits)=bits++List.replicate k false := by
    intro turns
    induction turns with
    | zero =>
      intro bits hle
      obtain rfl : bits=[]:=length_eq_zero_iff.mp (Nat.le_zero.mp hle)
      exact ⟨0,rfl⟩
    | succ turns ih =>
      intro bits hle
      rw [packFrom]
      split_ifs with hnil
      · exact ⟨0,by rw [hnil]; rfl⟩
      · have hpos:=length_pos_iff.mpr hnil
        have hbyte : ((bits++List.replicate 7 false).take 8).length=8 := by
          rw [length_take,length_append,length_replicate]
          omega
        obtain ⟨k,hk⟩:=ih (bits.drop 8) (by rw [length_drop]; omega)
        rw [ofBytes,flatMap_cons,←ofBytes,hk,ofByte_value hbyte]
        by_cases hfull : 8≤bits.length
        · refine ⟨k,?_⟩
          rw [take_append_of_le_length hfull,←append_assoc,take_append_drop]
        · refine ⟨8-bits.length+k,?_⟩
          rw [take_append,take_of_length_le (by omega),take_replicate,drop_eq_nil_of_le (by omega),
            nil_append,append_assoc,replicate_append_replicate,min_eq_left (by omega)]
  exact hrun bits.length bits le_rfl

/-- Whole bytes in front stay as they are. -/
theorem pack_ofBytes_append (bytes : List UInt8) (bits : List Bool) : pack (ofBytes bytes++bits)=bytes++pack bits := by
  have hfuel : ∀(turns turns' : ℕ) (bits : List Bool),bits.length≤turns → bits.length≤turns' →
      packFrom turns bits=packFrom turns' bits := by
    intro turns
    induction turns with
    | zero =>
      intro turns' bits hle _
      obtain rfl : bits=[]:=length_eq_zero_iff.mp (Nat.le_zero.mp hle)
      cases turns' <;> rfl
    | succ turns ih =>
      intro turns' bits hle hle'
      cases turns' with
      | zero =>
        obtain rfl : bits=[]:=length_eq_zero_iff.mp (Nat.le_zero.mp hle')
        rfl
      | succ turns' =>
        rw [packFrom,packFrom]
        split_ifs with hnil
        · rfl
        · have hpos:=length_pos_iff.mpr hnil
          rw [ih turns' (bits.drop 8) (by rw [length_drop]; omega) (by rw [length_drop]; omega)]
  induction bytes with
  | nil => rfl
  | cons byte bytes ih =>
    have hbyte : (ofByte byte).length=8:=length_word _ _
    have hlen : (ofBytes (byte::bytes)++bits).length=(ofBytes bytes++bits).length+7+1 := by
      rw [length_append,length_append,length_ofBytes,length_ofBytes,length_cons]
      omega
    have hsplit : ofBytes (byte::bytes)++bits=ofByte byte++(ofBytes bytes++bits) := by
      rw [ofBytes,flatMap_cons,append_assoc,←ofBytes]
    rw [pack,hlen,hsplit,packFrom,if_neg,append_assoc,take_left' hbyte,drop_left' hbyte,cons_append]
    · congr 1
      · rw [ofByte,value_word,Nat.mod_eq_of_lt byte.toNat_lt,UInt8.ofNat_toNat]
      · rw [←ih]
        exact hfuel _ _ _ (by omega) le_rfl
    · intro hnil
      have hzero:=congrArg List.length hnil
      rw [length_append,length_nil] at hzero
      omega

end Ratarmount.Bits
