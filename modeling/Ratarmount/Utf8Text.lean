import Ratarmount.ByteFields
import Mathlib.Data.Char

/-!
# UTF-8 text

Text as a list of characters, its UTF-8 bytes, and the lossy decoder, which
replaces every maximal ill-formed part by U+FFFD. The decoder is a machine that
reads one byte at a time.
-/

namespace Ratarmount

open List

abbrev Str := List Char

namespace Utf8

def encode (s : Str) : Bytes := s.flatMap String.utf8EncodeChar

/-- A sequence that has begun: the value so far, the bytes still to come, and the range
of the next one. -/
structure Pending where
  value : ℕ
  left : ℕ
  lo : ℕ := 0x80
  hi : ℕ := 0xBF

def replacement : Char := Char.ofNat 0xFFFD

/-- What a byte says at the start of a sequence. -/
def begin (b : ℕ) : Str × Option Pending :=
  if b < 0x80 then ([Char.ofNat b],none)
  else if b < 0xC2 then ([replacement],none)
  else if b < 0xE0 then ([],some { value := b - 0xC0, left := 1 })
  else if b = 0xE0 then ([],some { value := 0, left := 2, lo := 0xA0 })
  else if b = 0xED then ([],some { value := 0xD, left := 2, hi := 0x9F })
  else if b < 0xF0 then ([],some { value := b - 0xE0, left := 2 })
  else if b = 0xF0 then ([],some { value := 0, left := 3, lo := 0x90 })
  else if b < 0xF4 then ([],some { value := b - 0xF0, left := 3 })
  else if b = 0xF4 then ([],some { value := 4, left := 3, hi := 0x8F })
  else ([replacement],none)

def feed : Option Pending → ℕ → Str × Option Pending
  | none, b => begin b
  | some p, b =>
    if p.lo ≤ b ∧ b ≤ p.hi then
      let value := p.value * 64 + (b - 0x80)
      if p.left = 1 then ([Char.ofNat value],none) else ([],some { value, left := p.left - 1 })
    else
      -- the byte that breaks a sequence begins the next one
      let (out,next) := begin b
      (replacement :: out,next)

def decodeFrom : Option Pending → Bytes → Str
  | none, [] => []
  | some _, [] => [replacement]
  | st, b :: bs =>
    let (out,next) := feed st b.toNat
    out ++ decodeFrom next bs

def decodeLossy (bs : Bytes) : Str := decodeFrom none bs

/-- `str::from_utf8`: the lossy text, unless something was replaced. -/
def decodeStrict (bs : Bytes) : Option Str :=
  if encode (decodeLossy bs) = bs then some (decodeLossy bs) else none

@[simp] theorem encode_cons (c : Char) (s : Str) : encode (c::s)=String.utf8EncodeChar c++encode s := rfl

@[simp] theorem encode_append (s t : Str) : encode (s++t)=encode s++encode t := by
  simp [encode]

theorem decodeFrom_cons (st : Option Pending) (b : UInt8) (bs : Bytes) :
    decodeFrom st (b::bs)=(feed st b.toNat).1++decodeFrom (feed st b.toNat).2 bs := by
  cases st <;> rfl

/-- A lead byte and the first continuation byte of a well-formed sequence of three. -/
theorem begin_three {v : ℕ} (hlo : 0x800≤v) (hhi : v≤0xFFFF) (hv : v<0xD800 ∨ 0xDFFF<v) :
    ∃p,begin (v / 4096+224)=([],some p) ∧ p.value=v / 4096 ∧ p.left=2 ∧
      p.lo≤v / 64 % 64+128 ∧ v / 64 % 64+128≤p.hi := by
  by_cases h0 : v / 4096+224=0xE0
  · exact ⟨{ value := 0, left := 2, lo := 0xA0 },by simp [begin,h0],by simp; omega,rfl,by simp; omega,
      by simp; omega⟩
  by_cases hd : v / 4096+224=0xED
  · exact ⟨{ value := 0xD, left := 2, hi := 0x9F },by simp [begin,hd],by simp; omega,rfl,by simp,
      by simp; omega⟩
  refine ⟨{ value := v / 4096, left := 2 },?_,rfl,rfl,by simp,by simp; omega⟩
  have h1 : ¬v / 4096+224<0x80 := by omega
  have h2 : ¬v / 4096+224<0xC2 := by omega
  have h3 : ¬v / 4096+224<0xE0 := by omega
  have h4 : v / 4096+224<0xF0 := by omega
  rw [begin,if_neg h1,if_neg h2,if_neg h3,if_neg h0,if_neg hd,if_pos h4,Nat.add_sub_cancel]

/-- A lead byte and the first continuation byte of a well-formed sequence of four. -/
theorem begin_four {v : ℕ} (hlo : 0xFFFF<v) (hhi : v<0x110000) :
    ∃p,begin (v / 262144+240)=([],some p) ∧ p.value=v / 262144 ∧ p.left=3 ∧
      p.lo≤v / 4096 % 64+128 ∧ v / 4096 % 64+128≤p.hi := by
  by_cases h0 : v / 262144+240=0xF0
  · exact ⟨{ value := 0, left := 3, lo := 0x90 },by simp [begin,h0],by simp; omega,rfl,by simp; omega,
      by simp; omega⟩
  by_cases h4 : v / 262144+240=0xF4
  · exact ⟨{ value := 4, left := 3, hi := 0x8F },by simp [begin,h4],by simp; omega,rfl,by simp,
      by simp; omega⟩
  refine ⟨{ value := v / 262144, left := 3 },?_,rfl,rfl,by simp,by simp; omega⟩
  have h1 : ¬v / 262144+240<0x80 := by omega
  have h2 : ¬v / 262144+240<0xC2 := by omega
  have h3 : ¬v / 262144+240<0xF0 := by omega
  have h5 : v / 262144+240<0xF4 := by omega
  have h6 : ¬v / 262144+240<0xE0 := by omega
  have h7 : v / 262144+240≠0xE0 := by omega
  have h8 : v / 262144+240≠0xED := by omega
  rw [begin,if_neg h1,if_neg h2,if_neg h6,if_neg h7,if_neg h8,if_neg h3,if_neg h0,if_pos h5,Nat.add_sub_cancel]

theorem feed_within {p : Pending} {b : ℕ} (hlo : p.lo≤b) (hhi : b≤p.hi) :
    feed (some p) b=if p.left=1 then ([Char.ofNat (p.value*64+(b-0x80))],none)
      else ([],some { value := p.value*64+(b-0x80), left := p.left-1 }) := by
  rw [feed,if_pos ⟨hlo,hhi⟩]

theorem decodeFrom_encodeChar (c : Char) (rest : Bytes) :
    decodeFrom none (String.utf8EncodeChar c++rest)=c::decodeFrom none rest := by
  have hvalid:=c.valid
  have hc : Char.ofNat c.val.toNat=c:=Char.ofNat_toNat c
  rw [UInt32.isValidChar] at hvalid
  rw [String.utf8EncodeChar]
  generalize c.val.toNat=v at hvalid hc
  have byte : ∀n<256,(UInt8.ofNat n).toNat=n:=fun n hn => by simp; omega
  split_ifs with h1 h2 h3
  · have hlt : v<128 := by omega
    rw [cons_append,decodeFrom_cons,byte v (by omega)]
    simp [feed,begin,hlt,hc]
  · have hlead : begin (v / 64 % 32+192)=([],some { value:=v / 64, left:=1 }) := by
      have e1 : ¬v / 64 % 32+192<0x80 := by omega
      have e2 : ¬v / 64 % 32+192<0xC2 := by omega
      have e3 : v / 64 % 32+192<0xE0 := by omega
      have e4 : v / 64 % 32+192-192=v / 64 := by omega
      rw [begin,if_neg e1,if_neg e2,if_pos e3,e4]
    rw [cons_append,cons_append,decodeFrom_cons,decodeFrom_cons,byte _ (by omega),
      byte _ (by omega),feed,hlead,feed_within (by simp) (by simp; omega)]
    have e : v / 64*64+v % 64=v := by omega
    simp [e,hc]
  · obtain ⟨p,hp,hval,hleft,hlo,hhi⟩:=begin_three (v:=v) (by omega) h3 (by omega)
    have e1 : v / 4096 % 16=v / 4096 := by omega
    simp only [cons_append,decodeFrom_cons]
    rw [byte _ (by omega),byte _ (by omega),byte _ (by omega),e1,feed,hp,feed_within hlo hhi,hleft,hval]
    rw [if_neg (by omega),feed_within (by simp) (by simp; omega)]
    have e2 : (v / 4096*64+v / 64 % 64)*64+v % 64=v := by omega
    simp [e2,hc]
  · obtain ⟨p,hp,hval,hleft,hlo,hhi⟩:=begin_four (v:=v) (by omega) (by omega)
    have e1 : v / 262144 % 8=v / 262144 := by omega
    simp only [cons_append,decodeFrom_cons]
    rw [byte _ (by omega),byte _ (by omega),byte _ (by omega),byte _ (by omega),e1,feed,hp,
      feed_within hlo hhi,hleft,hval]
    rw [if_neg (by omega),feed_within (by simp) (by simp; omega),if_neg (by simp),
      feed_within (by simp) (by simp; omega)]
    have e2 : ((v / 262144*64+v / 4096 % 64)*64+v / 64 % 64)*64+v % 64=v := by omega
    simp [e2,hc]

/-- Text survives being written as UTF-8 and read back. -/
theorem decodeLossy_encode (s : Str) : decodeLossy (encode s)=s := by
  rw [decodeLossy]
  induction s with
  | nil => rfl
  | cons c s ih => rw [encode_cons,decodeFrom_encodeChar,ih]

theorem decodeStrict_encode (s : Str) : decodeStrict (encode s)=some s := by
  rw [decodeStrict,decodeLossy_encode,if_pos rfl]

/-- A byte below `0x80` occurs in the encoding of its own character only. -/
theorem eq_of_mem_encodeChar {c : Char} {b : UInt8} (hb : b∈String.utf8EncodeChar c)
    (hlt : b.toNat<0x80) : c=Char.ofNat b.toNat := by
  have byte : ∀n<256,(UInt8.ofNat n).toNat=n:=fun n hn => by simp; omega
  rw [String.utf8EncodeChar] at hb
  split_ifs at hb with h1 h2 h3
  · have hv : b=UInt8.ofNat c.val.toNat := by simpa using hb
    rw [hv,byte _ (by omega)]
    exact (Char.ofNat_toNat c).symm
  -- the bytes of the longer encodings are all at least `0x80`
  all_goals
    exfalso
    simp only [mem_cons,not_mem_nil,or_false] at hb
  · rcases hb with rfl | rfl <;> rw [byte _ (by omega)] at hlt <;> omega
  · rcases hb with rfl | rfl | rfl <;> rw [byte _ (by omega)] at hlt <;> omega
  · rcases hb with rfl | rfl | rfl | rfl <;> rw [byte _ (by omega)] at hlt <;> omega

theorem encode_ascii {s : Str} (hs : ∀c∈s,c.toNat<0x80) : encode s=s.map (fun c => UInt8.ofNat c.toNat) := by
  induction s with
  | nil => rfl
  | cons c s ih =>
    have hc : c.val.toNat≤127 := by
      have := hs c mem_cons_self
      rw [Char.toNat] at this
      omega
    rw [encode_cons,ih (fun d hd => hs d (mem_cons_of_mem c hd)),String.utf8EncodeChar,if_pos hc]
    rfl

theorem not_mem_encode {s : Str} {b : UInt8} (hlt : b.toNat<0x80) (hs : Char.ofNat b.toNat∉s) : b∉encode s := by
  intro hb
  obtain ⟨c,hc,hmem⟩:=List.mem_flatMap.mp hb
  have heq:=eq_of_mem_encodeChar hmem hlt
  exact hs (heq ▸ hc)

end Utf8

end Ratarmount
