import Ratarmount.ArchivePaths

/-!
# TAR header blocks

Fields of a 512-byte header, octal and base-256 numbers, checksums and magic, as
the walkers read them and as the writer writes them. Offsets and sizes are `u64`
with the arithmetic of a release build.
-/

namespace Ratarmount.Tar

open List ArchivePath Numeral

/-- The I/O errors of the source, a panic, and a loop that outlasts its fuel. -/
inductive TarError
  | invalidData (text : String)
  | invalidInput (text : String)
  | unexpectedEof (text : String)
  | panicked
  | diverged
  deriving DecidableEq, Repr

def blockSize : ℕ := 512

def u64 (n : ℕ) : ℕ := n % 2 ^ 64

theorem u64_eq {n : ℕ} (h : n<2^64) : u64 n=n := Nat.mod_eq_of_lt h

def pad512 (n : ℕ) : ℕ := u64 ((n + 511) / 512 * 512)

def maxHeaderPayloadBytes : ℕ := 16 * 1024 * 1024

/-- How names are decoded: `decode_bytes` with the archive's encoding label. -/
abbrev Encoding := Bytes → Str

def isZero (bs : Bytes) : Bool := bs.all (· = 0)

def cstr (field : Bytes) : Bytes := field.takeWhile (· ≠ 0)

def cstrField (field : Bytes) : Str := Utf8.decodeLossy (cstr field)

def parseBase256 (field : Bytes) : ℕ :=
  let first := field.take 1
  (first.map (fun b : UInt8 => b.toNat % 128) ++ (field.drop 1).map UInt8.toNat).foldl (fun v b => u64 (v * 256) + b) 0

def parseOctal (field : Bytes) : Option ℕ :=
  let s := trim (cstrField field)
  if s = [] then some 0
  else if 128 ≤ (field.headD 0).toNat then some (parseBase256 field)
  else Numeral.parse 8 (2 ^ 64) s

def typeflag (header : Bytes) : UInt8 := header.getD 156 0

def sizeField (header : Bytes) : ℕ := (parseOctal (header.slice 124 12)).getD 0

def parseName (enc : Encoding) (header : Bytes) : Str :=
  let pre := enc (cstr (header.slice 345 155))
  let name := enc (cstr (header.slice 0 100))
  if pre = [] then name else pre ++ '/' :: name

def hasTarMagic (header : Bytes) : Bool :=
  let magic := header.slice 257 5
  magic = [117,115,116,97,114] ∨ magic = [71,78,85,32,32]

/-- The header with its checksum field read as spaces. -/
def checksumView (header : Bytes) : Bytes :=
  header.take 148 ++ (List.replicate 8 32 ++ header.drop 156)

def checksumUnsigned (header : Bytes) : ℕ := ((checksumView header).map UInt8.toNat).sum % 2 ^ 32

def signExtend (b : UInt8) : ℕ := if b.toNat < 128 then b.toNat else 2 ^ 32 - (256 - b.toNat)

def checksumSigned (header : Bytes) : ℕ := ((checksumView header).map signExtend).sum % 2 ^ 32

def checksumOk (header : Bytes) : Bool :=
  match parseOctal (header.slice 148 8) with
  | none => false
  | some stored =>
    checksumUnsigned header = stored % 2 ^ 32 ∨ checksumSigned header = stored % 2 ^ 32

/-! ## Numbers as the writer writes them -/

/-- `{value:0digits$o}`: octal, with zeros in front up to `digits` characters. -/
def paddedOctal (digits value : ℕ) : Str :=
  List.replicate (digits - (Numeral.text 8 value).length) '0' ++ Numeral.text 8 value

def writeOctal (width value : ℕ) : Except TarError Bytes :=
  let s := paddedOctal (width - 1) value
  if width - 1 < s.length then .error (.invalidInput s!"octal value {value} does not fit in {width - 1} digits")
  else .ok (Utf8.encode s ++ [0])

theorem mem_paddedOctal {digits value : ℕ} {c : Char} (hc : c∈paddedOctal digits value) :
    48 ≤ c.toNat ∧ c.toNat<58 := by
  rcases List.mem_append.mp hc with hc | hc
  · rw [eq_of_mem_replicate hc]
    decide
  · exact mem_text (by decide) (by decide) hc

theorem encode_paddedOctal (digits value : ℕ) :
    Utf8.encode (paddedOctal digits value)=(paddedOctal digits value).map (fun c => UInt8.ofNat c.toNat) := by
  apply Utf8.encode_ascii
  intro c hc
  have := mem_paddedOctal hc
  omega

/-- A number that the writer has written reads back, whatever follows its NUL. -/
theorem parseOctal_padded (digits : ℕ) {value : ℕ} (rest : Bytes) (hv : value<2^64) :
    parseOctal (Utf8.encode (paddedOctal digits value)++0::rest)=some value := by
  have hbyte : ∀b∈Utf8.encode (paddedOctal digits value),48≤b.toNat ∧ b.toNat<58 := by
    intro b hb
    rw [encode_paddedOctal] at hb
    obtain ⟨c,hc,rfl⟩:=List.mem_map.mp hb
    have := mem_paddedOctal hc
    simp
    omega
  have hcstr : cstr (Utf8.encode (paddedOctal digits value)++0::rest) =
      Utf8.encode (paddedOctal digits value) := by
    rw [cstr,takeWhile_append_of_pos]
    · simp
    · intro b hb
      have h48:=(hbyte b hb).1
      have hne : b≠0 := by
        rintro rfl
        simp at h48
      simpa using hne
  have hwhite : trim (paddedOctal digits value)=paddedOctal digits value := by
    apply trim_eq
    intro c hc
    have := mem_paddedOctal hc
    simp [isWhite]
    omega
  have hne : paddedOctal digits value≠[] := by
    rw [paddedOctal,text_eq]
    exact append_ne_nil_of_right_ne_nil _ (by simpa using textDigits_ne_nil (by decide) value)
  have hhead : ¬128≤((Utf8.encode (paddedOctal digits value)++0::rest).headD 0).toNat := by
    cases hb : Utf8.encode (paddedOctal digits value) with
    | nil => simp
    | cons b bs =>
      have := hbyte b (by rw [hb]; exact mem_cons_self)
      simp
      omega
  simp only [parseOctal,cstrField,hcstr,Utf8.decodeLossy_encode,hwhite,if_neg hne,if_neg hhead]
  exact parse_text (by decide) (by decide) _ hv

theorem writeOctal_ok {width value : ℕ} {field : Bytes} (hw : 0<width) (h : writeOctal width value = .ok field) :
    field.length=width ∧ (value<2^64 → parseOctal field=some value) := by
  rw [writeOctal] at h
  split_ifs at h with hlen
  cases h
  refine ⟨?_,fun hv => parseOctal_padded _ [] hv⟩
  have hle : width-1≤(paddedOctal (width-1) value).length := by
    rw [paddedOctal,length_append,length_replicate]
    omega
  rw [length_append,encode_paddedOctal,length_map,length_singleton]
  omega

end Ratarmount.Tar
