import Ratarmount.TarHeader

/-!
# PAX extended headers

Records `LEN key=value\n`, the attributes that they carry, and the record that
the writer encodes. Reading back a sequence of written records gives their keys
and values.
-/

namespace Ratarmount.Tar

open List Numeral Utf8

abbrev PaxMap := Str → Option Str

namespace PaxMap

def empty : PaxMap := fun _ => none

def insert (m : PaxMap) (key value : Str) : PaxMap := Function.update m key (some value)

/-- `m.extend(n)`: the records of `n` win. -/
def extend (m n : PaxMap) : PaxMap := fun key => (n key).or (m key)

end PaxMap

/-- Extended attributes in the order of their last insertion. -/
abbrev Xattrs := List (Str × Bytes)

def Xattrs.insert (xs : Xattrs) (name : Str) (value : Bytes) : Xattrs :=
  xs.filter (fun x => x.1 ≠ name) ++ [(name,value)]

def Xattrs.extend (xs ys : Xattrs) : Xattrs := ys.foldl (fun acc y => acc.insert y.1 y.2) xs

structure PaxParsed where
  map : PaxMap
  sparsePairs : List (ℕ × ℕ)
  fsXattrs : Xattrs

def PaxParsed.empty : PaxParsed := { map := PaxMap.empty, sparsePairs := [], fsXattrs := [] }

namespace PaxKey

def path : Str := "path".toList
def linkpath : Str := "linkpath".toList
def size : Str := "size".toList
def uid : Str := "uid".toList
def gid : Str := "gid".toList
def mtime : Str := "mtime".toList
def sparseName : Str := "GNU.sparse.name".toList
def sparseOffset : Str := "GNU.sparse.offset".toList
def sparseNumbytes : Str := "GNU.sparse.numbytes".toList

end PaxKey

def schilyXattr : Str := "SCHILY.xattr.".toList

def libarchiveXattr : Str := "LIBARCHIVE.xattr.".toList

/-- The text after `pre`, if `s` begins with it. -/
def stripped (pre s : Str) : Option Str := if pre <+: s then some (s.drop pre.length) else none

def fromHexDigit (b : UInt8) : Option ℕ :=
  let n := b.toNat
  if 48 ≤ n ∧ n ≤ 57 then some (n - 48)
  else if 97 ≤ n ∧ n ≤ 102 then some (n - 97 + 10)
  else if 65 ≤ n ∧ n ≤ 70 then some (n - 65 + 10)
  else none

/-- The bytes of `percent_decode_str`, with the string's length as fuel. -/
def percentDecode : ℕ → Bytes → Bytes
  | 0, _ => []
  | _ + 1, [] => []
  | fuel + 1, 37 :: a :: b :: rest =>
    match fromHexDigit a, fromHexDigit b with
    | some h, some l => UInt8.ofNat (h * 16 + l) :: percentDecode fuel rest
    | _, _ => 37 :: percentDecode fuel (a :: b :: rest)
  | fuel + 1, b :: rest => b :: percentDecode fuel rest

def percentDecodeStr (s : Str) : Str :=
  let bs := Utf8.encode s
  Utf8.decodeLossy (percentDecode bs.length bs)

def base64Digit (b : UInt8) : Option ℕ :=
  let n := b.toNat
  if 65 ≤ n ∧ n ≤ 90 then some (n - 65)
  else if 97 ≤ n ∧ n ≤ 122 then some (n - 97 + 26)
  else if 48 ≤ n ∧ n ≤ 57 then some (n - 48 + 52)
  else if n = 43 then some 62
  else if n = 47 then some 63
  else if n = 61 then some 0
  else none

def base64Chunks : Bytes → Option Bytes
  | [] => some []
  | x :: y :: z :: w :: rest => do
    let a ← base64Digit x
    let b ← base64Digit y
    let c ← base64Digit z
    let d ← base64Digit w
    let more ← base64Chunks rest
    let second := if z ≠ 61 then [UInt8.ofNat (b % 16 * 16 + c / 4)] else []
    let third := if w ≠ 61 then [UInt8.ofNat (c % 4 * 64 + d)] else []
    some (UInt8.ofNat (a * 4 + b / 16) :: (second ++ third ++ more))
  | _ => none

/-- `base64_std_decode`: ASCII white space does not count. -/
def base64StdDecode (input : Bytes) : Option Bytes :=
  base64Chunks (input.filter (fun b => b ∉ [32,9,10,12,13]))

def decodeUnpaddedBase64 (s : Str) : Option Bytes :=
  let bs := Utf8.encode s
  base64StdDecode (bs ++ List.replicate ((4 - bs.length % 4) % 4) 61)

def fsXattrsFromPaxEntries (schily libarchive : Xattrs) : Xattrs :=
  libarchive.foldl (fun acc x =>
    match Utf8.decodeStrict x.2 with
    | none => acc
    | some s =>
      match decodeUnpaddedBase64 (ArchivePath.trim s) with
      | none => acc
      | some decoded => acc.insert (percentDecodeStr x.1) decoded) schily

/-- The accumulators of `parse_pax_records`. -/
structure PaxState where
  map : PaxMap := PaxMap.empty
  sparsePairs : List (ℕ × ℕ) := []
  schily : Xattrs := []
  libarchive : Xattrs := []
  pendingOffset : Option ℕ := none

def parseU64 (s : Str) : Option ℕ := Numeral.parse 10 (2 ^ 64) s

/-- One record `key=raw` whose newline is gone. -/
def PaxState.record (st : PaxState) (key : Str) (raw : Bytes) : PaxState :=
  let val := Utf8.decodeLossy raw
  let st := { st with map := st.map.insert key val }
  if key = PaxKey.sparseOffset then { st with pendingOffset := parseU64 val }
  else if key = PaxKey.sparseNumbytes then
    match st.pendingOffset, parseU64 val with
    | some off, some len => { st with sparsePairs := st.sparsePairs ++ [(off,len)], pendingOffset := none }
    | _, _ => { st with pendingOffset := none }
  else match stripped schilyXattr key with
    | some name => { st with schily := st.schily.insert name raw }
    | none =>
      match stripped libarchiveXattr key with
      | some name => { st with libarchive := st.libarchive.insert name raw }
      | none => st

/-- What a record of the right length adds: nothing unless it has a key before its first `=`. -/
def PaxState.addRecord (st : PaxState) (record : Bytes) (sp : ℕ) : PaxState :=
  match record.findIdx? (· = 61) with
  | none => st
  | some eq =>
    if sp + 1 < eq then
      let valEnd := if record.getLast? = some 10 then record.length - 1 else record.length
      st.record (Utf8.decodeLossy (record.slice (sp + 1) (eq - (sp + 1)))) (record.slice (eq + 1) (valEnd - (eq + 1)))
    else st

/-- The loop of `parse_pax_records` at index `i`, with `rest` the data from there on. -/
def parsePaxLoop : ℕ → ℕ → Bytes → PaxState → Except TarError PaxState
  | 0, _, _, st => .ok st
  | fuel + 1, i, rest, st =>
    if rest = [] ∨ rest.head? = some 0 then .ok st
    else match rest.findIdx? (· = 32) with
      | none => .ok st
      | some sp =>
        match parseU64 (Utf8.decodeLossy (rest.take sp)) with
        | none => .ok st
        | some recLen =>
          if recLen = 0 then .ok st
          -- the sum wraps to a value below `i`, and the slice ends before it starts
          else if 2 ^ 64 ≤ i + recLen then .error .panicked
          else if rest.length < recLen then .ok st
          else parsePaxLoop fuel (i + recLen) (rest.drop recLen) (st.addRecord (rest.take recLen) sp)

def parsePaxRecords (data : Bytes) : Except TarError PaxParsed := do
  let st ← parsePaxLoop data.length 0 data {}
  return { map := st.map, sparsePairs := st.sparsePairs,
           fsXattrs := fsXattrsFromPaxEntries st.schily st.libarchive }

def memberName (enc : Encoding) (pax : PaxMap) (header : Bytes) : Str :=
  match pax PaxKey.path with
  | some p => p
  | none =>
    match pax PaxKey.sparseName with
    | some p => p
    | none => parseName enc header

def stripNuls (body : Bytes) : Bytes := (body.reverse.dropWhile (· = 0)).reverse

/-! ## Written records -/

def paxRecordBody (key : Str) (value : Bytes) : Bytes :=
  32 :: (Utf8.encode key ++ 61 :: (value ++ [10]))

def encodePaxRecord (key : Str) (value : Bytes) : Except TarError Bytes :=
  let body := paxRecordBody key value
  match (List.range' 1 20).find? (fun d => (Numeral.text 10 (d + body.length)).length = d) with
  | some d => .ok (Utf8.encode (Numeral.text 10 (d + body.length)) ++ body)
  | none => .error (.invalidData ("pax record too long for " ++ String.ofList key))

variable {key : Str} {value record : Bytes} {b : UInt8}

/-- The length field of a written record is the record's own length. -/
theorem encodePaxRecord_ok (h : encodePaxRecord key value = .ok record) :
    record=Utf8.encode (Numeral.text 10 record.length)++paxRecordBody key value := by
  rw [encodePaxRecord] at h
  split at h
  · rename_i d hd
    have hlen : (Numeral.text 10 (d+(paxRecordBody key value).length)).length=d := by
      simpa using find?_some hd
    have htext : (Utf8.encode (Numeral.text 10 (d+(paxRecordBody key value).length))).length=d := by
      rw [encode_text (by decide) (by decide),length_map,hlen]
    injection h with h
    have hrec : record.length=d+(paxRecordBody key value).length := by
      rw [←h,length_append,htext]
    rw [hrec,h]
  · cases h

/-- The least length that is not too short counts itself. -/
theorem exists_encodePaxRecord (key : Str) (value : Bytes) (h : (paxRecordBody key value).length<2^63) :
    ∃record,encodePaxRecord key value = .ok record := by
  rw [encodePaxRecord]
  generalize (paxRecordBody key value).length=n at h
  have hlast : (Numeral.text 10 (20+n)).length≤20:=length_text_le (by decide) (by decide) (by omega)
  have hpos (k : ℕ) : 0<(Numeral.text 10 k).length := by
    rw [text_eq,length_map]
    exact length_pos_of_ne_nil (textDigits_ne_nil (by decide) k)
  have hex : ∃d,(Numeral.text 10 (d+n)).length≤d:=⟨20,hlast⟩
  obtain ⟨d,hd,hmin⟩ : ∃d,(Numeral.text 10 (d+n)).length≤d ∧ ∀e<d,e<(Numeral.text 10 (e+n)).length :=
    ⟨Nat.find hex,Nat.find_spec hex,fun e he => not_le.mp (Nat.find_min hex he)⟩
  have hle : d≤20 := by
    by_contra hlt
    have := hmin 20 (by omega)
    omega
  have hd0 : 0<d:=(hpos _).trans_le hd
  have heq : (Numeral.text 10 (d+n)).length=d := by
    have hbefore:=hmin (d-1) (by omega)
    have hmono : (Numeral.text 10 (d-1+n)).length≤(Numeral.text 10 (d+n)).length:=length_text_mono (by decide) (by omega)
    omega
  cases hfind : (List.range' 1 20).find? (fun d => decide ((Numeral.text 10 (d+n)).length=d)) with
  | none =>
    have hnone:=List.find?_eq_none.mp hfind d (List.mem_range'_1.mpr (by omega))
    simp [heq] at hnone
  | some d => exact ⟨_,rfl⟩

theorem mapM_cons_ok {α β ε : Type} {f : α → Except ε β} {a : α} {as : List α} {bs : List β}
    (h : (a::as).mapM f = .ok bs) : ∃b,f a = .ok b ∧ ∃rest,as.mapM f = .ok rest ∧ bs=b::rest := by
  rw [mapM_cons] at h
  cases hb : f a with
  | error e => rw [hb] at h; cases h
  | ok b =>
    cases hr : as.mapM f with
    | error e => rw [hb,hr] at h; cases h
    | ok rest =>
      rw [hb,hr] at h
      cases h
      exact ⟨b,rfl,rest,rfl,rfl⟩

theorem findIdx?_first {pre : Bytes} (post : Bytes) (h : b∉pre) : (pre++b::post).findIdx? (·=b)=some pre.length := by
  have hnone : pre.findIdx? (·=b)=none := by
    rw [findIdx?_eq_none_iff]
    intro x hx
    exact decide_eq_false (fun e => h (e ▸ hx))
  rw [findIdx?_append,hnone,findIdx?_cons]
  simp

theorem not_mem_encode_text (n : ℕ) (hb : b.toNat<48 ∨ 57<b.toNat) : b∉Utf8.encode (Numeral.text 10 n) := by
  rw [encode_text (by decide) (by decide)]
  intro hmem
  obtain ⟨c,hc,heq⟩:=mem_map.mp hmem
  have hdigit:=mem_text (by decide) (by decide) hc
  have hbyte : b.toNat=c.toNat := by
    rw [←heq]
    simp
    omega
  omega

theorem encode_ne_nil {s : Str} (h : s≠[]) : Utf8.encode s≠[] := by
  intro hnil
  apply h
  rw [←decodeLossy_encode s,hnil]
  rfl

/-- A written record adds its key and value. -/
theorem addRecord_written (value : Bytes) {num : Bytes} (hkey : key≠[]) (heq : '=' ∉ key)
    (hnum : (61 : UInt8)∉num) (st : PaxState) :
    st.addRecord (num++paxRecordBody key value) num.length=st.record key value := by
  have hmem : (61 : UInt8)∉num++32::Utf8.encode key := by
    have hk : (61 : UInt8)∉Utf8.encode key:=not_mem_encode (by decide) heq
    simp [hnum,hk]
  have hsplit : num++paxRecordBody key value=(num++32::Utf8.encode key)++61::(value++[10]) := by
    simp [paxRecordBody]
  have hidx : (num++paxRecordBody key value).findIdx? (·=61)=some (num++32::Utf8.encode key).length := by
    rw [hsplit]
    exact findIdx?_first _ hmem
  have hlt : num.length+1<(num++32::Utf8.encode key).length := by
    have := length_pos_of_ne_nil (encode_ne_nil hkey)
    simp
    omega
  have hlast : (num++paxRecordBody key value).getLast?=some 10 := by
    rw [hsplit,←cons_append,←append_assoc,getLast?_concat]
  have hkeySlice : (num++paxRecordBody key value).slice (num.length+1)
      ((num++32::Utf8.encode key).length-(num.length+1))=Utf8.encode key := by
    have e : num++paxRecordBody key value=(num++[32])++(Utf8.encode key++61::(value++[10])) := by
      simp [paxRecordBody]
    rw [e]
    exact Bytes.slice_append _ _ _ (by simp) (by simp; omega)
  have hvalSlice : (num++paxRecordBody key value).slice ((num++32::Utf8.encode key).length+1)
      ((num++paxRecordBody key value).length-1-((num++32::Utf8.encode key).length+1))=value := by
    have e : num++paxRecordBody key value=(num++32::Utf8.encode key++[61])++(value++[10]) := by
      simp [paxRecordBody]
    rw [e]
    exact Bytes.slice_append _ _ _ (by simp; omega) (by simp; omega)
  simp only [PaxState.addRecord,hidx,if_pos hlt,hlast,if_true,hkeySlice,hvalSlice,decodeLossy_encode]

/-- The loop reads a written record whole and goes on behind it. -/
theorem parsePaxLoop_written (h : encodePaxRecord key value = .ok record) (hkey : key≠[]) (heq : '=' ∉ key) {i : ℕ}
    (fuel : ℕ) (hi : i+record.length<2^64) (tail : Bytes) (st : PaxState) :
    parsePaxLoop (fuel+1) i (record++tail) st = parsePaxLoop fuel (i+record.length) tail (st.record key value) := by
  have hrec:=encodePaxRecord_ok h
  have hparse : parseU64 (Numeral.text 10 record.length)=some record.length := by
    exact parse_text (by decide) (by decide) 0 (by omega)
  generalize hnum : Utf8.encode (Numeral.text 10 record.length)=num at hrec
  have h32 : (32 : UInt8)∉num:=hnum ▸ not_mem_encode_text _ (by decide)
  have h61 : (61 : UInt8)∉num:=hnum ▸ not_mem_encode_text _ (by decide)
  have h0 : (0 : UInt8)∉num:=hnum ▸ not_mem_encode_text _ (by decide)
  have hpos : 0 < record.length := by
    rw [hrec]
    simp [paxRecordBody]
  have hstop : ¬(record++tail=[] ∨ (record++tail).head?=some 0) := by
    -- the first byte is a digit of the length, or the blank behind it
    rw [hrec,paxRecordBody]
    cases num with
    | nil => simp
    | cons b num =>
      have hb : b≠0:=fun e => h0 (e ▸ mem_cons_self)
      simp [hb]
  have hsp : (record++tail).findIdx? (·=32)=some num.length := by
    rw [hrec,append_assoc]
    exact findIdx?_first _ h32
  have htake : (record++tail).take num.length=num := by
    rw [hrec,append_assoc,take_left']
    rfl
  rw [parsePaxLoop,if_neg hstop,hsp]
  have hlen : parseU64 (Utf8.decodeLossy ((record++tail).take num.length))=some record.length := by
    rw [htake,←hnum,decodeLossy_encode,hparse]
  simp only [hlen]
  rw [if_neg (by omega),if_neg (by omega),if_neg (by simp),drop_left,take_left]
  have hadd:=addRecord_written value hkey heq h61 st
  rw [←hrec] at hadd
  rw [hadd]

theorem encodePaxRecord_length_pos (h : encodePaxRecord key value = .ok record) : 0 < record.length := by
  rw [encodePaxRecord_ok h]
  simp [paxRecordBody]

theorem parsePaxLoop_records {pairs : List (Str × Bytes)} {records : List Bytes}
    (h : pairs.mapM (fun kv => encodePaxRecord kv.1 kv.2) = .ok records)
    (hkeys : ∀kv∈pairs,kv.1≠[] ∧ '=' ∉ kv.1) {fuel i : ℕ} (hfuel : records.flatten.length≤fuel)
    (hi : i+records.flatten.length<2^64) (st : PaxState) :
    parsePaxLoop fuel i records.flatten st = .ok (pairs.foldl (fun st kv => st.record kv.1 kv.2) st) := by
  induction pairs generalizing records fuel i st with
  | nil =>
    cases h
    cases fuel <;> simp [parsePaxLoop]
  | cons kv pairs ih =>
    obtain ⟨record,hrecord,rest,hrest,rfl⟩:=mapM_cons_ok h
    obtain ⟨hkey,heq⟩:=hkeys kv mem_cons_self
    have hpos:=encodePaxRecord_length_pos hrecord
    rw [flatten_cons,length_append] at hfuel hi
    obtain ⟨fuel,rfl⟩ : ∃n,fuel=n+1:=⟨fuel - 1,by omega⟩
    rw [flatten_cons,parsePaxLoop_written hrecord hkey heq fuel (by omega),
      ih hrest (fun kv hkv => hkeys kv (mem_cons_of_mem _ hkv)) (by omega) (by omega),foldl_cons]

@[simp] theorem record_map (st : PaxState) (key : Str) (raw : Bytes) :
    (st.record key raw).map=st.map.insert key (Utf8.decodeLossy raw) := by
  simp only [PaxState.record]
  repeat' split
  all_goals rfl

/-- A key that has no meaning of its own for sparse maps or attributes. -/
def PlainKey (key : Str) : Prop :=
  key ≠ PaxKey.sparseOffset ∧ key ≠ PaxKey.sparseNumbytes ∧
    stripped schilyXattr key = none ∧ stripped libarchiveXattr key = none

instance (key : Str) : Decidable (PlainKey key) := inferInstanceAs (Decidable (_ ∧ _))

end Ratarmount.Tar
