import Ratarmount.TarPax

/-!
# What is read from PAX records

Written records give the last value of every key. Of any bytes at all, the parser takes
the records at their start as far as the declared lengths fit, unless the length of the
next one takes the cursor out of its machine integer.
-/

namespace Ratarmount.Tar

open List Option

/-- The place of the blank behind the length of a record that starts here, and the length. -/
def declared (rest : Bytes) : Option (ℕ × ℕ) :=
  if rest = [] ∨ rest.head? = some 0 then none
  else do
    let sp ← rest.findIdx? (· = 32)
    let recLen ← parseU64 (Utf8.decodeLossy (rest.take sp))
    if recLen = 0 then none else some (sp,recLen)

/-- From cursor to cursor, the data are these records, each with the place of its blank, and a tail. -/
inductive Records : ℕ → Bytes → List (Bytes × ℕ) → ℕ → Bytes → Prop
  | done {i : ℕ} {data : Bytes} : Records i data [] i data
  | record {i j sp len : ℕ} {data tail : Bytes} {records : List (Bytes × ℕ)} : declared data = some (sp,len) →
      len ≤ data.length → Records (i + len) (data.drop len) records j tail →
      Records i data ((data.take len,sp) :: records) j tail

/-- No length that a next record declares lies within the data. -/
def Exhausted (tail : Bytes) : Prop := ∀ sp len, declared tail = some (sp,len) → tail.length < len

/-- No record behind those that fit takes the cursor out of the machine's integers. -/
def InRange (i : ℕ) (data : Bytes) : Prop :=
  ∀ records j tail sp len, Records i data records j tail → declared tail = some (sp,len) → j + len < 2 ^ 64

def addRecords (records : List (Bytes × ℕ)) (st : PaxState) : PaxState :=
  records.foldl (fun st r => st.addRecord r.1 r.2) st

def PaxState.parsed (st : PaxState) : PaxParsed :=
  { map := st.map, sparsePairs := st.sparsePairs, fsXattrs := fsXattrsFromPaxEntries st.schily st.libarchive }

/-- The parser returns the records of the longest prefix. -/
def ReadsLongest (data : Bytes) : Prop :=
  ∃ records j tail, Records 0 data records j tail ∧ Exhausted tail ∧
    parsePaxRecords data = .ok (addRecords records {}).parsed

def lastValue (pairs : List (Str × Bytes)) (key : Str) : Option Bytes :=
  (pairs.reverse.find? (fun kv => kv.1 = key)).map Prod.snd

/-- The attributes are the last raw values of the keys that begin with `pre`. -/
def LastRaw (pre : Str) (pairs : List (Str × Bytes)) (xs : Xattrs) : Prop :=
  ∀ name raw, (name,raw) ∈ xs ↔ lastValue pairs (pre ++ name) = some raw

/-- What the parser has collected is the last value of every key. -/
structure Carries (st : PaxState) (pairs : List (Str × Bytes)) : Prop where
  map : ∀ key, st.map key = (lastValue pairs key).map Utf8.decodeLossy
  schily : LastRaw schilyXattr pairs st.schily
  libarchive : LastRaw libarchiveXattr pairs st.libarchive

/-! ## Any data -/

variable {fuel i : ℕ} {rest : Bytes} {st : PaxState}

theorem parsePaxLoop_succ (fuel i : ℕ) (rest : Bytes) (st : PaxState) :
    parsePaxLoop (fuel+1) i rest st=match declared rest with
      | none => .ok st
      | some (sp,len) =>
        if 2^64 ≤ i+len then .error .panicked else if rest.length<len then .ok st
        else parsePaxLoop fuel (i+len) (rest.drop len) (st.addRecord (rest.take len) sp) := by
  rw [parsePaxLoop,declared]
  split_ifs with hstop
  · rfl
  · cases rest.findIdx? (·=32) with
    | none => rfl
    | some sp =>
      dsimp only [bind_eq_bind,bind_some]
      cases parseU64 (Utf8.decodeLossy (rest.take sp)) with
      | none => rfl
      | some len =>
        dsimp only [bind_some]
        by_cases hlen : len=0
        · rw [if_pos hlen,if_pos hlen]
        · rw [if_neg hlen,if_neg hlen]

theorem declared_pos {sp len : ℕ} (h : declared rest=some (sp,len)) : 0<len ∧ rest≠[] := by
  rw [declared] at h
  split_ifs at h with hstop
  rw [bind_eq_bind,bind_eq_some_iff] at h
  obtain ⟨sp',-,h⟩:=h
  rw [bind_eq_some_iff] at h
  obtain ⟨len',-,h⟩:=h
  split_ifs at h with hlen
  cases h
  exact ⟨Nat.pos_of_ne_zero hlen,(not_or.mp hstop).1⟩

/-- In range, the loop reads the longest prefix. -/
theorem parsePaxLoop_of_inRange (hfuel : rest.length≤fuel) (h : InRange i rest) (st : PaxState) :
    ∃records j tail,Records i rest records j tail ∧ Exhausted tail ∧
      parsePaxLoop fuel i rest st = .ok (addRecords records st) := by
  induction fuel generalizing i rest st with
  | zero =>
    obtain rfl : rest=[]:=List.length_eq_zero_iff.mp (by omega)
    exact ⟨[],i,[],.done,nofun,rfl⟩
  | succ fuel ih =>
    rw [parsePaxLoop_succ]
    cases hdeclared : declared rest with
    | none =>
      refine ⟨[],i,rest,.done,?_,rfl⟩
      intro sp len hsome
      rw [hdeclared] at hsome
      cases hsome
    | some next =>
      obtain ⟨sp,len⟩:=next
      have hlt:=h [] i rest sp len .done hdeclared
      have hpos:=(declared_pos hdeclared).1
      dsimp only
      rw [if_neg (by omega)]
      split_ifs with hshort
      · refine ⟨[],i,rest,.done,?_,rfl⟩
        intro sp' len' hsome
        rw [hdeclared] at hsome
        cases hsome
        exact hshort
      · obtain ⟨records,j,tail,hrecords,hlast,hloop⟩:=ih (by rw [length_drop]; omega)
          (fun _ _ _ _ _ hrecords => h _ _ _ _ _ (.record hdeclared (by omega) hrecords)) (st.addRecord (rest.take len) sp)
        exact ⟨_,j,tail,.record hdeclared (by omega) hrecords,hlast,hloop⟩

/-- A loop that returns has been in range. -/
theorem inRange_of_parsePaxLoop (hfuel : rest.length≤fuel) {out : PaxState}
    (h : parsePaxLoop fuel i rest st = .ok out) : InRange i rest := by
  intro records j tail sp len hrecords hnext
  induction hrecords generalizing fuel st with
  | done =>
    have hsome:=length_pos_of_ne_nil (declared_pos hnext).2
    obtain ⟨fuel,rfl⟩ : ∃n,fuel=n+1:=⟨fuel - 1,by omega⟩
    rw [parsePaxLoop_succ,hnext] at h
    dsimp only at h
    split_ifs at h <;> omega
  | record hdeclared hle _ ih =>
    obtain ⟨hpos,hsome⟩:=declared_pos hdeclared
    obtain ⟨fuel,rfl⟩ : ∃n,fuel=n+1:=⟨fuel - 1,by have:=length_pos_of_ne_nil hsome; omega⟩
    rw [parsePaxLoop_succ,hdeclared] at h
    dsimp only at h
    split_ifs at h
    · omega
    · exact ih (by rw [length_drop]; omega) h hnext

theorem parsePaxRecords_eq (data : Bytes) :
    parsePaxRecords data=(parsePaxLoop data.length 0 data {}).map PaxState.parsed := by
  rw [parsePaxRecords]
  cases parsePaxLoop data.length 0 data {} <;> rfl

theorem readsLongest_iff (data : Bytes) : ReadsLongest data ↔ InRange 0 data := by
  rw [ReadsLongest,parsePaxRecords_eq]
  constructor
  · rintro ⟨records,j,tail,-,-,h⟩
    cases hloop : parsePaxLoop data.length 0 data {} with
    | error e =>
      rw [hloop] at h
      cases h
    | ok out => exact inRange_of_parsePaxLoop le_rfl hloop
  · intro h
    obtain ⟨records,j,tail,hrecords,hlast,hloop⟩:=parsePaxLoop_of_inRange le_rfl h {}
    exact ⟨records,j,tail,hrecords,hlast,by rw [hloop]; rfl⟩

/-! ## Written records -/

variable {pairs : List (Str × Bytes)} {pre key : Str} {value : Bytes} {xs : Xattrs}

theorem lastValue_concat (pairs : List (Str × Bytes)) (key : Str) (value : Bytes) (other : Str) :
    lastValue (pairs++[(key,value)]) other=if key=other then some value else lastValue pairs other := by
  by_cases h : key=other <;> simp [h,lastValue]

theorem stripped_eq_some {name : Str} : stripped pre key=some name ↔ key=pre++name := by
  rw [stripped]
  split_ifs with h
  · obtain ⟨rest,rfl⟩:=h
    simp
  · refine iff_of_false (fun hnone => by cases hnone) ?_
    rintro rfl
    exact h (prefix_append _ _)

/-- The attributes behind a prefix after one more record. -/
def addAttr (pre key : Str) (value : Bytes) (xs : Xattrs) : Xattrs :=
  ((stripped pre key).map (fun name => xs.insert name value)).getD xs

theorem LastRaw.add (h : LastRaw pre pairs xs) (key : Str) (value : Bytes) :
    LastRaw pre (pairs++[(key,value)]) (addAttr pre key value xs) := by
  intro name raw
  rw [lastValue_concat,addAttr]
  cases hkey : stripped pre key with
  | none =>
    have hne : key≠pre++name := by
      intro heq
      rw [stripped_eq_some.mpr heq] at hkey
      cases hkey
    rw [if_neg hne]
    exact h name raw
  | some stored =>
    obtain rfl:=stripped_eq_some.mp hkey
    by_cases heq : stored=name
    · simp [Xattrs.insert,heq,eq_comm]
    · simp [Xattrs.insert,heq,Ne.symm heq,h name raw]

theorem attrs_record (st : PaxState) (key : Str) (raw : Bytes) :
    (st.record key raw).schily=addAttr schilyXattr key raw st.schily ∧
      (st.record key raw).libarchive=addAttr libarchiveXattr key raw st.libarchive := by
  have hoffset : stripped schilyXattr PaxKey.sparseOffset=none ∧ stripped libarchiveXattr PaxKey.sparseOffset=none := by
    decide +kernel
  have hbytes : stripped schilyXattr PaxKey.sparseNumbytes=none ∧ stripped libarchiveXattr PaxKey.sparseNumbytes=none := by
    decide +kernel
  simp only [PaxState.record,addAttr]
  split_ifs with h1 h2
  · rw [h1,hoffset.1,hoffset.2]
    exact ⟨rfl,rfl⟩
  · rw [h2,hbytes.2]
    split <;> exact ⟨rfl,rfl⟩
  · cases hs : stripped schilyXattr key with
    | none => cases stripped libarchiveXattr key <;> exact ⟨rfl,rfl⟩
    | some name =>
      cases hl : stripped libarchiveXattr key with
      | none => exact ⟨rfl,rfl⟩
      | some other =>
        -- a key begins with one of the two only
        have hhead:=congrArg List.head? ((stripped_eq_some.mp hs).symm.trans (stripped_eq_some.mp hl))
        rw [head?_append,head?_append,show schilyXattr.head?=some 'S' by decide +kernel,
          show libarchiveXattr.head?=some 'L' by decide +kernel] at hhead
        cases hhead

theorem Carries.record (h : Carries st pairs) (key : Str) (value : Bytes) :
    Carries (st.record key value) (pairs++[(key,value)]) := by
  refine ⟨?_,?_,?_⟩
  · intro other
    rw [record_map,lastValue_concat,PaxMap.insert,Function.update_apply]
    by_cases heq : key=other
    · simp [heq]
    · rw [if_neg (Ne.symm heq),if_neg heq,h.map]
  · rw [(attrs_record st key value).1]
    exact h.schily.add key value
  · rw [(attrs_record st key value).2]
    exact h.libarchive.add key value

theorem carries_foldl (pairs : List (Str × Bytes)) :
    Carries (pairs.foldl (fun st kv => st.record kv.1 kv.2) {}) pairs := by
  induction pairs using List.reverseRecOn with
  | nil => exact ⟨fun _ => rfl,by simp [LastRaw,lastValue],by simp [LastRaw,lastValue]⟩
  | append_singleton pairs kv ih =>
    rw [foldl_concat]
    exact ih.record kv.1 kv.2

theorem exists_records (h : ∀kv∈pairs,(paxRecordBody kv.1 kv.2).length<2^63) :
    ∃records,pairs.mapM (fun kv => encodePaxRecord kv.1 kv.2) = .ok records := by
  induction pairs with
  | nil => exact ⟨[],rfl⟩
  | cons kv pairs ih =>
    obtain ⟨record,hrecord⟩:=exists_encodePaxRecord kv.1 kv.2 (h kv mem_cons_self)
    obtain ⟨records,hrecords⟩:=ih fun kv hkv => h kv (mem_cons_of_mem _ hkv)
    exact ⟨record::records,by rw [mapM_cons,hrecord,hrecords]; rfl⟩

/-- A record that declares `2 ^ 64 - 1` bytes behind one that fits. -/
def hugeRecord : Bytes := Utf8.encode "7 a=b\n\n18446744073709551615 c=d\n".toList

end Ratarmount.Tar
