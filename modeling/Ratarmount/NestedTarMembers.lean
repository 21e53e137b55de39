import Ratarmount.ArchivePaths

/-!
# The side list of nested TARs

An index keeps the nested TARs of its archive as one JSON text in its metadata
table. The writer escapes paths; the reader finds the objects by their braces
and the fields of an object by searching for the quoted name.
-/

namespace Ratarmount.NestedTar

open List Numeral

open ArchivePath (isWhite trim)

structure NestedTarMember where
  path : Str
  offset : UInt64
  size : UInt64
deriving DecidableEq

def isControl (c : Char) : Bool := c.toNat < 32 || (127 ≤ c.toNat && c.toNat < 160)

def hexChars : Str := "0123456789abcdef".toList

def hex4 (n : ℕ) : Str :=
  [n / 4096 % 16,n / 256 % 16,n / 16 % 16,n % 16].map (hexChars.getD · '0')

def escapeChar (c : Char) : Str :=
  if c = '"' then "\\\"".toList
  else if c = '\\' then "\\\\".toList
  else if c = '\n' then "\\n".toList
  else if c = '\r' then "\\r".toList
  else if c = '\t' then "\\t".toList
  else if isControl c then '\\' :: 'u' :: hex4 c.toNat
  else [c]

def jsonEscapeString (s : Str) : Str := '"' :: s.flatMap escapeChar ++ ['"']

def numberFields (m : NestedTarMember) : Str :=
  ",\"offset\":".toList ++ Numeral.text 10 m.offset.toNat ++ ",\"size\":".toList ++ Numeral.text 10 m.size.toNat

/-- One turn of the loop of `format_nested_tar_members_json`, the comma apart. -/
def memberObject (m : NestedTarMember) : Str :=
  '\x7b' :: ("\"path\":".toList ++ jsonEscapeString m.path ++ numberFields m ++ ['\x7d'])

def formatNestedTarMembersJson (members : List NestedTarMember) : Str :=
  '[' :: List.intercalate [','] (members.map memberObject) ++ [']']

/-- `split_once(needle)?.1`. -/
def afterFirst (needle : Str) : Str → Option Str
  | [] => if needle = [] then some [] else none
  | c :: s => if needle <+: c :: s then some ((c :: s).drop needle.length) else afterFirst needle s

def trimStart (s : Str) : Str := s.dropWhile isWhite

/-- What stands behind the colon of a field, as both readers of a field find it. -/
def fieldText (obj key : Str) : Option Str := do
  let rest ← afterFirst ('"' :: key ++ ['"']) obj
  match trimStart rest with
  | ':' :: rest => some (trimStart rest)
  | _ => none

def hexValue (c : Char) : Option ℕ := hexChars.findIdx? (· = c.toLower)

/-- `u32::from_str_radix(h, 16)` and then `char::from_u32`; four digits fit a `u32`. -/
def charOfHex (h : Str) : Option Char := do
  let code := Numeral.value 16 (← (Numeral.dropPlus h).mapM hexValue)
  if code.isValidChar then some (Char.ofNat code) else none

def unescape (c : Char) : Char :=
  if c = 'n' then '\n' else if c = 'r' then '\r' else if c = 't' then '\t' else c

def readString : Str → Option Str
  | [] => none
  | '"' :: _ => some []
  -- `h.len()` counts bytes, but a digit that is not ASCII has no value either
  | '\\' :: 'u' :: a :: b :: c :: d :: s => do return (← charOfHex [a,b,c,d]) :: (← readString s)
  | '\\' :: 'u' :: _ => none
  | '\\' :: c :: s => return unescape c :: (← readString s)
  | ['\\'] => none
  | c :: s => return c :: (← readString s)

def jsonExtractStringField (obj key : Str) : Option Str := do
  match ← fieldText obj key with
  | '"' :: rest => readString rest
  | _ => none

def jsonExtractU64Field (obj key : Str) : Option UInt64 := do
  let num := (← fieldText obj key).takeWhile Char.isDigit
  (Numeral.parse 10 (2 ^ 64) num).map UInt64.ofNat

def parseOneNestedMemberObject (obj : Str) : Option NestedTarMember := do
  let path ← jsonExtractStringField obj "path".toList
  let offset ← jsonExtractU64Field obj "offset".toList
  let size ← jsonExtractU64Field obj "size".toList
  return ⟨path,offset,size⟩

inductive Scan
  | outside | quoted | escaped

def Scan.next : Scan → Char → Scan
  | .outside, c => if c = '"' then .quoted else .outside
  | .quoted, c => if c = '\\' then .escaped else if c = '"' then .outside else .quoted
  | .escaped, _ => .quoted

/-- The characters up to the brace that closes the last of `depth` braces, or to the end of the text. -/
def objectLength : ℕ → Scan → Str → ℕ
  | 0, _, _ | _, _, [] => 0
  | d + 1, .outside, '\x7b' :: s => objectLength (d + 2) .outside s + 1
  | d + 1, .outside, '\x7d' :: s => objectLength d .outside s + 1
  | d + 1, scan, c :: s => objectLength (d + 1) (scan.next c) s + 1

def parseObjects (s : Str) : List NestedTarMember :=
  match _h : s.dropWhile (· ≠ '\x7b') with
  | [] => []
  | c :: body =>
    let n := objectLength 1 .outside body
    (parseOneNestedMemberObject (c :: body.take n)).toList ++ parseObjects (body.drop n)
termination_by s.length
decreasing_by
  have hle := (_h ▸ dropWhile_suffix _ : c :: body <:+ s).length_le
  rw [length_cons] at hle
  rw [length_drop]
  omega

def parseNestedTarMembersJson (s : Str) : List NestedTarMember :=
  let s := trim s
  if s = [] ∨ s = "[]".toList then [] else parseObjects s

variable {c : Char} {p key rest : Str} {m : NestedTarMember}

/-! ### Escaped text -/

theorem hex4_of_control (h : isControl c) :
    charOfHex (hex4 c.toNat)=some c ∧ '"' ∉ hex4 c.toNat ∧ '\\' ∉ hex4 c.toNat := by
  have hall : ∀n<160,charOfHex (hex4 n)=some (Char.ofNat n) ∧ '"' ∉ hex4 n ∧ '\\' ∉ hex4 n := by
    decide +kernel
  have hlt : c.toNat<160 := by
    simp only [isControl,Bool.or_eq_true,Bool.and_eq_true,decide_eq_true_eq] at h
    omega
  have := hall _ hlt
  rwa [Char.ofNat_toNat] at this

theorem readString_escapeChar (c : Char) (s : Str) : readString (escapeChar c++s)=(readString s).map (c::·) := by
  unfold escapeChar
  split_ifs with h1 h2 h3 h4 h5 h6
  iterate 5 subst c; cases h : readString s <;> simp [readString,unescape,h]
  · have := (hex4_of_control h6).1
    simp only [hex4,map_cons,map_nil,cons_append,nil_append,readString] at this ⊢
    rw [this]
    cases readString s <;> rfl
  · rw [singleton_append,readString]
    · cases readString s <;> rfl
    all_goals simp_all

theorem readString_escaped (p rest : Str) : readString (p.flatMap escapeChar ++ '"' :: rest)=some p := by
  induction p with
  | nil => rfl
  | cons c p ih => rw [flatMap_cons,append_assoc,readString_escapeChar,ih,Option.map_some]

theorem quote_notMem_escapeChar (h : c ≠ '"') : '"' ∉ escapeChar c := by
  unfold escapeChar
  split_ifs with h1 h2 h3 h4 h5 h6
  · exact absurd h1 h
  iterate 4 decide
  · simpa using (hex4_of_control h6).2.1
  · simpa using h.symm

/-! ### The search for a field -/

section Search

variable (hkey : key.flatMap escapeChar = key)

theorem afterFirst_skip {xs : Str} (h : '"' ∉ xs) (s : Str) :
    afterFirst ('"' :: key) (xs++s)=afterFirst ('"' :: key) s := by
  induction xs with
  | nil => rfl
  | cons c xs ih =>
    rw [mem_cons,not_or] at h
    rw [cons_append,afterFirst,if_neg (fun hp => h.1 (List.cons_prefix_cons.mp hp).1),ih h.2]

include hkey

/-- Behind a quote, only the name itself reads as the name and a quote. -/
theorem isPrefix_escaped_iff : key++['"'] <+: p.flatMap escapeChar ++ '"' :: rest ↔ p=key := by
  constructor
  · rintro ⟨tail,htail⟩
    have hread:=readString_escaped key tail
    rw [hkey,append_cons,htail,readString_escaped] at hread
    exact Option.some.inj hread
  · rintro rfl
    rw [hkey,append_cons p '"' rest]
    exact prefix_append _ _

theorem afterFirst_escaped (p rest : Str) : afterFirst ('"' :: (key++['"'])) (p.flatMap escapeChar ++ '"' :: rest) =
      if '"' :: key <:+ p then some rest else afterFirst ('"' :: (key++['"'])) ('"' :: rest) := by
  induction p with
  | nil => simp
  | cons c p ih =>
    rw [flatMap_cons,append_assoc]
    by_cases hc : c = '"'
    · subst hc
      -- the escaped quote opens an occurrence exactly when the rest of the path is the name
      have hstep : escapeChar '"' ++ (p.flatMap escapeChar ++ '"' :: rest) =
          ['\\'] ++ '"' :: (p.flatMap escapeChar ++ '"' :: rest) := rfl
      rw [hstep,afterFirst_skip (by decide),afterFirst,ih]
      simp only [cons_prefix_cons,isPrefix_escaped_iff hkey,suffix_cons_iff]
      by_cases hp : p=key
      · subst hp
        simp [hkey]
      · simp [hp,Ne.symm hp]
    · have hsuffix : '"' :: key <:+ c::p ↔ '"' :: key <:+ p := by
        rw [suffix_cons_iff,List.cons.injEq]
        exact or_iff_right (fun h => hc h.1.symm)
      rw [afterFirst_skip (quote_notMem_escapeChar hc),ih]
      simp [hsuffix]

end Search

/-- The path and its opening quote end in a quote and the name: it is the name, or a quote stands before the name. -/
def Hides (key path : Str) : Prop := '"' :: key <:+ '"' :: path

instance (key path : Str) : Decidable (Hides key path) := inferInstanceAs (Decidable (_ <:+ _))

def Lost (m : NestedTarMember) : Prop := Hides "offset".toList m.path ∨ Hides "size".toList m.path

instance : DecidablePred Lost := fun _ => inferInstanceAs (Decidable (_ ∨ _))

theorem afterFirst_memberObject (hkey : key = "offset".toList ∨ key = "size".toList) (m : NestedTarMember) :
    afterFirst ('"' :: key++['"']) (memberObject m) = if Hides key m.path then some (numberFields m++['\x7d'])
      else afterFirst ('"' :: key++['"']) ('"' :: (numberFields m++['\x7d'])) := by
  have hplain : key.flatMap escapeChar=key := by rcases hkey with rfl | rfl <;> decide
  have hopen : afterFirst ('"' :: key++['"']) (memberObject m)=afterFirst ('"' :: key++['"'])
      (('"' :: m.path).flatMap escapeChar ++ '"' :: (numberFields m++['\x7d'])) := by
    rcases hkey with rfl | rfl <;> simp [memberObject,jsonEscapeString,escapeChar,afterFirst]
  rw [hopen]
  exact afterFirst_escaped hplain _ _

theorem digit_of_text {n : ℕ} (h : c∈Numeral.text 10 n) : c.isDigit=true ∧ isWhite c=false := by
  have hc:=mem_text (by omega) (by omega) h
  constructor
  · rw [Char.isDigit,Bool.and_eq_true,decide_eq_true_eq,decide_eq_true_eq,ge_iff_le,UInt32.le_iff_toNat_le,
      UInt32.le_iff_toNat_le]
    exact ⟨hc.1,Nat.le_of_lt_succ hc.2⟩
  · simp [isWhite]
    omega

theorem takeWhile_text (n : ℕ) (s : Str) (hc : c.isDigit=false) :
    (trimStart (Numeral.text 10 n++c::s)).takeWhile Char.isDigit=Numeral.text 10 n := by
  have hstart : trimStart (Numeral.text 10 n++c::s)=Numeral.text 10 n++c::s := by
    have hne:=textDigits_ne_nil (by omega : 2≤10) n
    cases htext : Numeral.text 10 n with
    | nil => exact absurd (List.map_eq_nil_iff.mp ((text_eq n).symm.trans htext)) hne
    | cons d ds =>
      have hd:=(digit_of_text (htext ▸ mem_cons_self)).2
      exact dropWhile_cons_of_neg (by simp [hd])
  rw [hstart,takeWhile_append_of_pos (fun d hd => (digit_of_text hd).1),
    takeWhile_cons_of_neg (by simp [hc]),append_nil]

theorem jsonExtractU64Field_eq (hkey : key = "offset".toList ∨ key = "size".toList) (n : UInt64) (s : Str)
    (hc : c.isDigit=false) (hafter : afterFirst ('"' :: key++['"']) ('"' :: (numberFields m++['\x7d'])) =
      some (':' :: (Numeral.text 10 n.toNat++c::s))) :
    jsonExtractU64Field (memberObject m) key=if Hides key m.path then none else some n := by
  rw [jsonExtractU64Field,fieldText,afterFirst_memberObject hkey]
  split_ifs with h
  · -- a comma follows the path's closing quote
    rfl
  · have hparse:=Numeral.parse_text (by omega : 2≤10) (le_refl 10) 0 n.toNat_lt
    rw [replicate_zero,nil_append] at hparse
    rw [hafter]
    change (Numeral.parse 10 (2^64) (List.takeWhile _ (trimStart _))).map _=_
    rw [takeWhile_text n.toNat s hc,hparse,Option.map_some,UInt64.ofNat_toNat]

theorem jsonExtractU64Field_offset (m : NestedTarMember) : jsonExtractU64Field (memberObject m) "offset".toList =
      if Hides "offset".toList m.path then none else some m.offset := by
  have hafter (a b : Str) : afterFirst ('"' :: "offset".toList++['"'])
      ('"' :: (",\"offset\":".toList++(a++(",\"size\":".toList++b)))) =
        some (':' :: (a ++ ',' :: ("\"size\":".toList++b))) := by
    simp [afterFirst]
  have hfields:=hafter (Numeral.text 10 m.offset.toNat) (Numeral.text 10 m.size.toNat++['\x7d'])
  simp only [←append_assoc] at hfields
  exact jsonExtractU64Field_eq (.inl rfl) m.offset _ (by decide) hfields

theorem jsonExtractU64Field_size (m : NestedTarMember) :
    jsonExtractU64Field (memberObject m) "size".toList=if Hides "size".toList m.path then none else some m.size := by
  have hafter {a : Str} (ha : '"' ∉ a) (b : Str) : afterFirst ('"' :: "size".toList++['"'])
      ('"' :: (",\"offset\":".toList++(a++(",\"size\":".toList++b))))=some (':' :: b) := by
    have hskip:=@afterFirst_skip ("size".toList++['"']) a ha (",\"size\":".toList++b)
    simp [afterFirst] at hskip ⊢
    rw [hskip]
  have hquote : '"' ∉ Numeral.text 10 m.offset.toNat := by
    intro h
    have := (digit_of_text h).1
    contradiction
  have hfields:=hafter hquote (Numeral.text 10 m.size.toNat++['\x7d'])
  simp only [←append_assoc] at hfields
  exact jsonExtractU64Field_eq (.inr rfl) m.size [] (by decide) hfields

theorem jsonExtractStringField_path (m : NestedTarMember) :
    jsonExtractStringField (memberObject m) "path".toList=some m.path := by
  have hafter (s : Str) : afterFirst ('"' :: "path".toList++['"']) ('\x7b' :: ("\"path\":".toList ++ '"' :: s)) =
      some (':' :: '"' :: s) := by
    simp [afterFirst]
  have hobject : memberObject m = '\x7b' :: ("\"path\":".toList ++
      '"' :: (m.path.flatMap escapeChar ++ '"' :: (numberFields m++['\x7d']))) := by
    simp [memberObject,jsonEscapeString]
  rw [jsonExtractStringField,fieldText,hobject,hafter]
  exact readString_escaped m.path _

theorem parseOneNestedMemberObject_memberObject (m : NestedTarMember) :
    parseOneNestedMemberObject (memberObject m)=if Lost m then none else some m := by
  rw [parseOneNestedMemberObject,jsonExtractStringField_path,jsonExtractU64Field_offset,jsonExtractU64Field_size]
  by_cases ho : Hides "offset".toList m.path
  · rw [if_pos ho,if_pos (show Lost m from .inl ho)]
    rfl
  by_cases hs : Hides "size".toList m.path
  · rw [if_neg ho,if_pos hs,if_pos (show Lost m from .inr hs)]
    rfl
  · rw [if_neg ho,if_neg hs,if_neg (show ¬Lost m from not_or.mpr ⟨ho,hs⟩)]
    rfl

/-! ### The search for the objects -/

/-- The text leaves the depth alone. -/
def Passes (scan : Scan) (xs : Str) (scan' : Scan) : Prop :=
  ∀ d s, objectLength (d + 1) scan (xs ++ s) = objectLength (d + 1) scan' s + xs.length

theorem Passes.append {scan scan' scan'' : Scan} {xs ys : Str} (hx : Passes scan xs scan')
    (hy : Passes scan' ys scan'') : Passes scan (xs++ys) scan'' := by
  intro d s
  rw [append_assoc,hx,hy,length_append]
  omega

theorem Passes.flatMap {scan : Scan} {xs : Str} {f : Char → Str} (h : ∀c∈xs,Passes scan (f c) scan) :
    Passes scan (xs.flatMap f) scan := by
  induction xs with
  | nil => exact fun _ _ => rfl
  | cons c xs ih => exact (h c mem_cons_self).append (ih (fun c hc => h c (mem_cons_of_mem _ hc)))

theorem passes_plain (h : c ≠ '"') (h' : c ≠ '\\') : Passes .quoted [c] .quoted := by
  intro d s
  simp [objectLength,Scan.next,h,h']

theorem passes_escapeChar (c : Char) : Passes .quoted (escapeChar c) .quoted := by
  unfold escapeChar
  split_ifs with h1 h2 h3 h4 h5 h6
  iterate 5
    intro d s
    simp [objectLength,Scan.next]
  · have hu : Passes .quoted ['\\','u'] .quoted := by
      intro d s
      simp [objectLength,Scan.next]
    have hhex:=Passes.flatMap (fun x hx => passes_plain (fun h => (hex4_of_control h6).2.1 (h ▸ hx))
        (fun h => (hex4_of_control h6).2.2 (h ▸ hx)))
    exact hu.append hhex
  · exact passes_plain h1 h2

theorem passes_text (n : ℕ) : Passes .outside (Numeral.text 10 n) .outside := by
  rw [←flatMap_singleton' (Numeral.text 10 n)]
  apply Passes.flatMap
  intro c hc d s
  have hdigit:=(digit_of_text hc).1
  have h1 : c ≠ '\x7b' := by rintro rfl; contradiction
  have h2 : c ≠ '\x7d' := by rintro rfl; contradiction
  have h3 : c ≠ '"' := by rintro rfl; contradiction
  simp [objectLength,Scan.next,h1,h2,h3]

theorem passes_fields {a b : Str} (ha : Passes .outside a .outside) (hb : Passes .outside b .outside) (p : Str) :
    Passes .outside ("\"path\":".toList++jsonEscapeString p++(",\"offset\":".toList++a ++ ",\"size\":".toList++b))
      .outside := by
  have hpath : Passes .outside "\"path\":\"".toList .quoted := fun d s => by simp [objectLength,Scan.next]
  have hoffset : Passes .quoted "\",\"offset\":".toList .outside := fun d s => by simp [objectLength,Scan.next]
  have hsize : Passes .outside ",\"size\":".toList .outside := fun d s => by simp [objectLength,Scan.next]
  have hescaped : Passes .quoted (p.flatMap escapeChar) .quoted:=Passes.flatMap (fun c _ => passes_escapeChar c)
  simpa [jsonEscapeString] using hpath.append (hescaped.append (hoffset.append (ha.append (hsize.append hb))))

theorem parseObjects_skip (h : c ≠ '\x7b') (s : Str) : parseObjects (c::s)=parseObjects s := by
  rw [parseObjects,parseObjects,dropWhile_cons_of_pos (by simpa using h)]

theorem parseObjects_object {fields : Str} (h : Passes .outside fields .outside) (s : Str) :
    parseObjects ('\x7b' :: (fields++['\x7d'])++s) =
      (parseOneNestedMemberObject ('\x7b' :: (fields++['\x7d']))).toList++parseObjects s := by
  have hlength : objectLength 1 .outside (fields++['\x7d']++s)=(fields++['\x7d']).length := by
    rw [append_assoc,h,singleton_append,objectLength,objectLength,length_append,zero_add,add_comm,length_singleton]
  rw [cons_append,parseObjects]
  split <;> rename_i heq <;> rw [dropWhile_cons_of_neg (by simp)] at heq
  · exact absurd heq (cons_ne_nil _ _)
  · obtain ⟨rfl,rfl⟩:=List.cons.inj heq
    simp only [hlength,take_left,drop_left]

theorem parseObjects_memberObject (m : NestedTarMember) (s : Str) :
    parseObjects (memberObject m++s)=[m].filter (¬Lost ·)++parseObjects s := by
  have hpass:=passes_fields (passes_text m.offset.toNat) (passes_text m.size.toNat) m.path
  have hstep : parseObjects (memberObject m++s) =
      (parseOneNestedMemberObject (memberObject m)).toList++parseObjects s := parseObjects_object hpass s
  rw [hstep,parseOneNestedMemberObject_memberObject]
  by_cases h : Lost m <;> simp [h]

theorem parseObjects_members (members : List NestedTarMember) :
    parseObjects (List.intercalate [','] (members.map memberObject)++[']'])=members.filter (¬Lost ·) := by
  have hclose : parseObjects [']']=[] := by
    rw [parseObjects]
    rfl
  induction members with
  | nil => exact hclose
  | cons m members ih =>
    rw [map_cons,←singleton_append (l := members),filter_append,←ih]
    cases members with
    | nil => rw [map_nil,intercalate_singleton,parseObjects_memberObject,intercalate_nil,nil_append]
    | cons m' members =>
      rw [map_cons,intercalate_cons_cons,append_assoc,append_assoc,parseObjects_memberObject,
        singleton_append,parseObjects_skip (by decide)]

theorem parse_format_iff (members : List NestedTarMember) :
    parseNestedTarMembersJson (formatNestedTarMembersJson members) = members ↔ ∀ m ∈ members, ¬Lost m := by
  have htrim : trim (formatNestedTarMembersJson members) = formatNestedTarMembersJson members := by
    rw [trim,formatNestedTarMembersJson,cons_append,dropWhile_cons_of_neg (by decide)]
    apply ArchivePath.trimEndWhile_of_last
    intro c hc
    rw [← cons_append,getLast?_concat] at hc
    rw [← Option.some.inj hc]
    rfl
  have hparse : parseNestedTarMembersJson (formatNestedTarMembersJson members) =
      parseObjects (formatNestedTarMembersJson members) := by
    rw [parseNestedTarMembersJson,htrim]
    split_ifs with h
    · rcases h with h | h
      · exact absurd h (cons_ne_nil _ _)
      · rw [h,parseObjects]
        rfl
    · rfl
  rw [hparse,formatNestedTarMembersJson,cons_append,parseObjects_skip (by decide),parseObjects_members,
    filter_eq_self]
  simp

/-- A nested TAR whose path ends in a quote and a field's name is not in the list that is read back. -/
theorem parse_format_offset :
    parseNestedTarMembersJson (formatNestedTarMembersJson [⟨"/\"offset".toList,0,512⟩]) = [] := by
  decide +kernel

end Ratarmount.NestedTar
