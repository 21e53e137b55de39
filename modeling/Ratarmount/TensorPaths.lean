import Mathlib.Data.List.TakeWhile
import Ratarmount.ArchivePaths

/-!
# Paths of a tensor mount

The rows `build_index` makes for the names of a model file: a directory for every
text before a slash, and for each tensor its file and its JSON sidecar. The sets of
paths and directories are lists without repetition.
-/

namespace Ratarmount.Tensors

open List ArchivePath
open scoped Str

def hexDigit (n : ℕ) : Char := Char.ofNat (if n < 10 then 48 + n else 55 + n)

def isLiteral (b : ℕ) : Bool :=
  (48 ≤ b && b ≤ 57) || (65 ≤ b && b ≤ 90) || (97 ≤ b && b ≤ 122) || b = 95 || b = 45

def encodeByte (b : UInt8) : Str :=
  if isLiteral b.toNat then [Char.ofNat b.toNat] else ['%',hexDigit (b.toNat / 16),hexDigit (b.toNat % 16)]

def encodePart (part : Str) : Str :=
  if part = [] then "%EMPTY".toList
  else if part = "__metadata__".toList ∨ part = "__header__".toList then "%5F".toList ++ part.tail
  else (Utf8.encode part).flatMap encodeByte

def tensorPath (name : Str) : Str := join ((name.splitOn '.').map encodePart)

/-- The text before each slash. -/
def beforeSlashes : Str → List Str
  | [] => []
  | c :: rest => (if c = '/' then [[]] else []) ++ (beforeSlashes rest).map (c :: ·)

def directories (names : List Str) : List Str := (names.flatMap fun name => beforeSlashes (tensorPath name)).dedup

def filePath (names : List Str) (name : Str) : Str :=
  if tensorPath name ∈ directories names then tensorPath name ++ ".tensor".toList else tensorPath name

def tensorPaths (names : List Str) (name : Str) : List Str := [filePath names name,filePath names name ++ ".json".toList]

inductive Row where
  | directory (path : Str)
  | file (path : Str)

def Row.path : Row → Str
  | directory path | file path => path

def buildIndex (names : List Str) (rawHeader : Bool) : Except String (List Row) :=
  if (names.map tensorPath).dedup.length ≠ names.length then .error "duplicate tensor name"
  else .ok ((directories names).map .directory ++ (names.flatMap (tensorPaths names)).map .file ++
    .file "__metadata__.json".toList :: if rawHeader then [.file "__header__.json".toList] else [])

def hexValue (c : Char) : ℕ := if c.toNat < 58 then c.toNat - 48 else c.toNat - 55

def unescape : Str → Bytes
  | '%' :: hi :: lo :: rest => UInt8.ofNat (hexValue hi * 16 + hexValue lo) :: unescape rest
  | c :: rest => UInt8.ofNat c.toNat :: unescape rest
  | [] => []

def decodePart (part : Str) : Str := if part = "%EMPTY".toList then [] else Utf8.decodeLossy (unescape part)

/-- The name of the tensor with this file or sidecar. -/
def recoverName (path : Str) : Str :=
  intercalate ['.'] (((path.takeWhile (· ≠ '.')).splitOn '/').map decodePart)

/-- A byte is one literal character, or a percent sign and two digits. -/
theorem encodeByte_cases (b : UInt8) : (∃c,encodeByte b=[c] ∧ c∉['%','/','.'] ∧ UInt8.ofNat c.toNat=b) ∨
      ∃hi lo,encodeByte b=['%',hi,lo] ∧ hi∉['/','.'] ∧ lo∉['/','.','M'] ∧
        UInt8.ofNat (hexValue hi*16+hexValue lo)=b := by
  have hall : ∀n<256,if isLiteral n=true then Char.ofNat n∉['%','/','.'] ∧ (Char.ofNat n).toNat=n
      else hexDigit (n / 16)∉['/','.'] ∧ hexDigit (n % 16)∉['/','.','M'] ∧
        hexValue (hexDigit (n / 16))*16+hexValue (hexDigit (n % 16))=n := by
    decide +kernel
  have hb:=hall b.toNat b.toNat_lt
  rw [encodeByte]
  split_ifs at hb ⊢
  · exact .inl ⟨_,rfl,hb.1,by rw [hb.2,UInt8.ofNat_toNat]⟩
  · exact .inr ⟨_,_,rfl,hb.1,hb.2.1,by rw [hb.2.2,UInt8.ofNat_toNat]⟩

theorem unescape_encode (bs : Bytes) : unescape (bs.flatMap encodeByte)=bs := by
  induction bs with
  | nil => rfl
  | cons b bs ih =>
    rw [flatMap_cons]
    rcases encodeByte_cases b with ⟨c,hc,hne,hb⟩ | ⟨hi,lo,hc,-,-,hb⟩
    · rw [hc,singleton_append,unescape,ih,hb]
      exact fun _ _ _ h => absurd h (by simp_all)
    · rw [hc,cons_append,cons_append,singleton_append,unescape,ih,hb]

theorem flatMap_encodeByte_ne_empty (bs : Bytes) : bs.flatMap encodeByte ≠ "%EMPTY".toList := by
  cases bs with
  | nil => decide
  | cons b bs =>
    rw [flatMap_cons]
    rcases encodeByte_cases b with ⟨c,hc,hne,-⟩ | ⟨hi,lo,hc,-,hlo,-⟩ <;> rw [hc] <;> intro h
    · exact hne ((cons.inj h).1 ▸ mem_cons_self)
    · simp_all

theorem decodePart_encodePart (part : Str) : decodePart (encodePart part)=part := by
  rw [encodePart]
  split_ifs with hnil hfixed
  · rw [hnil]
    rfl
  · rcases hfixed with rfl | rfl <;> decide +kernel
  · rw [decodePart,if_neg (flatMap_encodeByte_ne_empty _),unescape_encode,Utf8.decodeLossy_encode]

/-- An encoded part is not empty and has neither slashes nor dots. -/
theorem encodePart_plain (part : Str) : encodePart part≠[] ∧ '/' ∉ encodePart part ∧ '.' ∉ encodePart part := by
  constructor
  · intro h
    have hpart:=decodePart_encodePart part
    rw [h] at hpart
    rw [←hpart] at h
    exact absurd h (by decide)
  · rw [encodePart]
    split_ifs with hnil hfixed
    · decide
    · rcases hfixed with rfl | rfl <;> decide
    · have hbyte : ∀b, '/' ∉ encodeByte b ∧ '.' ∉ encodeByte b := by
        intro b
        rcases encodeByte_cases b with ⟨c,hc,hne,-⟩ | ⟨hi,lo,hc,hhi,hlo,-⟩ <;> grind
      simp [hbyte]

variable {names : List Str} {name path : Str}

theorem splitOn_tensorPath (name : Str) : (tensorPath name).splitOn '/' = (name.splitOn '.').map encodePart := by
  apply splitOn_intercalate
  · intro part hpart
    obtain ⟨p,-,rfl⟩:=mem_map.mp hpart
    exact (encodePart_plain p).2.1
  · simp

theorem mem_join {c : Char} {parts : List Str} (h : c∈join parts) : c = '/' ∨ ∃part∈parts,c∈part := by
  induction parts with
  | nil => cases h
  | cons p parts ih =>
    cases parts with
    | nil => exact .inr ⟨p,mem_cons_self,by simpa using h⟩
    | cons q parts =>
      rw [join_cons_cons,mem_append,mem_cons] at h
      rcases h with h | h | h
      · exact .inr ⟨p,mem_cons_self,h⟩
      · exact .inl h
      · exact (ih h).imp_right fun ⟨part,hpart,hc⟩ => ⟨part,mem_cons_of_mem _ hpart,hc⟩

theorem dot_not_mem_tensorPath (name : Str) : '.' ∉ tensorPath name := by
  intro h
  rcases mem_join h with h | ⟨part,hpart,h⟩
  · cases h
  · obtain ⟨p,-,rfl⟩:=mem_map.mp hpart
    exact (encodePart_plain p).2.2 h

/-- What follows the first dot does not matter. -/
theorem recoverName_tensorPath (name suffix : Str) (h : suffix=[] ∨ suffix.head?=some '.') :
    recoverName (tensorPath name++suffix)=name := by
  have htake : (tensorPath name++suffix).takeWhile (· ≠ '.')=tensorPath name := by
    rw [takeWhile_append_of_pos]
    · rcases h with rfl | h
      · simp
      · cases suffix with
        | nil => simp
        | cons c rest =>
          obtain rfl:=Option.some.inj h
          simp
    · intro c hc
      simpa using fun hdot : c = '.' => dot_not_mem_tensorPath name (hdot ▸ hc)
  rw [recoverName,htake,splitOn_tensorPath,map_map]
  have hid : decodePart ∘ encodePart=id:=funext decodePart_encodePart
  rw [hid,map_id,intercalate_splitOn]

theorem exists_suffix (h : path∈tensorPaths names name) :
    ∃suffix,path=tensorPath name++suffix ∧ '/' ∉ suffix ∧ (suffix=[] ∨ suffix.head?=some '.') := by
  rw [tensorPaths,filePath,mem_pair] at h
  split_ifs at h
  · rcases h with rfl | rfl
    · exact ⟨_,rfl,by decide,.inr rfl⟩
    · exact ⟨_,append_assoc ..,by decide,.inr rfl⟩
  · rcases h with rfl | rfl
    · exact ⟨[],(append_nil _).symm,by decide,.inl rfl⟩
    · exact ⟨_,rfl,by decide,.inr rfl⟩

theorem recoverName_of_mem (h : path∈tensorPaths names name) : recoverName path=name := by
  obtain ⟨suffix,rfl,-,hsuffix⟩:=exists_suffix h
  exact recoverName_tensorPath name suffix hsuffix

theorem mem_beforeSlashes {s : Str} (h : path∈beforeSlashes s) : ∃rest,s=path ++ '/' :: rest := by
  induction s generalizing path with
  | nil => cases h
  | cons c s ih =>
    rw [beforeSlashes,mem_append] at h
    rcases h with h | h
    · split_ifs at h with hc
      · rw [mem_singleton.mp h,hc]
        exact ⟨s,rfl⟩
      · cases h
    · obtain ⟨p,hp,rfl⟩:=mem_map.mp h
      obtain ⟨rest,rfl⟩:=ih hp
      exact ⟨rest,rfl⟩

theorem mem_directories (h : path∈directories names) : ∃name rest,tensorPath name=path ++ '/' :: rest := by
  rw [directories,mem_dedup,mem_flatMap] at h
  obtain ⟨name,-,h⟩:=h
  exact ⟨name,mem_beforeSlashes h⟩

theorem dot_not_mem_directory (h : path∈directories names) : '.' ∉ path := by
  obtain ⟨name,rest,hpath⟩:=mem_directories h
  intro hdot
  apply dot_not_mem_tensorPath name
  rw [hpath]
  exact mem_append_left _ hdot

theorem join_concat_append (front : List Str) (last suffix : Str) :
    join (front++[last])++suffix=join (front++[last++suffix]) := by
  induction front with
  | nil => simp
  | cons p front ih => cases front <;> simp_all [join_cons_cons]

theorem proper_encodePart (part : Str) {suffix : Str} (hslash : '/' ∉ suffix) : Proper (encodePart part++suffix) := by
  obtain ⟨hne,hpart,hdot⟩:=encodePart_plain part
  obtain ⟨c,cs,hcs⟩:=exists_cons_of_ne_nil hne
  rw [hcs] at hpart hdot ⊢
  refine ⟨by simp,?_,?_,by simp_all⟩
  · intro h
    exact hdot ((cons.inj h).1 ▸ mem_cons_self)
  · intro h
    exact hdot ((cons.inj h).1 ▸ mem_cons_self)

theorem proper_of_mem_tensorPaths (h : path∈tensorPaths names name) : ∀part∈path.splitOn '/', Proper part := by
  obtain ⟨suffix,rfl,hslash,-⟩:=exists_suffix h
  obtain ⟨front,last,hparts⟩:=(eq_nil_or_concat' (name.splitOn '.')).resolve_left (by simp)
  have hproper : ∀part∈front.map encodePart++[encodePart last++suffix], Proper part := by
    intro part hpart
    rcases mem_append.mp hpart with hpart | hpart
    · obtain ⟨p,-,rfl⟩:=mem_map.mp hpart
      simpa using @proper_encodePart p [] (by simp)
    · rw [mem_singleton.mp hpart]
      exact proper_encodePart last hslash
  rw [tensorPath,hparts,map_append,map_singleton,join_concat_append,join,
    splitOn_intercalate _ (fun part hpart => (hproper part hpart).no_slash) (by simp)]
  exact hproper

theorem proper_of_mem_directories (h : path∈directories names) : ∀part∈path.splitOn '/', Proper part := by
  intro part hpart
  obtain ⟨name,rest,hpath⟩:=mem_directories h
  have hmem : part∈(tensorPath name).splitOn '/' := by
    rw [hpath,splitOn_append_cons_self]
    exact mem_append_left _ hpart
  rw [splitOn_tensorPath] at hmem
  obtain ⟨p,-,rfl⟩:=mem_map.mp hmem
  simpa using @proper_encodePart p [] (by simp)

theorem proper_splitOn {part : Str} (h : Proper part) : ∀p∈part.splitOn '/', Proper p := by
  have hsplit:=splitOn_intercalate '/' (fun p (hp : p∈[part]) => mem_singleton.mp hp ▸ h.no_slash) (by simp)
  rw [←join,join_singleton] at hsplit
  rw [hsplit]
  intro p hp
  exact mem_singleton.mp hp ▸ h

/-- The names of the fixed files are escaped in the paths of tensors. -/
theorem fixed_not_mem {c : Char} {cs : Str} (hfixed : (tensorPath (recoverName (c::cs))).head?=some '%') (hc : c ≠ '%') :
    c::cs∉tensorPaths names name := by
  intro h
  obtain ⟨suffix,hpath,-⟩:=exists_suffix h
  rw [←recoverName_of_mem h] at hpath
  have hhead:=congrArg head? hpath
  rw [head?_append,hfixed] at hhead
  exact hc (Option.some.inj hhead)

theorem nodup_paths (h : names.Nodup) :
    (directories names++names.flatMap (tensorPaths names)++["__metadata__.json".toList,"__header__.json".toList]).Nodup := by
  have hdot : ∀{path},path∈directories names → path∉names.flatMap (tensorPaths names) := by
    intro path hpath hmem
    obtain ⟨name,-,hmem⟩:=mem_flatMap.mp hmem
    have hno:=dot_not_mem_directory hpath
    rw [tensorPaths,filePath,mem_pair] at hmem
    split_ifs at hmem with hdir
    · rcases hmem with rfl | rfl <;> simp at hno
    · rcases hmem with rfl | rfl
      · exact hdir hpath
      · simp at hno
  have htensors : (names.flatMap (tensorPaths names)).Nodup := by
    rw [nodup_flatMap]
    constructor
    · intro name _
      simp [tensorPaths]
    · apply h.imp
      intro name name' hne path hpath hpath'
      exact hne ((recoverName_of_mem hpath).symm.trans (recoverName_of_mem hpath'))
  rw [nodup_append',nodup_append']
  refine ⟨⟨nodup_dedup _,htensors,fun _ => hdot⟩,by decide,?_⟩
  intro path hpath hfixed
  rw [mem_pair] at hfixed
  rcases mem_append.mp hpath with hpath | hpath
  · have hno:=dot_not_mem_directory hpath
    rcases hfixed with rfl | rfl <;> exact hno (by decide)
  · obtain ⟨name,-,hpath⟩:=mem_flatMap.mp hpath
    rcases hfixed with rfl | rfl <;> exact fixed_not_mem (by decide +kernel) (by decide) hpath

end Ratarmount.Tensors
