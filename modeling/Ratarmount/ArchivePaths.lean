import Ratarmount.RadixNumerals

/-!
# Paths inside an archive

The text functions that the TAR code applies to member names: trimming, the
collapse of `.`, `..` and empty components, and the normal form that delete
keys and tape names share.
-/

namespace Ratarmount

open List

namespace Str

/-- By name, so that every module decides membership in a list of paths with one term. -/
scoped instance lawfulBEq : LawfulBEq Str := inferInstance

end Str

namespace ArchivePath

/-- The Unicode property that `str::trim` strips. -/
def isWhite (c : Char) : Bool :=
  let n := c.toNat
  (9 ≤ n && n ≤ 13) || n = 0x20 || n = 0x85 || n = 0xA0 || n = 0x1680 || (0x2000 ≤ n && n ≤ 0x200A) ||
    n = 0x2028 || n = 0x2029 || n = 0x202F || n = 0x205F || n = 0x3000

def trimEndWhile (p : Char → Bool) (s : Str) : Str := (s.reverse.dropWhile p).reverse

def trim (s : Str) : Str := trimEndWhile isWhite (s.dropWhile isWhite)

def trimEndSlash (s : Str) : Str := trimEndWhile (· = '/') s

def trimStartSlash (s : Str) : Str := s.dropWhile (· = '/')

/-- `while full.starts_with("./")`. -/
def stripDotSlash : Str → Str
  | '.' :: '/' :: rest => stripDotSlash rest
  | s => s

def join (parts : List Str) : Str := List.intercalate ['/'] parts

/-- One component of `collapse_path`, the parts so far last first. -/
def collapseStep (parts : List Str) (part : Str) : List Str :=
  if part = [] ∨ part = ['.'] then parts
  else if part = ['.','.'] then parts.tail
  else part :: parts

def collapseParts (path : Str) : List Str :=
  ((path.splitOn '/').foldl collapseStep []).reverse

def collapsePath (path : Str) : Str := '/' :: join (collapseParts path)

/-- `collapse_path` never returns the empty string, so neither does `normpath`. -/
def normpath (path : Str) : Str := collapsePath ('/' :: trimStartSlash path)

def normalizeArchiveRelPath (path : Str) : Str :=
  trimStartSlash (normpath (stripDotSlash (trimEndSlash path)))

variable {p : Char → Bool} {s part : Str} {ps qs : List Str}

theorem trimEndWhile_of_last (h : ∀c,s.getLast?=some c → p c=false) : trimEndWhile p s=s := by
  have hrev : s.reverse.dropWhile p=s.reverse := by
    cases hs : s.reverse with
    | nil => rfl
    | cons c t =>
      have hc : p c=false := by
        apply h
        rw [getLast?_eq_head?_reverse,hs]
        rfl
      rw [dropWhile_cons_of_neg (by simp [hc])]
  rw [trimEndWhile,hrev,reverse_reverse]

theorem dropWhile_of_head (h : ∀c,s.head?=some c → p c=false) : s.dropWhile p=s := by
  cases s with
  | nil => rfl
  | cons c t => rw [dropWhile_cons_of_neg (by simp [h c rfl])]

theorem trim_eq (h : ∀c∈s,isWhite c=false) : trim s=s := by
  rw [trim,dropWhile_of_head (fun c hc => h c (mem_of_head? hc)),
    trimEndWhile_of_last (fun c hc => h c (mem_of_getLast? hc))]

/-! ## The normal form -/

/-- A component that `collapse_path` keeps as it is. -/
structure Proper (part : Str) : Prop where
  ne_nil : part ≠ []
  ne_dot : part ≠ ['.']
  ne_dotdot : part ≠ ['.','.']
  no_slash : '/' ∉ part

theorem not_mem_splitOn {a : Char} {xs : Str} (h : part∈xs.splitOn a) : a∉part := by
  induction xs generalizing part with
  | nil =>
    have : part=[] := by simpa using h
    simp [this]
  | cons x xs ih =>
    rw [splitOn_cons_eq_if_modifyHead] at h
    split_ifs at h with hx
    · rcases mem_cons.mp h with rfl | h
      · simp
      · exact ih h
    · cases hs : xs.splitOn a with
      | nil => rw [hs] at h; cases h
      | cons y ys =>
        rw [hs] at h
        rcases mem_cons.mp h with rfl | h
        · have hy : a∉y:=ih (by rw [hs]; exact mem_cons_self)
          have hne : a≠x := by
            rintro rfl
            simp at hx
          simp [hne,hy]
        · exact ih (by rw [hs]; exact mem_cons_of_mem _ h)

theorem collapseStep_proper {parts : List Str} (hs : '/' ∉ part) (h : ∀p∈parts,Proper p) :
    ∀p∈collapseStep parts part,Proper p := by
  intro p hp
  rw [collapseStep] at hp
  split_ifs at hp with h1 h2
  · exact h p hp
  · exact h p (mem_of_mem_tail hp)
  · rcases mem_cons.mp hp with rfl | hp
    · exact ⟨fun e => h1 (Or.inl e),fun e => h1 (Or.inr e),h2,hs⟩
    · exact h p hp

theorem collapseParts_proper (path : Str) : ∀p∈collapseParts path,Proper p := by
  have key : ∀(pieces parts : List Str),(∀p∈pieces, '/' ∉ p)→(∀p∈parts,Proper p) →
      ∀p∈pieces.foldl collapseStep parts,Proper p := by
    intro pieces
    induction pieces with
    | nil => exact fun parts _ h => h
    | cons piece pieces ih =>
      intro parts hpieces h
      exact ih _ (fun p hp => hpieces p (mem_cons_of_mem _ hp))
        (collapseStep_proper (hpieces piece mem_cons_self) h)
  intro p hp
  rw [collapseParts,mem_reverse] at hp
  exact key _ [] (fun p hp => not_mem_splitOn hp) (by simp) p hp

theorem foldl_collapseStep_proper {pieces : List Str} (h : ∀p∈pieces,Proper p) (parts : List Str) :
    pieces.foldl collapseStep parts=pieces.reverse++parts := by
  induction pieces generalizing parts with
  | nil => rfl
  | cons piece pieces ih =>
    have hp:=h piece mem_cons_self
    have hstep : collapseStep parts piece=piece::parts := by
      rw [collapseStep,if_neg (by simp [hp.ne_nil,hp.ne_dot]),if_neg hp.ne_dotdot]
    rw [foldl_cons,hstep,ih (fun p hp => h p (mem_cons_of_mem _ hp)),reverse_cons,append_assoc]
    rfl

@[simp] theorem join_singleton (p : Str) : join [p]=p := by simp [join,List.intercalate]

theorem join_cons_cons (p q : Str) (ps : List Str) : join (p::q::ps)=p ++ '/' :: join (q::ps) := by
  simp [join]

section Join

variable (h : ∀ p ∈ ps, Proper p)
include h

theorem head?_join : ∀c,(join ps).head?=some c → c ≠ '/' := by
  intro c hc
  cases ps with
  | nil => cases hc
  | cons p ps =>
    have hp:=h p mem_cons_self
    have hhead : (join (p::ps)).head?=p.head? := by
      obtain ⟨d,t,rfl⟩:=exists_cons_of_ne_nil hp.ne_nil
      cases ps with
      | nil => simp
      | cons q ps => simp [join_cons_cons]
    rw [hhead] at hc
    rintro rfl
    exact hp.no_slash (mem_of_head? hc)

theorem getLast?_join : ∀c,(join ps).getLast?=some c → c ≠ '/' := by
  induction ps with
  | nil => intro c hc; cases hc
  | cons p ps ih =>
    have hp:=h p mem_cons_self
    cases ps with
    | nil =>
      intro c hc
      rw [join_singleton] at hc
      rintro rfl
      exact hp.no_slash (mem_of_getLast? hc)
    | cons q ps =>
      have hq:=h q (by simp)
      intro c hc
      apply ih (fun p hp => h p (mem_cons_of_mem _ hp)) c
      have hne : join (q::ps)≠[] := by
        cases ps with
        | nil => simpa using hq.ne_nil
        | cons r ps => simp [join_cons_cons]
      rw [join_cons_cons,getLast?_append,getLast?_cons_of_ne_nil hne] at hc
      cases hl : (join (q::ps)).getLast? with
      | none => exact absurd (getLast?_eq_none_iff.mp hl) hne
      | some d => rw [hl] at hc; simpa using hc

/-- A path of proper components is its own collapse. -/
theorem collapseParts_join : collapseParts ('/' :: join ps)=ps := by
  have hsplit : ('/' :: join ps).splitOn '/' = []::(join ps).splitOn '/' := by
    rw [splitOn_cons_eq_if_modifyHead]
    simp
  rw [collapseParts,hsplit,foldl_cons]
  have hnil : collapseStep [] []=[] := by simp [collapseStep]
  rw [hnil]
  by_cases hps : ps=[]
  · subst hps
    rfl
  · rw [join,splitOn_intercalate '/' (fun p hp => (h p hp).no_slash) hps,foldl_collapseStep_proper h,
      append_nil,reverse_reverse]

theorem normpath_join : normpath (join ps) = '/' :: join ps := by
  have hstart : trimStartSlash (join ps)=join ps :=
    dropWhile_of_head (fun c hc => by simpa using head?_join h c hc)
  rw [normpath,collapsePath,hstart,collapseParts_join h]

theorem stripDotSlash_join : stripDotSlash (join ps)=join ps := by
  unfold stripDotSlash
  split
  · rename_i rest heq
    exfalso
    cases ps with
    | nil => cases heq
    | cons p ps =>
      have hp:=h p mem_cons_self
      obtain ⟨d,t,rfl⟩:=exists_cons_of_ne_nil hp.ne_nil
      -- the first component would be `.` alone, or hold a slash
      cases t with
      | nil =>
        cases ps with
        | nil => simp at heq
        | cons q ps =>
          simp [join_cons_cons] at heq
          exact hp.ne_dot (by simp [heq.1])
      | cons e t =>
        have he : e = '/' := by
          cases ps with
          | nil => simp at heq; exact heq.2.1
          | cons q ps => simp [join_cons_cons] at heq; exact heq.2.1
        exact hp.no_slash (by simp [he])
  · rfl

theorem normalize_join : normalizeArchiveRelPath (join ps)=join ps := by
  have hend : trimEndSlash (join ps)=join ps :=
    trimEndWhile_of_last (fun c hc => by simpa using getLast?_join h c hc)
  rw [normalizeArchiveRelPath,hend,stripDotSlash_join h,normpath_join h,trimStartSlash,
    dropWhile_cons_of_pos (by simp)]
  exact dropWhile_of_head (fun c hc => by simpa using head?_join h c hc)

end Join

theorem normalize_eq_join (path : Str) : ∃ps,(∀p∈ps,Proper p) ∧ normalizeArchiveRelPath path=join ps := by
  refine ⟨collapseParts ('/' :: trimStartSlash (stripDotSlash (trimEndSlash path))),collapseParts_proper _,?_⟩
  rw [normalizeArchiveRelPath,normpath,collapsePath,trimStartSlash,dropWhile_cons_of_pos (by simp)]
  exact dropWhile_of_head (fun c hc => by simpa using head?_join (collapseParts_proper _) c hc)

/-- Normalizing a name twice changes nothing more. -/
theorem normalize_normalize (path : Str) :
    normalizeArchiveRelPath (normalizeArchiveRelPath path)=normalizeArchiveRelPath path := by
  obtain ⟨ps,hps,heq⟩:=normalize_eq_join path
  rw [heq,normalize_join hps]

theorem normalize_append_slash (path : Str) : normalizeArchiveRelPath (path++['/'])=normalizeArchiveRelPath path := by
  have hend : trimEndSlash (path++['/'])=trimEndSlash path := by
    rw [trimEndSlash,trimEndSlash,trimEndWhile,trimEndWhile]
    simp
  rw [normalizeArchiveRelPath,normalizeArchiveRelPath,hend]

/-! ## Absolute paths -/

/-- The path with a slash in front of each component. -/
def absolute (ps : List Str) : Str := ps.flatMap (fun p => '/' :: p)

@[simp] theorem absolute_nil : absolute []=[] := rfl

@[simp] theorem absolute_cons (p : Str) (ps : List Str) : absolute (p::ps) = '/' :: (p++absolute ps) := rfl

theorem slash_join (h : ps≠[]) : '/' :: join ps=absolute ps := by
  induction ps with
  | nil => exact absurd rfl h
  | cons p ps ih =>
    cases ps with
    | nil => simp
    | cons q ps => rw [join_cons_cons,ih (by simp),←absolute_cons]

/-! ## Paths below a path -/

/-- The components of `path`, collapsed on top of others that are there already, last first. -/
def collapseOnto (stack : List Str) (path : Str) : List Str := (path.splitOn '/').foldl collapseStep stack

theorem collapseParts_eq (path : Str) : collapseParts path=(collapseOnto [] path).reverse := rfl

@[simp] theorem collapseOnto_nil (stack : List Str) : collapseOnto stack []=stack := by
  simp [collapseOnto,collapseStep]

theorem collapseOnto_append (stack : List Str) (front rest : Str) :
    collapseOnto stack (front ++ '/' :: rest)=collapseOnto (collapseOnto stack front) rest := by
  rw [collapseOnto,splitOn_append_cons_self,foldl_append]
  rfl

theorem collapseOnto_slash (stack : List Str) (path : Str) :
    collapseOnto stack ('/' :: path)=collapseOnto stack path := by
  have h:=collapseOnto_append stack [] path
  rwa [collapseOnto_nil,nil_append] at h

theorem collapseOnto_trimStartSlash (stack : List Str) (path : Str) :
    collapseOnto stack (trimStartSlash path)=collapseOnto stack path := by
  induction path with
  | nil => rfl
  | cons c path ih =>
    by_cases hc : c = '/'
    · rw [hc]
      exact ih
    · rw [trimStartSlash,dropWhile_cons_of_neg (by simpa using hc)]

theorem collapseOnto_trimEndSlash (stack : List Str) (path : Str) :
    collapseOnto stack (trimEndSlash path)=collapseOnto stack path := by
  induction path using List.reverseRecOn with
  | nil => rfl
  | append_singleton path c ih =>
    rw [trimEndSlash,trimEndWhile]
    by_cases hc : c = '/'
    · have happend:=collapseOnto_append stack path []
      rw [hc,happend,←ih]
      simp [trimEndSlash,trimEndWhile]
    · simp [hc]

theorem collapseOnto_stripDotSlash (stack : List Str) (path : Str) :
    collapseOnto stack (stripDotSlash path)=collapseOnto stack path := by
  fun_induction stripDotSlash path with
  | case1 rest ih =>
    rw [ih]
    rfl
  | case2 path => rfl

theorem collapseOnto_absolute (h : ∀p∈ps,Proper p) (stack : List Str) :
    collapseOnto stack (absolute ps)=ps.reverse++stack := by
  by_cases hps : ps=[]
  · subst hps
    simp
  · rw [←slash_join hps,collapseOnto_slash,collapseOnto,join,
      splitOn_intercalate '/' (fun p hp => (h p hp).no_slash) hps,foldl_collapseStep_proper h]

/-- No `..` among the components goes above where they start, `k` levels down. -/
def staysBelow : ℕ → List Str → Bool
  | _, [] => true
  | k, part :: parts =>
    if part = [] ∨ part = ['.'] then staysBelow k parts
    else if part = ['.','.'] then 0 < k && staysBelow (k - 1) parts
    else staysBelow (k + 1) parts

theorem foldl_collapseStep_append {parts stack : List Str} (h : staysBelow stack.length parts=true) (below : List Str) :
    parts.foldl collapseStep (stack++below)=parts.foldl collapseStep stack++below := by
  induction parts generalizing stack with
  | nil => rfl
  | cons part parts ih =>
    rw [staysBelow] at h
    rw [foldl_cons,foldl_cons,collapseStep,collapseStep]
    split_ifs at h ⊢ with hnone hup
    · exact ih h
    · obtain ⟨hk,h⟩:=Bool.and_eq_true_iff.mp h
      cases stack with
      | nil => simp at hk
      | cons s stack => exact ih h
    · exact @ih (part::stack) h

/-- Components of `below` are only lost, and some are where a `..` goes above the start. -/
theorem length_foldl_collapseStep (parts stack below : List Str) :
    (parts.foldl collapseStep (stack++below)).length≤(parts.foldl collapseStep stack).length+below.length ∧
      (staysBelow stack.length parts=false → below≠[] →
        (parts.foldl collapseStep (stack++below)).length<(parts.foldl collapseStep stack).length+below.length) := by
  induction parts generalizing stack below with
  | nil => exact ⟨by simp,nofun⟩
  | cons part parts ih =>
    rw [staysBelow,foldl_cons,foldl_cons,collapseStep,collapseStep]
    split_ifs with hnone hup
    · exact ih stack below
    · cases stack with
      | nil =>
        -- the first step out of `stack` takes a component of `below`
        have hle:=(ih [] below.tail).1
        rw [length_tail] at hle
        simp only [nil_append,tail_nil] at hle ⊢
        refine ⟨by omega,fun _ hbelow => ?_⟩
        have hpos:=length_pos_of_ne_nil hbelow
        omega
      | cons s stack => simpa using ih stack below
    · exact ih (part::stack) below

/-- A path keeps to the directory it is put in exactly if it stays below where it starts. -/
theorem collapseOnto_eq_iff {below : List Str} (hbelow : below≠[]) (path : Str) :
    collapseOnto below path=collapseOnto [] path++below ↔ staysBelow 0 (path.splitOn '/')=true := by
  constructor
  · intro h
    by_contra hescapes
    have hlt:=(length_foldl_collapseStep (path.splitOn '/') [] below).2 (by simpa using hescapes) hbelow
    rw [collapseOnto] at h
    rw [nil_append,h,length_append] at hlt
    exact lt_irrefl _ hlt
  · intro h
    exact @foldl_collapseStep_append (path.splitOn '/') [] h below

end ArchivePath

end Ratarmount
