import Mathlib.Tactic.IntervalCases
import Ratarmount.LineDiffCorrect
import Ratarmount.PatchHunks
import Ratarmount.RadixNumerals

/-!
# Written patches apply

The groups of an edit script leave only context lines out. The hunks written for them
are read back as they are, and applying them to the old text gives the new one.
-/

namespace Ratarmount.Patch

open List Numeral

variable {script : List Line}

section Groups

/-- The groups so far, the last one first, when `p` was the last changed line. -/
structure Grouped (context len p : ℕ) (done : List ℕ) (gs : List (ℕ × ℕ)) : Prop where
  apart : gs.Pairwise fun later earlier => earlier.2 < later.1
  proper : ∀ g ∈ gs, g.1 ≤ p ∧ g.1 < g.2 ∧ g.2 ≤ min (p + context + 1) len
  covers : ∀ c ∈ done, ∃ g ∈ gs, g.1 ≤ c ∧ c < g.2

variable {context len p i : ℕ} {done : List ℕ} {gs : List (ℕ × ℕ)}

theorem Grouped.group (h : Grouped context len p done gs) (hp : gs=[] ∨ p < i) (hi : i<len) :
    Grouped context len i (done++[i]) (group context len gs i) := by
  have hfresh : ∀g∈gs,g.1 ≤ i ∧ g.1<g.2 ∧ g.2 ≤ min (i+context+1) len := by
    intro g hg
    obtain ⟨h1,h2,h3⟩:=h.proper g hg
    rcases hp with rfl | hlt
    · exact absurd hg not_mem_nil
    · exact ⟨by omega,h2,by omega⟩
  -- the old groups only grow, and one of the new ones has `i`
  have hcovers : ∀{new : List (ℕ × ℕ)},(∀g∈gs,∃g'∈new,g'.1≤g.1 ∧ g.2≤g'.2) →
      (∃g∈new,g.1 ≤ i ∧ i<g.2)→∀c∈done++[i], ∃g∈new,g.1 ≤ c ∧ c<g.2 := by
    intro new hgrown hnew c hc
    rcases mem_append.mp hc with hc | hc
    · obtain ⟨g,hg,h1,h2⟩:=h.covers c hc
      obtain ⟨g',hg',h3,h4⟩:=hgrown g hg
      exact ⟨g',hg',by omega,by omega⟩
    · rw [mem_singleton.mp hc]
      exact hnew
  cases gs with
  | nil =>
    refine ⟨pairwise_singleton _ _,?_,hcovers ?_ ⟨_,mem_singleton_self _,?_⟩⟩
    · intro g hg
      rw [mem_singleton.mp hg]
      omega
    · intro g hg
      exact absurd hg not_mem_nil
    · dsimp only
      omega
  | cons last earlier =>
    obtain ⟨hlater,hearlier⟩:=pairwise_cons.mp h.apart
    obtain ⟨h1,h2,h3⟩:=hfresh last mem_cons_self
    rw [Patch.group]
    split_ifs with hmerge
    · refine ⟨pairwise_cons.mpr ⟨hlater,hearlier⟩,?_,hcovers ?_ ⟨_,mem_cons_self,h1,?_⟩⟩
      · intro g hg
        rcases mem_cons.mp hg with rfl | hg
        · dsimp only
          omega
        · exact hfresh g (mem_cons_of_mem _ hg)
      · intro g hg
        rcases mem_cons.mp hg with rfl | hg
        · refine ⟨_,mem_cons_self,le_rfl,?_⟩
          omega
        · exact ⟨g,mem_cons_of_mem _ hg,le_rfl,le_rfl⟩
      · dsimp only
        omega
    · refine ⟨pairwise_cons.mpr ⟨?_,h.apart⟩,?_,hcovers ?_ ⟨_,mem_cons_self,?_⟩⟩
      · intro g hg
        rcases mem_cons.mp hg with rfl | hg
        · exact Nat.lt_of_not_le hmerge
        · have hbefore:=hlater g hg
          omega
      · intro g hg
        rcases mem_cons.mp hg with rfl | hg
        · dsimp only
          omega
        · exact hfresh g hg
      · intro g hg
        exact ⟨g,mem_cons_of_mem _ hg,le_rfl,le_rfl⟩
      · dsimp only
        omega

theorem Grouped.foldl (h : Grouped context len p done gs) {cs : List ℕ} (hp : gs=[] ∨ ∀c∈cs,p<c)
    (hsorted : cs.Pairwise (·<·)) (hlt : ∀c∈cs,c<len) :
    ∃q,Grouped context len q (done++cs) (cs.foldl (Patch.group context len) gs) := by
  induction cs generalizing p done gs with
  | nil => exact ⟨p,by rw [append_nil]; exact h⟩
  | cons c cs ih =>
    obtain ⟨hfirst,hsorted⟩:=pairwise_cons.mp hsorted
    have hnext:=h.group (hp.imp id fun hall => hall c mem_cons_self) (hlt c mem_cons_self)
    obtain ⟨q,hq⟩:=ih hnext (.inr hfirst) hsorted fun c' hc' => hlt c' (mem_cons_of_mem _ hc')
    rw [append_assoc] at hq
    exact ⟨q,hq⟩

/-- From line `previous` on, all lines outside the groups are context. -/
def Cuts (script : List Line) : ℕ → List (ℕ × ℕ) → Prop
  | previous, [] => previous ≤ script.length ∧ ∀ line ∈ script.drop previous, line.tag = .context
  | previous, (start,stop) :: gs => previous ≤ start ∧ start < stop ∧ stop ≤ script.length ∧
      (∀ line ∈ (script.drop previous).take (start - previous), line.tag = .context) ∧ Cuts script stop gs

theorem mem_changed {c : ℕ} : c∈changed script ↔ ∃line,script[c]?=some line ∧ line.tag ≠ .context := by
  rw [changed,mem_filter,mem_range]
  constructor
  · rintro ⟨hlt,htag⟩
    rw [getElem?_eq_getElem hlt] at htag ⊢
    exact ⟨_,rfl,by simpa using htag⟩
  · rintro ⟨line,hline,htag⟩
    obtain ⟨hlt,-⟩:=List.getElem?_eq_some_iff.mp hline
    rw [hline]
    exact ⟨hlt,by simpa using htag⟩

/-- Lines between two places without a change are context. -/
theorem context_of_unchanged {m n : ℕ} (h : ∀c∈changed script,m ≤ c → n ≤ c) :
    ∀line∈(script.drop m).take (n-m),line.tag = .context := by
  intro line hline
  obtain ⟨j,hj⟩:=mem_iff_getElem?.mp hline
  obtain ⟨hlt,-⟩:=List.getElem?_eq_some_iff.mp hj
  rw [length_take] at hlt
  rw [getElem?_take_of_lt (by omega),getElem?_drop] at hj
  by_contra htag
  have hle:=h (m+j) (mem_changed.mpr ⟨line,hj,htag⟩) (Nat.le_add_right m j)
  omega

theorem cuts_of_covers {previous : ℕ} (hprev : previous ≤ script.length)
    (hapart : gs.Pairwise fun earlier later => earlier.2<later.1)
    (hproper : ∀g∈gs,previous≤g.1 ∧ g.1<g.2 ∧ g.2 ≤ script.length)
    (hcovers : ∀c∈changed script,previous ≤ c→∃g∈gs,g.1 ≤ c ∧ c<g.2) : Cuts script previous gs := by
  induction gs generalizing previous with
  | nil =>
    refine ⟨hprev,?_⟩
    have hnone : ∀c∈changed script,previous ≤ c → script.length ≤ c := by
      intro c hc hle
      obtain ⟨g,hg,-⟩:=hcovers c hc hle
      exact absurd hg not_mem_nil
    have hall:=context_of_unchanged hnone
    rwa [take_of_length_le (by rw [length_drop])] at hall
  | cons g gs ih =>
    obtain ⟨hbehind,hapart⟩:=pairwise_cons.mp hapart
    obtain ⟨h1,h2,h3⟩:=hproper g mem_cons_self
    refine ⟨h1,h2,h3,context_of_unchanged ?_,ih h3 hapart ?_ ?_⟩
    · intro c hc hle
      obtain ⟨g',hg',h4,-⟩:=hcovers c hc hle
      rcases mem_cons.mp hg' with rfl | hg'
      · exact h4
      · have hlt:=hbehind g' hg'
        omega
    · intro g' hg'
      obtain ⟨-,h4,h5⟩:=hproper g' (mem_cons_of_mem _ hg')
      exact ⟨le_of_lt (hbehind g' hg'),h4,h5⟩
    · intro c hc hle
      obtain ⟨g',hg',h4,h5⟩:=hcovers c hc (by omega)
      rcases mem_cons.mp hg' with rfl | hg'
      · omega
      · exact ⟨g',hg',h4,h5⟩

theorem cuts_groups (script : List Line) (context : ℕ) : Cuts script 0 (groups script context) := by
  have hsorted : (changed script).Pairwise (·<·):=pairwise_lt_range.filter _
  have hlt : ∀c∈changed script,c<script.length := by
    intro c hc
    exact mem_range.mp (mem_filter.mp hc).1
  obtain ⟨q,hq⟩:=@Grouped.foldl context script.length 0 [] []
    ⟨.nil,nofun,nofun⟩ _ (.inl rfl) hsorted hlt
  refine cuts_of_covers (Nat.zero_le _) (pairwise_reverse.mpr hq.apart) ?_ ?_
  · intro g hg
    obtain ⟨-,h2,h3⟩:=hq.proper g (mem_reverse.mp hg)
    exact ⟨Nat.zero_le _,h2,by omega⟩
  · intro c hc _
    obtain ⟨g,hg,hin⟩:=hq.covers c (mem_append_right _ hc)
    exact ⟨g,mem_reverse.mpr hg,hin⟩

end Groups

section Written

def hunkOf (before body : List Line) : Hunk where
  oldStart := countOld before + (if countOld body ≠ 0 then 1 else 0)
  oldCount := countOld body
  newCount := countNew body
  lines := body
  raw := header (countOld before) (countOld body) (countNew before) (countNew body) ++ [0x0a] ++ body.flatMap writeLine

def hunkAt (script : List Line) (g : ℕ × ℕ) : Hunk := hunkOf (script.take g.1) ((script.drop g.1).take (g.2 - g.1))

@[simp] theorem countOld_append (s t : List Line) : countOld (s++t)=countOld s+countOld t := by
  rw [countOld,filter_append,length_append,countOld,countOld]

@[simp] theorem countNew_append (s t : List Line) : countNew (s++t)=countNew s+countNew t := by
  rw [countNew,filter_append,length_append,countNew,countNew]

theorem take_upTo {m n : ℕ} (h : m≤n) : script.take n=script.take m++(script.drop m).take (n-m) := by
  rw [←take_add,Nat.add_sub_of_le h]

/-- The written text is that of the hunks of all groups. -/
theorem writeGroups_eq {previous : ℕ} {gs : List (ℕ × ℕ)} (h : Cuts script previous gs) :
    writeGroups script gs (countOld (script.take previous)) (countNew (script.take previous)) previous =
      some ((gs.map (hunkAt script)).flatMap Hunk.raw) := by
  induction gs generalizing previous with
  | nil => rfl
  | cons g gs ih =>
    obtain ⟨start,stop⟩:=g
    obtain ⟨h1,h2,h3,-,hrest⟩:=h
    have hskip : checkedSlice script previous start=some ((script.drop previous).take (start-previous)) :=
      if_pos ⟨h1,by omega⟩
    have hbody : checkedSlice script start stop=some ((script.drop start).take (stop-start)) :=
      if_pos ⟨le_of_lt h2,h3⟩
    have hih:=ih hrest
    rw [take_upTo (le_of_lt h2)] at hih
    rw [take_upTo h1] at hih
    rw [writeGroups,hskip,hbody]
    simp only [Option.bind_eq_bind,Option.bind_some,←countOld_append,←countNew_append] at hih ⊢
    rw [hih,Option.bind_some,map_cons,flatMap_cons,hunkAt,hunkOf,←take_upTo h1]

end Written

section Reading

theorem decimal_eq (n : ℕ) : decimal n=(Numeral.textDigits 10 n).map fun digit => UInt8.ofNat (0x30+digit) := by
  rw [decimal,Numeral.textDigits,digits_eq (by decide) (le_refl n)]
  split_ifs <;> rfl

theorem decimal_digit {n : ℕ} : ∀byte∈decimal n,0x30≤byte ∧ byte≤0x39 := by
  intro byte hbyte
  rw [decimal_eq] at hbyte
  obtain ⟨digit,hdigit,rfl⟩:=mem_map.mp hbyte
  have hlt:=textDigits_lt (by decide) hdigit
  interval_cases digit <;> decide

theorem decimal_ne_nil (n : ℕ) : decimal n≠[] := by
  rw [decimal_eq,ne_eq,map_eq_nil_iff]
  exact textDigits_ne_nil (by decide) n

theorem foldl_decimal (n : ℕ) : (decimal n).foldl (fun value byte => value*10+(byte.toNat-0x30)) 0=n := by
  rw [decimal_eq,foldl_map]
  refine (foldl_ext _ _ _ fun value digit hdigit => ?_).trans (value_textDigits (by decide) n)
  have hlt:=textDigits_lt (by decide) hdigit
  rw [UInt8.toNat_ofNat_of_lt' (show 0x30+digit<256 by omega),Nat.add_sub_cancel_left]

theorem number_decimal {n : ℕ} (h : n<2^64) : number (decimal n) = .ok n := by
  rw [number,if_neg,foldl_decimal,if_pos h]
  rintro (hnil | hdigit)
  · exact decimal_ne_nil n hnil
  · exact hdigit decimal_digit

variable {sep byte : UInt8} {piece : Bytes} {rest : List Bytes} {line : Line} {body : List Line}
  {oldCount newCount old new : ℕ} {pieces : List (List Line × List Line)}

theorem splitByte_append {rest : Bytes} (h : sep∉piece) :
    splitByte sep (piece++sep::rest)=piece::splitByte sep rest := by
  induction piece with
  | nil => rw [nil_append,splitByte,if_pos rfl]
  | cons byte piece ih =>
    rw [mem_cons,not_or] at h
    rw [cons_append,splitByte,if_neg (Ne.symm h.1),ih h.2]

theorem splitByte_single (h : sep∉piece) : splitByte sep piece=[piece] := by
  induction piece with
  | nil => rfl
  | cons byte piece ih =>
    rw [mem_cons,not_or] at h
    rw [splitByte,if_neg (Ne.symm h.1),ih h.2]

theorem not_mem_decimal (h : ¬(0x30≤byte ∧ byte≤0x39)) (n : ℕ) : byte∉decimal n :=
  fun hmem => h (decimal_digit byte hmem)

theorem parseRange_range {before count : ℕ} (h : before+1+count<2^64) (sign : UInt8) :
    parseRange (sign::range before count) sign = .ok (before+(if count≠0 then 1 else 0),count) := by
  obtain ⟨start,hstart⟩ : ∃start,start=before+(if count≠0 then 1 else 0):=⟨_,rfl⟩
  have hok : ¬((none : Option Bytes).isSome ∨ (count > 0 ∧ start=0) ∨ start+count ≥ 2^64) := by
    rw [Option.isSome_none,Bool.false_eq_true,false_or]
    split_ifs at hstart <;> omega
  have hcomma : (0x2c : UInt8)∉decimal start:=not_mem_decimal (by decide) start
  rw [parseRange,if_neg (not_not_intro rfl),range,←hstart]
  split_ifs with hone
  · rw [splitByte_single hcomma]
    simp only [headD_cons,number_decimal (show start<2^64 by omega)]
    subst hone
    exact if_neg hok
  · rw [splitByte_append hcomma,splitByte_single (not_mem_decimal (by decide) count)]
    simp only [headD_cons,number_decimal (show start<2^64 by omega),ok_bind,getElem?_cons_succ,
      getElem?_cons_zero,number_decimal (show count<2^64 by omega)]
    exact if_neg hok

theorem not_mem_range (h : ¬(0x30≤byte ∧ byte≤0x39)) (hcomma : byte≠0x2c) (before count : ℕ) :
    byte∉range before count := by
  rw [range]
  split_ifs
  all_goals
    first
    | exact not_mem_decimal h _
    | rw [mem_append,mem_cons]
      rintro (hmem | hmem | hmem)
      · exact not_mem_decimal h _ hmem
      · exact hcomma hmem
      · exact not_mem_decimal h _ hmem

theorem splitByte_header (oldBefore oldCount newBefore newCount : ℕ) :
    splitByte 0x20 (header oldBefore oldCount newBefore newCount) =
      [[0x40,0x40],0x2d::range oldBefore oldCount,0x2b::range newBefore newCount,[0x40,0x40]] := by
  have hspace : ∀(sign : UInt8),sign≠0x20→∀before count,(0x20 : UInt8)∉sign::range before count := by
    intro sign hsign before count
    rw [mem_cons,not_or]
    exact ⟨hsign.symm,not_mem_range (by decide) (by decide) before count⟩
  have hparts : header oldBefore oldCount newBefore newCount=[0x40,0x40]++0x20::((0x2d::range oldBefore oldCount) ++
      0x20::((0x2b::range newBefore newCount)++0x20::[0x40,0x40])) := by
    simp [header]
  rw [hparts,splitByte_append (by decide),splitByte_append (hspace _ (by decide) _ _),
    splitByte_append (hspace _ (by decide) _ _),splitByte_single (by decide)]

theorem newline_not_mem_header (oldBefore oldCount newBefore newCount : ℕ) :
    (0x0a : UInt8)∉header oldBefore oldCount newBefore newCount := by
  have hrange : ∀before count,(0x0a : UInt8)∉range before count:=not_mem_range (by decide) (by decide)
  rw [header]
  simp only [mem_append,not_or]
  exact ⟨⟨⟨⟨by decide,hrange _ _⟩,by decide⟩,hrange _ _⟩,by decide⟩

theorem trimLf_concat (line : Bytes) : trimLf (line++[0x0a])=line := by
  rw [trimLf,getLast?_concat,if_pos rfl,dropLast_concat]

theorem splitInclusive_append {line rest : Bytes} (h : 0x0a∉line) :
    splitInclusive (line++0x0a::rest)=(line++[0x0a])::splitInclusive rest := by
  induction line with
  | nil => rw [nil_append,splitInclusive,if_pos rfl,nil_append]
  | cons byte line ih =>
    rw [mem_cons,not_or] at h
    rw [cons_append,splitInclusive,if_neg (Ne.symm h.1),ih h.2,cons_append]

def textLines (line : Line) : List Bytes :=
  if line.text.getLast? = some 0x0a then [line.tag.byte :: line.text]
  else [line.tag.byte :: line.text ++ [0x0a],noNewline ++ [0x0a]]

theorem splitInclusive_writeLine (h : IsLine line.text) (rest : Bytes) :
    splitInclusive (writeLine line++rest)=textLines line++splitInclusive rest := by
  obtain ⟨body,hbody,hline⟩:=h
  have htag : (0x0a : UInt8)∉line.tag.byte::body := by
    rw [mem_cons,not_or]
    refine ⟨?_,hbody⟩
    cases line.tag <;> decide
  rcases hline with htext | ⟨htext,-⟩
  · rw [writeLine,textLines,htext,getLast?_concat,if_pos rfl,if_pos rfl,append_nil,cons_append,
      append_assoc,←cons_append,singleton_append,splitInclusive_append htag]
    rfl
  · have hlast : ¬line.text.getLast?=some 0x0a := by
      rw [htext]
      exact fun hlast => hbody (mem_of_getLast? hlast)
    rw [writeLine,textLines,if_neg hlast,if_neg hlast,htext,append_assoc,append_assoc,cons_append,
      cons_append,←cons_append,splitInclusive_append htag,singleton_append,
      splitInclusive_append (by decide)]
    rfl

theorem splitInclusive_body (h : ∀line∈body,IsLine line.text) (rest : Bytes) :
    splitInclusive (body.flatMap writeLine++rest)=body.flatMap textLines++splitInclusive rest := by
  induction body with
  | nil => rfl
  | cons line body ih =>
    rw [flatMap_cons,append_assoc,splitInclusive_writeLine (h line mem_cons_self),
      ih fun l hl => h l (mem_cons_of_mem _ hl),flatMap_cons,append_assoc]

/-- The lines do not begin with the marker of a missing newline. -/
def NoMarker (rest : List Bytes) : Prop := ∀ next ∈ rest.head?, trimLf next ≠ noNewline

theorem noMarker_textLines (h : NoMarker rest) : NoMarker (body.flatMap textLines++rest) := by
  cases body with
  | nil => exact h
  | cons line body =>
    have hbyte : line.tag.byte≠0x5c := by cases line.tag <;> decide
    have hne : ∀tail,trimLf (line.tag.byte::tail)≠noNewline := by
      intro tail heq
      have hhead : (trimLf (line.tag.byte::tail)).head?=some 0x5c := by rw [heq]; rfl
      rw [trimLf] at hhead
      split_ifs at hhead
      · cases tail with
        | nil => cases hhead
        | cons t tail => exact hbyte (Option.some.inj hhead)
      · exact hbyte (Option.some.inj hhead)
    intro next hnext
    rw [flatMap_cons,textLines] at hnext
    split_ifs at hnext
    · cases hnext
      exact hne _
    · cases hnext
      exact hne _

theorem readBody_textLines (hline : IsLine line.text) (hrest : NoMarker rest)
    (hold : old+countOld [line]≤oldCount) (hnew : new+countNew [line]≤newCount) (lines : List Line) (raw : Bytes) :
    readBody oldCount newCount (textLines line++rest) old new lines raw =
      readBody oldCount newCount rest (old+countOld [line]) (new+countNew [line]) (lines++[line]) (raw++writeLine line) := by
  have htag : ∀tail,readTag (line.tag.byte::tail) = .ok (line.tag,countOld [line],countNew [line]) := by
    intro tail
    obtain ⟨tag,text⟩:=line
    cases tag <;> rfl
  have hmore : old<oldCount ∨ new<newCount := by
    obtain ⟨tag,text⟩:=line
    cases tag
    · exact .inl hold
    · exact .inl hold
    · exact .inr hnew
  have hok : ∀{text : Bytes},text.getLast?=some 0x0a→¬(old+countOld [line] > oldCount ∨
      new+countNew [line] > newCount ∨ text.getLast?≠some 0x0a) := by
    rintro text hend (h | h | h)
    · omega
    · omega
    · exact h hend
  rw [textLines,writeLine]
  split_ifs with hlast
  · have hend : (line.tag.byte::line.text).getLast?=some 0x0a := by
      rw [getLast?_cons,hlast]
      rfl
    rw [singleton_append,readBody,if_pos hmore,htag,ok_bind]
    simp only [if_neg (hok hend),tail_cons,append_nil]
    cases rest with
    | nil => rfl
    | cons next behind => simp only [if_neg (hrest next rfl)]
  · have hend : (line.tag.byte::line.text++[0x0a]).getLast?=some 0x0a:=getLast?_concat
    rw [cons_append,singleton_append,readBody,if_pos hmore,cons_append,htag,ok_bind]
    simp only [←cons_append,if_neg (hok hend),if_pos (trimLf_concat noNewline)]
    have htail : (line.tag.byte::line.text++[0x0a]).tail.dropLast=line.text:=dropLast_concat
    rw [htail]
    congr 1
    simp

theorem readBody_eq (hbody : ∀line∈body,IsLine line.text) (hrest : NoMarker rest)
    (hold : old+countOld body=oldCount) (hnew : new+countNew body=newCount) (lines : List Line) (raw : Bytes) :
    readBody oldCount newCount (body.flatMap textLines++rest) old new lines raw =
      .ok (lines++body,raw++body.flatMap writeLine,rest) := by
  induction body generalizing old new lines raw with
  | nil =>
    have hdone : ¬(old<oldCount ∨ new<newCount) := by
      have hnil : countOld []=0 ∧ countNew []=0:=⟨rfl,rfl⟩
      omega
    rw [flatMap_nil,nil_append,append_nil,flatMap_nil,append_nil]
    cases rest with
    | nil => rw [readBody,if_neg hdone]
    | cons line rest => rw [readBody,if_neg hdone]
  | cons line body ih =>
    have hcounts : countOld (line::body)=countOld [line]+countOld body ∧
        countNew (line::body)=countNew [line]+countNew body :=
      ⟨countOld_append [line] body,countNew_append [line] body⟩
    rw [flatMap_cons,append_assoc,readBody_textLines (hbody line mem_cons_self) (noMarker_textLines hrest)
      (by omega) (by omega),ih (fun l hl => hbody l (mem_cons_of_mem _ hl)) (by omega) (by omega)]
    rw [append_assoc,singleton_append,flatMap_cons,append_assoc]

/-- The counts of the lines are numbers the parser takes. -/
def FitsUsize (before body : List Line) : Prop :=
  countOld before + 1 + countOld body < 2 ^ 64 ∧ countNew before + 1 + countNew body < 2 ^ 64

theorem hunk_eq {before : List Line} (hbody : ∀line∈body,IsLine line.text) (hfits : FitsUsize before body)
    (hrest : NoMarker rest) :
    hunk ((header (countOld before) (countOld body) (countNew before) (countNew body)++[0x0a]) ::
      (body.flatMap textLines++rest)) = .ok (hunkOf before body,rest) := by
  rw [hunk,trimLf_concat,splitByte_header]
  simp only [getElem?_cons_zero,getElem?_cons_succ,ne_eq,not_true_eq_false,if_false,Option.getD_some,
    parseRange_range hfits.1,parseRange_range hfits.2,ok_bind,
    readBody_eq hbody hrest (zero_add _) (zero_add _),nil_append]
  rfl

theorem splitInclusive_raw (before : List Line) (hbody : ∀line∈body,IsLine line.text) (rest : Bytes) :
    splitInclusive ((hunkOf before body).raw++rest) =
      (header (countOld before) (countOld body) (countNew before) (countNew body)++[0x0a]) ::
        (body.flatMap textLines++splitInclusive rest) := by
  rw [hunkOf,append_assoc,append_assoc,singleton_append,
    splitInclusive_append (newline_not_mem_header _ _ _ _),splitInclusive_body hbody]

/-- A hunk of a script whose lines and numbers the parser takes. -/
def Readable (piece : List Line × List Line) : Prop := (∀ line ∈ piece.2, IsLine line.text) ∧ FitsUsize piece.1 piece.2

theorem noMarker_raw (h : ∀piece∈pieces,Readable piece) :
    NoMarker (splitInclusive (pieces.flatMap fun piece => (hunkOf piece.1 piece.2).raw)) := by
  cases pieces with
  | nil => exact nofun
  | cons piece pieces =>
    rw [flatMap_cons,splitInclusive_raw _ (h piece mem_cons_self).1]
    intro next hnext
    cases hnext
    rw [trimLf_concat]
    exact fun heq => absurd (congrArg List.head? heq) (by rw [header]; exact nofun)

theorem parseHunks_eq (hpieces : ∀piece∈pieces,Readable piece) {turns : ℕ} (hturns : pieces.length≤turns) :
    parseHunks turns (splitInclusive (pieces.flatMap fun piece => (hunkOf piece.1 piece.2).raw)) =
      .ok (pieces.map fun piece => hunkOf piece.1 piece.2,[]) := by
  induction pieces generalizing turns with
  | nil => cases turns <;> rfl
  | cons piece pieces ih =>
    obtain ⟨before,body⟩:=piece
    rw [length_cons] at hturns
    obtain ⟨turns,rfl⟩ : ∃k,turns=k+1:=⟨turns - 1,by omega⟩
    obtain ⟨hbody,hfits⟩:=hpieces _ mem_cons_self
    have hbehind:=fun p hp => hpieces p (mem_cons_of_mem _ hp)
    have hstarts : [0x40,0x40,0x20] <+: header (countOld before) (countOld body) (countNew before) (countNew body)++[0x0a] :=
      ⟨_,rfl⟩
    rw [flatMap_cons,splitInclusive_raw _ hbody,parseHunks,if_pos hstarts,hunk_eq hbody hfits (noMarker_raw hbehind),
      ok_bind]
    dsimp only
    rw [ih hbehind (Nat.le_of_succ_le_succ hturns)]
    rfl

end Reading

section Applying

theorem length_oldLines (lines : List Line) : (oldLines lines).length=countOld lines := length_map _

theorem length_newLines (lines : List Line) : (newLines lines).length=countNew lines := length_map _

/-- Context lines are the same lines of both texts. -/
theorem oldLines_of_context {lines : List Line} (h : ∀line∈lines,line.tag = .context) : oldLines lines=newLines lines := by
  have hfilter : ∀tag,tag ≠ .context → lines.filter (·.tag≠tag)=lines := by
    intro tag htag
    refine filter_eq_self.mpr fun line hline => decide_eq_true ?_
    rw [h line hline]
    exact htag.symm
  rw [oldLines,newLines,hfilter .added (fun h => by cases h),hfilter .removed (fun h => by cases h)]

/-- The applier when the groups in front of line `previous` are applied. -/
structure Applied (script : List Line) (previous : ℕ) (s : Applier) : Prop where
  lines : s.lines = newLines (script.take previous) ++ oldLines (script.drop previous)
  failed : s.failed = []
  floor : s.floor ≤ countNew (script.take previous)
  offset : s.offset = (countNew (script.take previous) : ℤ) - countOld (script.take previous)
  length : s.length = s.lines.flatten.length

variable {s : Applier} {first rest : List Bytes} {previous : ℕ} {gs : List (ℕ × ℕ)}

/-- A hunk that fits at the expected place is found there. -/
theorem findPlace_eq {stated : ℕ} {before : List Bytes} (hlines : s.lines=first++(before++rest))
    (hstated : (stated : ℤ)+s.offset=first.length) (hfloor : s.floor≤first.length) :
    findPlace s stated before=some first.length := by
  have hlen : s.lines.length=first.length+(before.length+rest.length) := by
    rw [hlines,length_append,length_append]
  have hexpected : (max 0 (min ((stated : ℤ)+s.offset) s.lines.length)).toNat=first.length := by
    omega
  have hslice : checkedSlice s.lines first.length (first.length+before.length)=some before := by
    rw [checkedSlice,if_pos ⟨Nat.le_add_right _ _,by omega⟩,hlines,drop_left,Nat.add_sub_cancel_left,take_left]
  rw [findPlace,hexpected,candidates,filter_cons_of_pos,find?_cons_of_pos]
  · rw [if_neg fun h => h.2 hstated.symm,hslice]
    exact decide_eq_true rfl
  · exact decide_eq_true ⟨hfloor,by omega⟩

/-- One hunk at its place: its old lines are replaced, unless the result is over the limit. -/
theorem applyHunk_eq {before body : List Line} (hlines : s.lines=first++(oldLines body++rest))
    (hoffset : (countOld before : ℤ)+s.offset=first.length) (hfloor : s.floor≤first.length)
    (hlength : s.length=s.lines.flatten.length) (hsize : (first++(newLines body++rest)).flatten.length<2^64)
    (limit index : ℕ) : applyHunk limit s index (hunkOf before body) =
      if (first++(newLines body++rest)).flatten.length > limit then .error .postimageTooLong
      else .ok ⟨first++(newLines body++rest),s.failed,first.length+countNew body,
        first.length-countOld before+countNew body-countOld body,(first++(newLines body++rest)).flatten.length⟩ := by
  have hstated : (hunkOf before body).oldStart-(if (hunkOf before body).oldCount≠0 then 1 else 0)=countOld before :=
    Nat.add_sub_cancel _ _
  have hresult : min (s.length-((oldLines body).map List.length).sum+((newLines body).map List.length).sum) (2^64-1) =
      (first++(newLines body++rest)).flatten.length := by
    rw [hlength,hlines]
    simp only [←length_flatten,flatten_append,length_append] at hsize ⊢
    omega
  have hinside : ¬first.length+(oldLines body).length > s.lines.length := by
    rw [hlines,length_append,length_append]
    omega
  have hsplice : s.lines.take first.length++newLines body++s.lines.drop (first.length+(oldLines body).length) =
      first++(newLines body++rest) := by
    rw [hlines,take_left,←drop_drop,drop_left,drop_left,append_assoc]
  have hfind:=findPlace_eq hlines hoffset hfloor
  have hbefore : ((hunkOf before body).lines.filter (·.tag ≠ .added)).map Line.text=oldLines body:=rfl
  have hafter : ((hunkOf before body).lines.filter (·.tag ≠ .removed)).map Line.text=newLines body:=rfl
  simp only [applyHunk,hbefore,hafter,hstated,hfind,hresult,if_neg hinside,hsplice]
  rfl

/-- One hunk of the script goes to its place, unless the result is over the limit. -/
theorem applyHunk_at {start stop : ℕ} (hcuts : Cuts script previous ((start,stop)::gs))
    (hs : Applied script previous s)
    (hsize : (newLines script).flatten.length+(oldLines script).flatten.length<2^64) (limit index : ℕ) :
    (∃next,applyHunk limit s index (hunkAt script (start,stop)) = .ok next ∧ Applied script stop next) ∨
      applyHunk limit s index (hunkAt script (start,stop)) = .error .postimageTooLong ∧
        limit<(newLines script).flatten.length+(oldLines script).flatten.length := by
  obtain ⟨h1,h2,-,hskip,-⟩:=hcuts
  obtain ⟨skip,hskipeq⟩ : ∃skip,skip=(script.drop previous).take (start - previous):=⟨_,rfl⟩
  obtain ⟨body,hbody⟩ : ∃body,body=(script.drop start).take (stop - start):=⟨_,rfl⟩
  have hstart : script.take start=script.take previous++skip := by rw [hskipeq,take_upTo h1]
  have hstop : script.take stop=script.take start++body := by rw [hbody,take_upTo (le_of_lt h2)]
  have hdrop : ∀{m n : ℕ},m≤n → script.drop m=(script.drop m).take (n-m)++script.drop n := by
    intro m n hle
    have hsplit:=take_append_drop (n-m) (script.drop m)
    rw [drop_drop,Nat.add_sub_of_le hle] at hsplit
    exact hsplit.symm
  rw [←hskipeq] at hskip
  have hsame:=oldLines_of_context hskip
  have hcount : countOld skip=countNew skip := by rw [←length_oldLines,hsame,length_newLines]
  have hlines : s.lines=newLines (script.take start)++(oldLines body++oldLines (script.drop stop)) := by
    rw [hs.lines,hdrop h1,←hskipeq,oldLines_append,hsame,hstart,newLines_append,hdrop (le_of_lt h2),←hbody,
      oldLines_append,append_assoc]
  have hresult : newLines (script.take start)++(newLines body++oldLines (script.drop stop)) =
      newLines (script.take stop)++oldLines (script.drop stop) := by rw [hstop,newLines_append,append_assoc]
  have htotal : (newLines (script.take stop)++oldLines (script.drop stop)).flatten.length ≤
      (newLines script).flatten.length+(oldLines script).flatten.length := by
    have hparts : script=script.take stop++script.drop stop:=(take_append_drop _ _).symm
    conv_rhs => rw [hparts]
    simp only [newLines_append,oldLines_append,flatten_append,length_append]
    omega
  have hoffset : (countOld (script.take start) : ℤ)+s.offset=(newLines (script.take start)).length := by
    rw [hs.offset,length_newLines,hstart,countOld_append,countNew_append]
    omega
  have hfloor : s.floor≤(newLines (script.take start)).length := by
    have hle:=hs.floor
    rw [length_newLines,hstart,countNew_append]
    omega
  have happly:=applyHunk_eq hlines hoffset hfloor hs.length (by rw [hresult]; omega) limit index
  rw [hresult,hbody] at happly
  rw [hunkAt,happly]
  split_ifs with hlimit
  · exact .inr ⟨rfl,by omega⟩
  · refine .inl ⟨_,rfl,rfl,hs.failed,?_,?_,rfl⟩
    · rw [hstop,←hbody,length_newLines,countNew_append]
    · rw [hstop,←hbody,length_newLines,countNew_append,countOld_append]
      dsimp only
      omega

theorem applyFrom_eq (hcuts : Cuts script previous gs) (hs : Applied script previous s)
    (hsize : (newLines script).flatten.length+(oldLines script).flatten.length<2^64) (limit index : ℕ) :
    (∃last,applyFrom limit index (gs.map (hunkAt script)) s = .ok last ∧ last.lines=newLines script ∧ last.failed=[]) ∨
      applyFrom limit index (gs.map (hunkAt script)) s = .error .postimageTooLong ∧
        limit<(newLines script).flatten.length+(oldLines script).flatten.length := by
  induction gs generalizing previous s index with
  | nil =>
    refine .inl ⟨s,rfl,?_,hs.failed⟩
    rw [hs.lines,oldLines_of_context hcuts.2,←newLines_append,take_append_drop]
  | cons g gs ih =>
    rw [map_cons,applyFrom]
    rcases applyHunk_at hcuts hs hsize limit index with ⟨next,hnext,happlied⟩ | ⟨herror,hlimit⟩
    · rw [hnext]
      exact ih hcuts.2.2.2.2 happlied (index+1)
    · rw [herror]
      exact .inr ⟨rfl,hlimit⟩

end Applying

/-- The hunk stands for some lines of the script, and its header for their ranges in both texts. -/
def InPlace (script : List Line) (h : Hunk) : Prop :=
  ∃ before after, script = before ++ h.lines ++ after ∧
    h.oldCount = (oldLines h.lines).length ∧ h.newCount = (newLines h.lines).length ∧
    h.oldStart = (oldLines before).length + (if h.oldCount = 0 then 0 else 1) ∧
    h.raw = header (oldLines before).length h.oldCount (newLines before).length h.newCount ++ [0x0a] ++
      h.lines.flatMap writeLine

theorem inPlace_hunkAt {start stop : ℕ} (h : start ≤ stop) : InPlace script (hunkAt script (start,stop)) := by
  refine ⟨script.take start,script.drop stop,?_,?_,?_,?_,?_⟩
  · rw [hunkAt,hunkOf,←take_upTo h,take_append_drop]
  · rw [length_oldLines]
    rfl
  · rw [length_newLines]
    rfl
  · rw [length_oldLines,hunkAt,hunkOf]
    simp
  · rw [length_oldLines,length_newLines]
    rfl

variable {gs : List (ℕ × ℕ)}

/-- The places of the groups lie within the script. -/
theorem start_le_of_cuts {previous : ℕ} (h : Cuts script previous gs) : ∀g∈gs,g.1≤g.2 := by
  induction gs generalizing previous with
  | nil => exact nofun
  | cons g gs ih =>
    obtain ⟨-,h2,-,-,hrest⟩:=h
    intro g' hg'
    rcases mem_cons.mp hg' with rfl | hg'
    · exact le_of_lt h2
    · exact ih hrest g' hg'

theorem length_splitInclusive (text : Bytes) : (splitInclusive text).length≤text.length := by
  induction text with
  | nil => exact le_rfl
  | cons byte rest ih =>
    rw [splitInclusive]
    split_ifs
    · rw [length_cons,length_cons]
      omega
    · cases hrest : splitInclusive rest with
      | nil => exact Nat.succ_le_succ (Nat.zero_le _)
      | cons first others =>
        rw [hrest,length_cons] at ih
        rw [length_cons,length_cons]
        omega

theorem length_le_of_readable {pieces : List (List Line × List Line)} (h : ∀piece∈pieces,Readable piece) :
    pieces.length≤(splitInclusive (pieces.flatMap fun piece => (hunkOf piece.1 piece.2).raw)).length := by
  induction pieces with
  | nil => exact le_rfl
  | cons piece pieces ih =>
    have hle:=ih fun p hp => h p (mem_cons_of_mem _ hp)
    rw [flatMap_cons,splitInclusive_raw _ (h piece mem_cons_self).1,length_cons,length_cons,length_append]
    omega

/-- The written hunks of groups that lie within the script are read back. -/
theorem readHunks_eq (hgs : ∀g∈gs,g.1≤g.2) (hlines : ∀line∈script,IsLine line.text)
    (hold : countOld script<2^63) (hnew : countNew script<2^63) :
    readHunks ((gs.map (hunkAt script)).flatMap Hunk.raw) = .ok (gs.map (hunkAt script),[]) := by
  obtain ⟨pieces,hpieces⟩ : ∃pieces : List (List Line × List Line),
      pieces=gs.map fun g => (script.take g.1,(script.drop g.1).take (g.2-g.1)) := ⟨_,rfl⟩
  have hhunks : gs.map (hunkAt script)=pieces.map fun piece => hunkOf piece.1 piece.2 := by
    rw [hpieces,map_map]
    rfl
  have hreadable : ∀piece∈pieces,Readable piece := by
    intro piece hpiece
    rw [hpieces] at hpiece
    obtain ⟨g,hg,rfl⟩:=mem_map.mp hpiece
    have hparts : script=script.take g.1++(script.drop g.1).take (g.2-g.1)++script.drop g.2 := by
      rw [←take_upTo (hgs g hg),take_append_drop]
    have hcountOld:=congrArg countOld hparts
    have hcountNew:=congrArg countNew hparts
    rw [countOld_append,countOld_append] at hcountOld
    rw [countNew_append,countNew_append] at hcountNew
    refine ⟨?_,by dsimp only; omega,by dsimp only; omega⟩
    intro line hline
    exact hlines line (mem_of_mem_drop (mem_of_mem_take hline))
  rw [hhunks,flatMap_map]
  exact parseHunks_eq hreadable (length_le_of_readable hreadable)

structure Applies (old new : Bytes) (context : ℕ) (script : List Line) (out : Bytes) (hs : List Hunk) : Prop where
  oldText : (oldLines script).flatten = old
  newText : (newLines script).flatten = new
  written : hunks script context = some out
  read : readHunks out = .ok (hs,[])
  all : hs = (groups script context).map (hunkAt script)
  inPlace : ∀ h ∈ hs, InPlace script h
  applied : ∀ limit, old.length + new.length ≤ limit → applyHunks old hs limit = .ok (new,[])
  only : ∀ limit, applyHunks old hs limit = .ok (new,[]) ∨ applyHunks old hs limit = .error .postimageTooLong

/-- For all texts and every number of context lines the diff is written, read back as it is and applied. -/
theorem patch_applies (old new : Bytes) (context : ℕ) (hold : old.length < 2 ^ 63) (hnew : new.length < 2 ^ 63) :
    ∃ script out hs, lines old new = some script ∧ Applies old new context script out hs := by
  obtain ⟨script,hlines,hscript⟩ := lines_spec old new
  obtain ⟨gs,hgs⟩ : ∃ gs, gs = groups script context := ⟨_,rfl⟩
  have hcuts := cuts_groups script context
  rw [← hgs] at hcuts
  have hflatOld : (oldLines script).flatten = old := by rw [hscript.old,flatten_splitInclusive]
  have hflatNew : (newLines script).flatten = new := by rw [hscript.new,flatten_splitInclusive]
  have hwritten : hunks script context = some ((gs.map (hunkAt script)).flatMap Hunk.raw) := by
    rw [hunks,← hgs]
    exact writeGroups_eq hcuts
  have hread : readHunks ((gs.map (hunkAt script)).flatMap Hunk.raw) = .ok (gs.map (hunkAt script),[]) := by
    have hcountOld : countOld script ≤ old.length := by
      rw [← length_oldLines,hscript.old]
      exact length_splitInclusive old
    have hcountNew : countNew script ≤ new.length := by
      rw [← length_newLines,hscript.new]
      exact length_splitInclusive new
    exact readHunks_eq (start_le_of_cuts hcuts) (isLine_of_script hscript) (by omega) (by omega)
  have happly : ∀ limit, applyHunks old (gs.map (hunkAt script)) limit = .ok (new,[]) ∨
      applyHunks old (gs.map (hunkAt script)) limit = .error .postimageTooLong ∧ limit < new.length + old.length := by
    intro limit
    have hinit : Applied script 0 ⟨splitInclusive old,[],0,0,old.length⟩ :=
      ⟨hscript.old.symm,rfl,Nat.zero_le _,rfl,by rw [flatten_splitInclusive]⟩
    have hrun := applyFrom_eq hcuts hinit (by rw [hflatOld,hflatNew]; omega) limit 0
    rw [hflatOld,hflatNew] at hrun
    rcases hrun with ⟨last,hlast,hlines,hfailed⟩ | ⟨herror,hlimit⟩
    · refine .inl ?_
      rw [applyHunks,hlast,ok_bind,hlines,hfailed,hflatNew]
    · refine .inr ⟨?_,hlimit⟩
      rw [applyHunks,herror]
      rfl
  refine ⟨script,_,gs.map (hunkAt script),hlines,hflatOld,hflatNew,hwritten,hread,by rw [hgs],?_,?_,?_⟩
  · intro h hh
    obtain ⟨⟨start,stop⟩,hg,rfl⟩ := mem_map.mp hh
    exact inPlace_hunkAt (start_le_of_cuts hcuts _ hg)
  · intro limit hle
    rcases happly limit with hok | ⟨-,hlimit⟩
    · exact hok
    · omega
  · intro limit
    exact (happly limit).imp id And.left

/-- `a`, `b` and a last line without a newline. -/
theorem patch_applies_sample : ∃ script out hs, lines [0x61,0x0a,0x62,0x0a] [0x61,0x0a,0x63] = some script ∧
    Applies [0x61,0x0a,0x62,0x0a] [0x61,0x0a,0x63] 0 script out hs :=
  patch_applies _ _ 0 (by decide) (by decide)

theorem hunk_raw_ne_nil (script : List Line) (g : ℕ × ℕ) : (hunkAt script g).raw≠[] := by
  simp [hunkAt,hunkOf,header]

theorem lines_self (text : Bytes) : lines text text=some ((splitInclusive text).map (⟨.context,·⟩)) := by
  obtain ⟨a,ha⟩ : ∃a,a=splitInclusive text:=⟨_,rfl⟩
  have hall : ∀xs : List Bytes,countEqual xs xs=xs.length := by
    intro xs
    induction xs with
    | nil => rfl
    | cons x xs ih => simpa [countEqual] using ih
  have hend : checkedSlice a a.length a.length=some [] := by simp [checkedSlice]
  have hbegin : checkedSlice a 0 a.length=some a := by simp [checkedSlice]
  rw [lines,filter_splitInclusive,←ha]
  simp [hall,hend,hbegin,checkedSub,myers,fallback]

/-- The diff of two texts is empty exactly if they are equal. -/
theorem diff_empty_iff (old new : Bytes) (context : ℕ) :
    ((lines old new).bind fun script => hunks script context) = some [] ↔ old = new := by
  constructor
  · intro h
    obtain ⟨script,hlines,hscript⟩ := lines_spec old new
    have hcuts := cuts_groups script context
    have hwritten : hunks script context = some (((groups script context).map (hunkAt script)).flatMap Hunk.raw) :=
      writeGroups_eq hcuts
    rw [hlines,Option.bind_some,hwritten,Option.some_inj,flatMap_eq_nil_iff] at h
    have hnone : groups script context = [] := eq_nil_iff_forall_not_mem.mpr fun g hg =>
      hunk_raw_ne_nil script g (h _ (mem_map_of_mem hg))
    rw [hnone] at hcuts
    have hsame := oldLines_of_context hcuts.2
    rw [drop_zero,hscript.old,hscript.new] at hsame
    rw [← flatten_splitInclusive old,hsame,flatten_splitInclusive]
  · rintro rfl
    have hchanged : changed ((splitInclusive old).map (⟨.context,·⟩)) = [] := by
      refine eq_nil_iff_forall_not_mem.mpr fun c hc => ?_
      obtain ⟨line,hline,htag⟩ := mem_changed.mp hc
      obtain ⟨_,-,rfl⟩ := mem_map.mp (mem_of_getElem? hline)
      exact htag rfl
    rw [lines_self,Option.bind_some,hunks,groups,hchanged]
    rfl

end Ratarmount.Patch
