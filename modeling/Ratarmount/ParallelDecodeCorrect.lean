import Mathlib.Data.List.Rotate
import Ratarmount.ParallelDecode

/-!
# When parallel decoding changes nothing

Parts cut at all magics are the members that are decoded one after another, up to the
first part that is longer than its member. The blocks found by their magics are those
of the first stream only.
-/

namespace Ratarmount.Parallel

open Members Bits List

variable {α : Type}

theorem mapM_eq_some {β : Type} {f : α → Option β} {xs : List α} {ys : List β} :
    xs.mapM f=some ys ↔ (∀x∈xs,(f x).isSome=true) ∧ ys=xs.filterMap f := by
  induction xs generalizing ys with
  | nil =>
    exact ⟨fun h => ⟨nofun,(Option.some.inj h).symm⟩,fun h => congrArg some h.2.symm⟩
  | cons x xs ih =>
    rw [mapM_cons,filterMap_cons]
    cases hx : f x with
    | none =>
      refine ⟨nofun,fun h => ?_⟩
      have hsome:=h.1 x mem_cons_self
      rw [hx] at hsome
      cases hsome
    | some y =>
      rw [Option.bind_eq_bind,Option.bind_some,Option.bind_eq_bind,Option.bind_eq_some_iff]
      constructor
      · rintro ⟨rest,hrest,hys⟩
        obtain ⟨hall,rfl⟩:=ih.mp hrest
        refine ⟨?_,(Option.some.inj hys).symm⟩
        intro x' hx'
        rcases mem_cons.mp hx' with rfl | hx'
        · rw [hx]
          rfl
        · exact hall x' hx'
      · rintro ⟨hall,rfl⟩
        exact ⟨_,ih.mpr ⟨fun x' hx' => hall x' (mem_cons_of_mem _ hx'),rfl⟩,rfl⟩

/-- The number of workers makes no difference. -/
theorem mapDecode_eq_some {decode : α → Option Bytes} {threads : ℕ} {parts : List α} {v : Bytes} :
    mapDecode decode threads parts=some v ↔
      (∀part∈parts,(decode part).isSome=true) ∧ v=(parts.filterMap decode).flatten := by
  have hmap : (parallelMap decode threads parts).mapM Option.join=parts.mapM decode := by
    rw [parallelMap_eq,map_map]
    exact mapM_map
  rw [mapDecode,hmap,Option.map_eq_some_iff]
  constructor
  · rintro ⟨ys,hys,rfl⟩
    obtain ⟨hall,rfl⟩:=mapM_eq_some.mp hys
    exact ⟨hall,rfl⟩
  · rintro ⟨hall,rfl⟩
    exact ⟨_,mapM_eq_some.mpr ⟨hall,rfl⟩,rfl⟩

/-- Cut at all heads, the parts give what is decoded in sequence if the parts behind the first gap are empty. -/
theorem flatten_cut_iff {isHead : Bytes → Bool} {decode : Decoder UInt8 Bytes} (h : Lawful isHead decode) {c : Bytes}
    {ms : List ℕ} (hsorted : (0::ms).Pairwise (·<·)) (hlt : ∀m∈0::ms,m<c.length)
    (hheads : ∀p,0<p → isHead (c.drop p)=true → p∈ms)
    (hparts : ∀part∈cut c (0::ms++[c.length]), (decode part).isSome=true) :
    ((cut c (0::ms++[c.length])).filterMap fun part => (decode part).map Prod.fst).flatten =
        (sequential decode (c.length+1) c).flatten ↔ ∀d∈behindGap decode (cut c (0::ms++[c.length])), d=[] := by
  have hcut : contents decode (cut c (0::(ms++[c.length]))) =
      sequential decode (c.length+1) (c.drop 0)++behindGap decode (cut c (0::(ms++[c.length]))) := by
    refine contents_cut h ?_ ?_ ?_ hparts (Nat.lt_succ_self _)
    · refine pairwise_append.mpr ⟨hsorted,pairwise_singleton _ _,?_⟩
      intro m hm n hn
      rw [mem_singleton.mp hn]
      exact hlt m hm
    · exact @getLast?_concat _ (0::ms) c.length
    · intro p hp hhead
      exact mem_append_left _ (hheads p hp hhead)
  rw [contents,drop_zero] at hcut
  rw [cons_append,hcut,flatten_append,append_right_eq_self,flatten_eq_nil_iff]

section Gzip

variable {c : Bytes}

theorem findGzipMagicOffsets_short {i : ℕ} (h : ∀a b rest,c=a::b::rest → False) :
    findGzipMagicOffsets c i=[] ∧ c.length<2 := by
  match c, h with
  | [], _ => exact ⟨rfl,Nat.two_pos⟩
  | [_], _ => exact ⟨rfl,Nat.one_lt_two⟩
  | a::b::rest, h => exact absurd rfl (h a b rest)

theorem mem_findGzipMagicOffsets {i p : ℕ} :
    p∈findGzipMagicOffsets c i ↔ i≤p ∧ isGzipMagic (c.drop (p-i))=true := by
  have hcons : ∀(x : UInt8) (c : Bytes) (i p : ℕ),i+1≤p →
      isGzipMagic ((x::c).drop (p-i))=isGzipMagic (c.drop (p-(i+1))) := by
    intro x c i p hle
    rw [show p-i=p-(i+1)+1 by omega,drop_succ_cons]
  have hat : ∀(a b : UInt8) (rest : Bytes),isGzipMagic (a::b::rest)=true ↔ a=0x1f ∧ b=0x8b := by
    simp [isGzipMagic]
  induction c, i using findGzipMagicOffsets.induct with
  | case1 a b rest i hmagic ih =>
    rw [findGzipMagicOffsets,if_pos hmagic,mem_cons]
    refine (or_congr_right ih).trans ?_
    rcases Nat.lt_trichotomy p i with hlt | rfl | hgt
    · exact ⟨fun h => by omega,fun h => by omega⟩
    · simp [hat,hmagic]
    · -- the second byte of a magic begins none
      rw [hcons a _ i p hgt]
      by_cases hnext : p=i+1
      · subst hnext
        have hnone : isGzipMagic (b::rest)=false := by
          rw [hmagic.2]
          cases rest <;> rfl
        rw [Nat.sub_self,drop_zero,hnone]
        exact ⟨fun h => by omega,fun h => by cases h.2⟩
      · rw [hcons b _ (i+1) p (by omega)]
        constructor
        · rintro (h | h)
          · omega
          · exact ⟨by omega,h.2⟩
        · intro h
          exact .inr ⟨by omega,h.2⟩
  | case2 a b rest i hmagic ih =>
    rw [findGzipMagicOffsets,if_neg hmagic]
    refine Iff.trans ih ?_
    rcases Nat.lt_trichotomy p i with hlt | rfl | hgt
    · exact ⟨fun h => by omega,fun h => by omega⟩
    · rw [Nat.sub_self,drop_zero,hat]
      exact ⟨fun h => by omega,fun h => absurd h.2 hmagic⟩
    · rw [hcons a _ i p hgt]
      exact ⟨fun h => ⟨by omega,h.2⟩,fun h => ⟨hgt,h.2⟩⟩
  | case3 c i hshort =>
    obtain ⟨hnil,hlen⟩:=findGzipMagicOffsets_short hshort
    rw [hnil]
    refine ⟨nofun,fun h => ?_⟩
    have htwo:=congrArg List.length (of_decide_eq_true h.2)
    rw [length_take,length_drop] at htwo
    simp only [length_cons] at htwo
    omega

theorem sorted_findGzipMagicOffsets (c : Bytes) (i : ℕ) : (findGzipMagicOffsets c i).Pairwise (·<·) := by
  induction c, i using findGzipMagicOffsets.induct with
  | case1 a b rest i hmagic ih =>
    rw [findGzipMagicOffsets,if_pos hmagic]
    refine pairwise_cons.mpr ⟨?_,ih⟩
    intro p hp
    have hle:=(mem_findGzipMagicOffsets.mp hp).1
    omega
  | case2 a b rest i hmagic ih =>
    rw [findGzipMagicOffsets,if_neg hmagic]
    exact ih
  | case3 c i hshort =>
    rw [(findGzipMagicOffsets_short hshort).1]
    exact .nil

/-- The parallel result is the sequential one exactly if every member behind the first gap is empty. -/
theorem gzip_parallel_iff {gz : Decoder UInt8 Bytes} (hgz : Lawful isGzipMagic gz) {v : Bytes} {threads : ℕ}
    (h : tryParallelMultiMemberDecode gz c threads=some v) : v=(sequential gz (c.length+1) c).flatten ↔
      ∀d∈behindGap gz (cut c (findGzipMagicOffsets c 0++[c.length])), d=[] := by
  rw [tryParallelMultiMemberDecode,Option.bind_eq_bind,Option.bind_eq_some_iff] at h
  obtain ⟨parts,hsplit,h⟩:=h
  rw [splitGzipMemberSlices] at hsplit
  dsimp only at hsplit
  split_ifs at hsplit with hmagic
  obtain rfl:=Option.some.inj hsplit
  split_ifs at h
  obtain ⟨hall,rfl⟩:=mapDecode_eq_some.mp h
  have hhead : isGzipMagic c=true := by simpa using hmagic
  have hzero:=mem_findGzipMagicOffsets.mpr ⟨le_refl 0,hhead⟩
  have hsorted:=sorted_findGzipMagicOffsets c 0
  have hmem : ∀p,p∈findGzipMagicOffsets c 0 ↔ isGzipMagic (c.drop p)=true := by
    intro p
    rw [mem_findGzipMagicOffsets]
    exact and_iff_right (Nat.zero_le p)
  cases hoffsets : findGzipMagicOffsets c 0 with
  | nil =>
    rw [hoffsets] at hzero
    cases hzero
  | cons m ms =>
    rw [hoffsets] at hsorted hzero hmem hall
    obtain rfl : m=0 := by
      rcases mem_cons.mp hzero with hz | hz
      · exact hz.symm
      · have hlt:=(pairwise_cons.mp hsorted).1 0 hz
        omega
    refine flatten_cut_iff hgz hsorted ?_ ?_ ?_
    · intro p hp
      have hmagic:=(hmem p).mp hp
      by_contra hge
      rw [drop_eq_nil_of_le (by omega)] at hmagic
      cases hmagic
    · intro p hp hmagic
      rcases mem_cons.mp ((hmem p).mpr hmagic) with hz | hz
      · omega
      · exact hz
    · intro part hpart
      have hsome:=hall part hpart
      rwa [Option.isSome_map] at hsome

end Gzip

section Bzip2

/-- A block begins with its checksum, and the reader looks at nothing behind the block. -/
structure LawfulReader (rb : BlockReader) : Prop where
  length : ∀ {level bits content n}, rb level bits = some (content,n) → 32 ≤ n ∧ n ≤ bits.length
  agree : ∀ {level bits bits' content n}, rb level bits = some (content,n) → bits.take n <+: bits' →
    rb level bits' = some (content,n)

variable {rb : BlockReader}

variable {level : UInt8} {turns n k p threads nextAllowed : ℕ} {bits combined crc bits' : List Bool}
  {blocks : List (ℕ × Bytes)} {data c v content : Bytes} {starts : List ℕ}

/-- What a successful step of the reader of a stream has seen. -/
theorem readBlocks_some (h : readBlocks rb level turns bits combined=some blocks) : match blocks with
    | [] => bits.take 48=eosMagic ∧ (bits.drop 48).take 32=combined
    | (n,content)::rest => bits.take 48=blockMagic ∧ rb level (bits.drop 48)=some (content,n) ∧
        ∃turns',readBlocks rb level turns' (bits.drop (48+n)) (combineCrc combined ((bits.drop 48).take 32))=some rest := by
  cases turns with
  | zero => cases h
  | succ turns =>
    rw [readBlocks] at h
    split_ifs at h with hblock heos
    · rw [Option.bind_eq_bind,Option.bind_eq_some_iff] at h
      obtain ⟨⟨content,n⟩,hread,h⟩:=h
      rw [Option.bind_eq_bind,Option.bind_eq_some_iff] at h
      obtain ⟨rest,hrest,h⟩:=h
      obtain rfl:=Option.some.inj h
      exact ⟨hblock,hread,turns,hrest⟩
    · obtain rfl:=Option.some.inj h
      exact heos

theorem length_combineCrc (h : combined.length=32) (hcrc : crc.length=32) : (combineCrc combined crc).length=32 := by
  rw [combineCrc,length_zipWith,length_rotate,h,hcrc]
  rfl

theorem length_of_take_eq {w : List Bool} (h : bits.take n=w) (hw : w.length=n) : n≤bits.length := by
  rw [←h,length_take] at hw
  omega

theorem take_of_isPrefix (h : bits.take n <+: bits') (hle : n≤bits.length) (hk : k≤n) : bits'.take k=bits.take k := by
  obtain ⟨rest,rfl⟩:=h
  rw [take_append_of_le_length (by rw [length_take]; omega),take_take,min_eq_left hk]

theorem drop_of_isPrefix (h : bits.take (k+n) <+: bits') : (bits.drop k).take n <+: bits'.drop k := by
  have hdrop:=h.drop k
  rwa [drop_take,Nat.add_sub_cancel_left] at hdrop

theorem blockBits_cons (n : ℕ) (content : Bytes) (blocks : List (ℕ × Bytes)) :
    blockBits ((n,content)::blocks)=48+n+blockBits blocks := by
  rw [blockBits,map_cons,sum_cons,←blockBits]

theorem isBzhHeader_iff :
    isBzhHeader data=true ↔ ∃level rest,data=0x42::0x5a::0x68::level::rest ∧ 0x31≤level ∧ level≤0x39 := by
  constructor
  · intro h
    match data with
    | [] => cases h
    | [_] => simp [isBzhHeader] at h
    | [_,_] => simp [isBzhHeader] at h
    | [_,_,_] => simp [isBzhHeader] at h
    | a::b::d::level::rest =>
      simp [isBzhHeader] at h
      obtain ⟨⟨rfl,rfl,rfl⟩,hlevel⟩:=h
      exact ⟨level,rest,rfl,hlevel⟩
  · rintro ⟨level,rest,rfl,hlevel⟩
    simpa [isBzhHeader] using hlevel

theorem streamBlocks_eq_some (h : streamBlocks rb data=some blocks) :
    isBzhHeader data=true ∧ readBlocks rb (data.getD 3 0) (ofBytes data).length ((ofBytes data).drop 32)
      (List.replicate 32 false)=some blocks := by
  rw [streamBlocks] at h
  split_ifs at h with hheader
  exact ⟨hheader,h⟩

theorem length_cut (c : Bytes) (m : ℕ) (ms : List ℕ) : (cut c (m::ms)).length=ms.length := by
  induction ms generalizing m with
  | nil => rfl
  | cons stop stops ih => rw [cut,length_cons,ih,length_cons]

/-- The markers of a file that begins with a header are all its headers. -/
theorem mem_markers (hc : isBzhHeader c=true) (hp : 0<p) (hhead : isBzhHeader (c.drop p)=true) :
    p∈(List.range' 4 (c.length-3-4)).filter fun i => isBzhHeader (c.drop i) := by
  have hlen : p+4 ≤ c.length := by
    obtain ⟨level,rest,hdrop,-⟩:=isBzhHeader_iff.mp hhead
    have hlen:=congrArg List.length hdrop
    rw [length_drop] at hlen
    simp only [length_cons] at hlen
    omega
  have hfour : 4≤p := by
    obtain ⟨level,rest,rfl,-,hheight⟩:=isBzhHeader_iff.mp hc
    obtain ⟨level',rest',hdrop,-⟩:=isBzhHeader_iff.mp hhead
    match p, hp with
    | 1, _ => cases hdrop
    | 2, _ => cases hdrop
    | 3, _ =>
      obtain ⟨rfl,-⟩:=List.cons.inj hdrop
      exact absurd hheight (by decide)
    | p+4, _ => omega
  refine mem_filter.mpr ⟨?_,hhead⟩
  rw [mem_range'_1]
  omega

def blockStarts : ℕ → List (ℕ × Bytes) → List ℕ
  | _, [] => []
  | p, block :: blocks => p :: blockStarts (p + (48 + block.1)) blocks

theorem le_of_mem_blockStarts {q : ℕ} (h : q∈blockStarts p blocks) : p≤q := by
  induction blocks generalizing p with
  | nil => cases h
  | cons block blocks ih =>
    rcases mem_cons.mp h with rfl | h
    · exact le_rfl
    · have hle:=ih h
      omega

def windowAt (bits : List Bool) (p : ℕ) : List Bool := (bits.drop p).take 48

/-- The scan before it shifts in the last bit of the window. -/
def scanAt (bits : List Bool) (p nextAllowed : ℕ) (starts : List ℕ) : List ℕ × Option ℕ :=
  scanFrom (bits.drop (p + 47)) (p + 47) (value (bits.take (p + 47)) % 2 ^ 48) nextAllowed starts

theorem shift_window (hk : k<bits.length) : ∃b,bits.drop k=b::bits.drop (k+1) ∧
      (value (bits.take k) % 2^48*2+b.toNat) % 2^48=value (bits.take (k+1)) % 2^48 := by
  refine ⟨bits[k],drop_eq_getElem_cons hk,?_⟩
  have htake:=(take_concat_get' bits k hk).symm
  have hvalue : value (bits.take (k+1))=value (bits.take k)*2+bits[k].toNat := by
    rw [htake,value_append]
    simp [value]
  rw [hvalue]
  omega

theorem value_windowAt (hp : p+48≤bits.length) : value (bits.take (p+48)) % 2^48=value (windowAt bits p) := by
  have hlen : (windowAt bits p).length=48 := by
    rw [windowAt,length_take,length_drop]
    omega
  have hlt:=value_lt (windowAt bits p)
  rw [hlen] at hlt
  rw [take_add,←windowAt,value_append,hlen,Nat.mul_add_mod_self_right,Nat.mod_eq_of_lt hlt]

theorem windowAt_eq_word (hp : p+48≤bits.length) (hn : n<2^48) :
    value (windowAt bits p)=n ↔ windowAt bits p=word 48 n := by
  constructor
  · intro h
    refine value_inj ?_ ?_
    · rw [windowAt,length_take,length_drop,length_word]
      omega
    · rw [h,value_word,Nat.mod_eq_of_lt hn]
  · intro h
    rw [h,value_word,Nat.mod_eq_of_lt hn]

/-- One step of the scan looks at the window's 48 bits. -/
theorem scanAt_step (hp : p+48≤bits.length) (hlow : 32≤p) : scanAt bits p nextAllowed starts =
      if p<nextAllowed then scanAt bits (p+1) nextAllowed starts
      else if windowAt bits p=blockMagic then scanAt bits (p+1) (p+48) (starts++[p])
      else if windowAt bits p=eosMagic then (starts,some p) else scanAt bits (p+1) nextAllowed starts := by
  obtain ⟨b,hdrop,hwindow⟩:=shift_window (show p+47<bits.length by omega)
  have hstart : p+47+1-48=p := by omega
  rw [scanAt,hdrop,scanFrom,hwindow,hstart,value_windowAt hp]
  simp only [windowAt_eq_word hp (show 0x314159265359<2^48 by decide),
    windowAt_eq_word hp (show 0x177245385090<2^48 by decide)]
  simp only [scanAt,value_windowAt hp,blockMagic,eosMagic,show ¬p+47+1<32+48 by omega,false_or]

/-- The scan passes over places that are not allowed or hold no magic. -/
theorem scanAt_skip (hlow : 32≤p) (k : ℕ) (hk : p+k+47≤bits.length)
    (hskip : ∀q,p≤q → q<p+k → nextAllowed≤q → windowAt bits q≠blockMagic ∧ windowAt bits q≠eosMagic) :
    scanAt bits p nextAllowed starts=scanAt bits (p+k) nextAllowed starts := by
  induction k with
  | zero => rfl
  | succ k ih =>
    rw [ih (by omega) (fun q hp hq => hskip q hp (by omega)),scanAt_step (by omega) (by omega)]
    split_ifs with hnext hblock heos
    · rfl
    · exact absurd hblock (hskip (p+k) (by omega) (by omega) (by omega)).1
    · exact absurd heos (hskip (p+k) (by omega) (by omega) (by omega)).2
    · rfl

theorem scanFrom_eq_scanAt (hlen : 80≤bits.length) : scanFrom bits 0 0 32 []=scanAt bits 32 32 [] := by
  have hrun : ∀k≤79,scanFrom bits 0 0 32 []=scanFrom (bits.drop k) k (value (bits.take k) % 2^48) 32 [] := by
    intro k hk
    induction k with
    | zero => rfl
    | succ k ih =>
      obtain ⟨b,hdrop,hwindow⟩:=shift_window (show k<bits.length by omega)
      rw [ih (by omega),hdrop,scanFrom,hwindow]
      exact if_pos (.inl (by omega))
  exact hrun 79 le_rfl

/-- The magics inside the blocks of a stream are those at their starts. -/
def Plain (c : Bytes) (blocks : List (ℕ × Bytes)) : Prop :=
  ∀ p, 32 ≤ p → p < 32 + blockBits blocks →
    windowAt (ofBytes c) p = blockMagic ∨ windowAt (ofBytes c) p = eosMagic → p ∈ blockStarts 32 blocks

theorem combineCrc_zeros (h : crc.length=32) : combineCrc (List.replicate 32 false) crc=crc := by
  have hzip : ∀(crc : List Bool),List.zipWith xor (List.replicate crc.length false) crc=crc := by
    intro crc
    induction crc with
    | nil => rfl
    | cons b crc ih => rw [length_cons,replicate_succ,zipWith_cons_cons,ih,Bool.false_xor]
  rw [combineCrc,rotate_replicate,←h,hzip]

theorem length_blockMagic : blockMagic.length=48 := length_word _ _

theorem length_eosMagic : eosMagic.length=48 := length_word _ _

theorem rangesOf_cons (p q : ℕ) (blocks : List (ℕ × Bytes)) :
    rangesOf (p::(blockStarts q blocks++[q+blockBits blocks])) =
      (p,q)::rangesOf (blockStarts q blocks++[q+blockBits blocks]) := by
  cases blocks with
  | nil => rfl
  | cons block blocks => rfl

variable (hrb : LawfulReader rb)
include hrb

/-- A stream lies within its bits and is read from these alone. -/
theorem readBlocks_spec (hcombined : combined.length=32) (h : readBlocks rb level turns bits combined=some blocks) :
    blockBits blocks+80≤bits.length ∧ blocks.length≤blockBits blocks ∧
      ∀(bits' : List Bool) (turns' : ℕ),bits.take (blockBits blocks+80) <+: bits' → blocks.length<turns' →
        readBlocks rb level turns' bits' combined=some blocks := by
  induction blocks generalizing turns bits combined with
  | nil =>
    obtain ⟨heos,hcrc⟩:=readBlocks_some h
    have hlen:=length_of_take_eq hcrc hcombined
    rw [length_drop] at hlen
    have hbits : blockBits []=0:=rfl
    refine ⟨by omega,Nat.zero_le _,?_⟩
    intro bits' turns' hpre hturns
    obtain ⟨turns',rfl⟩ : ∃t,turns'=t+1:=⟨turns' - 1,by omega⟩
    have hmagic : bits'.take 48=eosMagic := by
      rw [take_of_isPrefix hpre (by omega) (by omega)]
      exact heos
    have hsum : (bits'.drop 48).take 32=combined := by
      rw [take_of_isPrefix (drop_of_isPrefix (k := 48) (n := 32) hpre) (by rw [length_drop]; omega) le_rfl]
      exact hcrc
    rw [readBlocks,if_neg (by rw [hmagic]; decide),if_pos ⟨hmagic,hsum⟩]
  | cons block blocks ih =>
    obtain ⟨n,content⟩:=block
    obtain ⟨hmagic,hread,turns,hrest⟩:=readBlocks_some h
    obtain ⟨hcrcLe,hle⟩:=hrb.length hread
    have hcrc : (combineCrc combined ((bits.drop 48).take 32)).length=32 := by
      refine length_combineCrc hcombined ?_
      rw [length_take]
      omega
    obtain ⟨hlen,hcount,hagree⟩:=ih hcrc hrest
    rw [length_drop] at hlen
    rw [blockBits_cons,length_cons]
    refine ⟨by omega,by omega,?_⟩
    intro bits' turns' hpre hturns
    obtain ⟨turns',rfl⟩ : ∃t,turns'=t+1:=⟨turns' - 1,by omega⟩
    have hmagic' : bits'.take 48=blockMagic := by
      rw [take_of_isPrefix hpre (by omega) (by omega)]
      exact hmagic
    have hbehind : (bits.drop 48).take (n+(blockBits blocks+80)) <+: bits'.drop 48 :=
      drop_of_isPrefix (by rwa [show 48+(n+(blockBits blocks+80))=48+n+blockBits blocks+80 by omega])
    have hread':=hrb.agree hread (List.IsPrefix.trans (take_isPrefix_take.mpr (.inl (by omega))) hbehind)
    have hsum : (bits'.drop 48).take 32=(bits.drop 48).take 32 :=
      take_of_isPrefix hbehind (by rw [length_drop]; omega) (by omega)
    have hrest' : readBlocks rb level turns' (bits'.drop (48+n)) (combineCrc combined ((bits.drop 48).take 32)) =
        some blocks :=
      hagree _ _ (drop_of_isPrefix (by rwa [←add_assoc])) (by omega)
    rw [readBlocks,if_pos hmagic',hread',hsum,Option.bind_eq_bind,Option.bind_some]
    dsimp only
    rw [hrest',Option.bind_eq_bind,Option.bind_some]

/-- A stream within bytes, and read again from others that begin with its header and its bits. -/
theorem streamBlocks_spec (h : streamBlocks rb data=some blocks) : 32+blockBits blocks+80≤8*data.length ∧
      ∀data',(ofBytes data).take (32+blockBits blocks+80) <+: ofBytes data' → data'.take 4=data.take 4 →
        streamBlocks rb data'=some blocks := by
  obtain ⟨hheader,hread⟩:=streamBlocks_eq_some h
  obtain ⟨hlen,hcount,hagree⟩:=readBlocks_spec hrb (by rw [length_replicate]) hread
  rw [length_drop,length_ofBytes] at hlen
  refine ⟨by omega,?_⟩
  intro data' hpre hfour
  obtain ⟨level,rest,rfl,hlevel⟩:=isBzhHeader_iff.mp hheader
  match data', hfour with
  | a::b::d::level'::rest', hfour =>
    obtain ⟨rfl,rfl,rfl,rfl⟩:=hfour
    have hlonger:=hpre.length_le
    rw [length_take,length_ofBytes,length_ofBytes] at hlonger
    rw [streamBlocks,if_pos (isBzhHeader_iff.mpr ⟨_,_,rfl,hlevel⟩)]
    refine hagree _ _ (drop_of_isPrefix (by rwa [←add_assoc])) ?_
    rw [length_ofBytes]
    omega

theorem lawful_bzDecode : Lawful isBzhHeader (bzDecode rb) := by
  have hcases : ∀{s : Bytes} {d : Bytes} {n : ℕ},bzDecode rb s=some (d,n)→∃blocks,
      streamBlocks rb s=some blocks ∧ d=(blocks.map Prod.snd).flatten ∧ n=(32+blockBits blocks+80+7) / 8 := by
    intro s d n h
    rw [bzDecode,Option.bind_eq_bind,Option.bind_eq_some_iff] at h
    obtain ⟨blocks,hblocks,h⟩:=h
    obtain ⟨rfl,rfl⟩:=Prod.mk.inj (Option.some.inj h)
    exact ⟨blocks,hblocks,rfl,rfl⟩
  refine ⟨?_,?_,?_⟩
  · intro s d n h
    obtain ⟨blocks,hblocks,-,rfl⟩:=hcases h
    obtain ⟨hlen,-⟩:=streamBlocks_spec hrb hblocks
    omega
  · intro s d n h
    obtain ⟨blocks,hblocks,-,-⟩:=hcases h
    exact (streamBlocks_eq_some hblocks).1
  · intro s t d n h hpre
    obtain ⟨blocks,hblocks,rfl,rfl⟩:=hcases h
    obtain ⟨hlen,hagree⟩:=streamBlocks_spec hrb hblocks
    obtain ⟨n,hn⟩ : ∃n,n=(32+blockBits blocks+80+7) / 8:=⟨_,rfl⟩
    rw [←hn] at hpre
    obtain ⟨rest,rfl⟩:=hpre
    have hbits : (ofBytes s).take (32+blockBits blocks+80) <+: ofBytes (s.take n++rest) := by
      rw [ofBytes_append,←take_ofBytes]
      exact (take_isPrefix_take.mpr (.inl (by omega))).trans (prefix_append _ _)
    have hfour : (s.take n++rest).take 4=s.take 4 := by
      rw [take_append_of_le_length (by rw [length_take]; omega),take_take,min_eq_left (by omega)]
    rw [bzDecode,hagree _ hbits hfour]
    rfl

/-- Cut at its headers, the file gives what is decoded in sequence if the streams behind the first gap are empty. -/
theorem bzip2_split_iff {parts : List Bytes} (hsplit : splitBzip2StreamsAtMarkers rb c=some parts)
    (h : tryParallelDecode rb c threads=some v) :
    v=(sequential (bzDecode rb) (c.length+1) c).flatten ↔ ∀d∈behindGap (bzDecode rb) parts,d=[] := by
  rw [tryParallelDecode,hsplit] at h
  dsimp only at h
  rw [splitBzip2StreamsAtMarkers] at hsplit
  dsimp only at hsplit
  split_ifs at hsplit with hheader hmarkers
  obtain rfl:=Option.some.inj hsplit
  rw [length_cons] at hmarkers
  rw [if_pos (by rw [cons_append,length_cut,length_append,length_singleton]; omega)] at h
  obtain ⟨hall,rfl⟩:=mapDecode_eq_some.mp h
  refine flatten_cut_iff (lawful_bzDecode hrb) ?_ ?_ ?_ ?_
  · refine pairwise_cons.mpr ⟨?_,?_⟩
    · intro p hp
      have hrange:=(mem_range'_1.mp (mem_of_mem_filter hp)).1
      omega
    · exact (pairwise_lt_range' 1 Nat.one_pos).filter _
  · intro p hp
    rcases mem_cons.mp hp with rfl | hp
    · obtain ⟨level,rest,rfl,-⟩:=isBzhHeader_iff.mp (by simpa using hheader)
      exact Nat.succ_pos _
    · have hrange:=mem_range'_1.mp (mem_of_mem_filter hp)
      omega
  · intro p hp hhead
    exact mem_markers (by simpa using hheader) hp hhead
  · intro part hpart
    have hsome:=hall part hpart
    rwa [decodeOneStream,Option.isSome_map] at hsome

/-- The scan finds the blocks of the stream and its end. -/
theorem scanAt_blocks (hcombined : combined.length=32)
    (h : readBlocks rb level turns (bits.drop p) combined=some blocks) (hlow : 32≤p) (hnext : nextAllowed≤p)
    (hplain : ∀q,p≤q → q<p+blockBits blocks → windowAt bits q=blockMagic ∨ windowAt bits q=eosMagic →
      q∈blockStarts p blocks) :
    scanAt bits p nextAllowed starts=(starts++blockStarts p blocks,some (p+blockBits blocks)) := by
  induction blocks generalizing turns p nextAllowed starts combined with
  | nil =>
    obtain ⟨heos,-⟩:=readBlocks_some h
    have hlen:=length_of_take_eq heos (length_word _ _)
    rw [length_drop] at hlen
    rw [scanAt_step (by omega) hlow,if_neg (by omega),windowAt,heos,if_neg (by decide),if_pos rfl,blockStarts,
      append_nil]
    rfl
  | cons block blocks ih =>
    obtain ⟨hbits,-,-⟩:=readBlocks_spec hrb hcombined h
    obtain ⟨n,content⟩:=block
    obtain ⟨hmagic,hread,turns',hrest⟩:=readBlocks_some h
    obtain ⟨hcrcLe,hle⟩:=hrb.length hread
    rw [blockBits_cons] at hplain hbits ⊢
    rw [length_drop] at hbits
    have hcrc : (combineCrc combined (((bits.drop p).drop 48).take 32)).length=32 := by
      refine length_combineCrc hcombined ?_
      rw [length_take]
      omega
    rw [drop_drop] at hrest
    have hbehind : ∀q,p<q → q<p+(48+n)→¬(windowAt bits q=blockMagic ∨ windowAt bits q=eosMagic) := by
      intro q hpq hq hwindow
      rcases mem_cons.mp (hplain q (by omega) (by omega) hwindow) with heq | hmem
      · omega
      · have hge:=le_of_mem_blockStarts hmem
        omega
    have hlater : ∀q,p+(48+n)≤q → q<p+(48+n)+blockBits blocks →
        windowAt bits q=blockMagic ∨ windowAt bits q=eosMagic → q∈blockStarts (p+(48+n)) blocks := by
      intro q hle hlt hwindow
      rcases mem_cons.mp (hplain q (by omega) (by omega) hwindow) with heq | hmem
      · omega
      · exact hmem
    have hstep : scanAt bits p nextAllowed starts=scanAt bits (p+1) (p+48) (starts++[p]) := by
      rw [scanAt_step (by omega) hlow,if_neg (by omega),windowAt,hmagic,if_pos rfl]
    have hskip : scanAt bits (p+1) (p+48) (starts++[p])=scanAt bits (p+(48+n)) (p+48) (starts++[p]) := by
      rw [scanAt_skip (by omega) (47+n) (by omega),show p+1+(47+n)=p+(48+n) by omega]
      intro q hpq hq _
      exact not_or.mp (hbehind q (by omega) (by omega))
    rw [hstep,hskip,ih hcrc hrest (by omega) (by omega) hlater,append_assoc,add_assoc p]
    rfl

/-- One block, followed by the end magic and the block's own checksum. -/
theorem readBlocks_single (hread : rb level bits=some (content,n)) (turns : ℕ) (rest : List Bool) :
    readBlocks rb level (turns+2) (blockMagic++(bits.take n++(eosMagic++(bits.take 32++rest))))
      (List.replicate 32 false)=some [(n,content)] := by
  obtain ⟨hcrcLe,hle⟩:=hrb.length hread
  have hcrcLen : (bits.take 32).length=32 := by
    rw [length_take]
    omega
  have hlen : (bits.take n).length=n := by
    rw [length_take]
    omega
  have hend : readBlocks rb level (turns+1) (eosMagic++(bits.take 32++rest)) (bits.take 32)=some [] := by
    rw [readBlocks,take_left' length_eosMagic,drop_left' length_eosMagic,if_neg (by decide),
      if_pos ⟨rfl,take_left' hcrcLen⟩]
  obtain ⟨tail,htail⟩ : ∃tail,tail=eosMagic++(bits.take 32++rest):=⟨_,rfl⟩
  rw [←htail] at hend ⊢
  have hread' : rb level (bits.take n++tail)=some (content,n):=hrb.agree hread (prefix_append _ _)
  have hcrc : (bits.take n++tail).take 32=bits.take 32 := by
    rw [take_append_of_le_length (by omega),take_take,min_eq_left hcrcLe]
  rw [readBlocks,take_left' length_blockMagic,drop_left' length_blockMagic,if_pos rfl,hread',hcrc,
    combineCrc_zeros hcrcLen,Option.bind_eq_bind,Option.bind_some]
  dsimp only
  rw [←drop_drop,drop_left' length_blockMagic,drop_left' hlen,hend,Option.bind_eq_bind,Option.bind_some]

/-- A block is decoded from a stream of its own. -/
theorem decodeOneBlock_eq (hc : isBzhHeader c=true) (hmagic : ((ofBytes c).drop p).take 48=blockMagic)
    (hread : rb (c.getD 3 0) ((ofBytes c).drop (p+48))=some (content,n)) :
    decodeOneBlock rb (c.take 4) c p (p+(48+n))=some content := by
  obtain ⟨hcrcLe,hle⟩:=hrb.length hread
  obtain ⟨bits,hbits⟩ : ∃bits,bits=(ofBytes c).drop (p+48):=⟨_,rfl⟩
  have hblock : ((ofBytes c).drop p).take (48+n)=blockMagic++bits.take n := by
    rw [take_add,hmagic,hbits,drop_drop]
  rw [length_drop] at hle
  rw [decodeOneBlock,if_neg (by omega),Nat.add_sub_cancel_left,hblock,←hbits]
  rw [←hbits] at hread
  obtain ⟨level,rest,rfl,hlevel⟩:=isBzhHeader_iff.mp hc
  obtain ⟨tail,htail⟩ : ∃tail,tail=pack (blockMagic++(bits.take n++(eosMagic++bits.take 32))):=⟨_,rfl⟩
  obtain ⟨k,hk⟩:=ofBytes_pack (blockMagic++(bits.take n++(eosMagic++bits.take 32)))
  have hblob : pack (ofBytes [0x42,0x5a,0x68,level]++(blockMagic++bits.take n)++eosMagic++bits.take 32) =
      0x42::0x5a::0x68::level::tail := by
    rw [append_assoc,append_assoc,pack_ofBytes_append,htail]
    rfl
  have hstream : streamBlocks rb (0x42::0x5a::0x68::level::tail)=some [(n,content)] := by
    have hdrop : (ofBytes (0x42::0x5a::0x68::level::tail)).drop 32=ofBytes tail :=
      drop_ofBytes (0x42::0x5a::0x68::level::tail) 4
    rw [streamBlocks,if_pos (isBzhHeader_iff.mpr ⟨level,tail,rfl,hlevel⟩),hdrop,htail,hk]
    simp only [append_assoc]
    exact readBlocks_single hrb hread _ _
  have hshow : (bzDecode rb (0x42::0x5a::0x68::level::tail)).map Prod.fst=some content := by
    rw [bzDecode,hstream]
    simp
  dsimp only [take_succ_cons,take_zero]
  rw [hblob,hshow]

/-- Each range holds its block. -/
theorem decode_ranges (hc : isBzhHeader c=true)
    (h : readBlocks rb (c.getD 3 0) turns ((ofBytes c).drop p) combined=some blocks) :
    (rangesOf (blockStarts p blocks++[p+blockBits blocks])).filterMap
      (fun range => decodeOneBlock rb (c.take 4) c range.1 range.2)=blocks.map Prod.snd := by
  induction blocks generalizing turns p combined with
  | nil => rfl
  | cons block blocks ih =>
    obtain ⟨n,content⟩:=block
    obtain ⟨hmagic,hread,turns',hrest⟩:=readBlocks_some h
    rw [drop_drop] at hread hrest
    rw [blockStarts,blockBits_cons,←add_assoc p (48+n),cons_append,rangesOf_cons,filterMap_cons,
      decodeOneBlock_eq hrb hc hmagic hread,ih hrest,map_cons]

/-- The blocks give what is decoded in sequence if there is nothing behind the first stream. -/
theorem bzip2_blocks_iff (hsplit : splitBzip2StreamsAtMarkers rb c=none) (hblocks : streamBlocks rb c=some blocks)
    (hplain : Plain c blocks) (h : tryParallelDecode rb c threads=some v) :
    v=(sequential (bzDecode rb) (c.length+1) c).flatten ↔
      ∀d∈sequential (bzDecode rb) c.length (c.drop ((32+blockBits blocks+80+7) / 8)),d=[] := by
  obtain ⟨hheader,hread⟩:=streamBlocks_eq_some hblocks
  obtain ⟨hlen,-⟩:=streamBlocks_spec hrb hblocks
  have hdecode : bzDecode rb c=some ((blocks.map Prod.snd).flatten,(32+blockBits blocks+80+7) / 8) := by
    rw [bzDecode,hblocks]
    rfl
  have hscan : scanFrom (ofBytes c) 0 0 32 []=(blockStarts 32 blocks,some (32+blockBits blocks)) := by
    rw [scanFrom_eq_scanAt (by rw [length_ofBytes]; omega),
      scanAt_blocks hrb (by rw [length_replicate]) hread le_rfl le_rfl hplain,nil_append]
  rw [tryParallelDecode,hsplit] at h
  rw [tryParallelBlockDecode] at h
  split_ifs at h
  rw [Option.bind_eq_bind,Option.bind_eq_some_iff] at h
  obtain ⟨ranges,hranges,h⟩:=h
  rw [scanBlockBitRanges,hscan] at hranges
  dsimp only at hranges
  split_ifs at hranges
  obtain rfl:=Option.some.inj hranges
  split_ifs at h
  obtain ⟨-,rfl⟩:=mapDecode_eq_some.mp h
  rw [decode_ranges hrb hheader hread,sequential,hdecode]
  rw [flatten_cons,self_eq_append_right,flatten_eq_nil_iff]

end Bzip2

section Samples

def byteMember : Decoder UInt8 Bytes := fun data =>
  if 11 ≤ data.length ∧ isGzipMagic data = true then some ([data.getD 2 0],11) else none

/-- Blocks of one byte behind the checksum. -/
def byteBlock : BlockReader := fun _ bits =>
  if 40 ≤ bits.length then some ([UInt8.ofNat (value ((bits.drop 32).take 8))],40) else none

theorem lawful_byteMember : Lawful isGzipMagic byteMember := by
  have hcases : ∀{s d : Bytes} {n : ℕ},byteMember s=some (d,n) →
      11 ≤ s.length ∧ isGzipMagic s=true ∧ d=[s.getD 2 0] ∧ n=11 := by
    intro s d n h
    rw [byteMember] at h
    split_ifs at h with hs
    obtain ⟨rfl,rfl⟩:=Prod.mk.inj (Option.some.inj h)
    exact ⟨hs.1,hs.2,rfl,rfl⟩
  refine ⟨?_,?_,?_⟩
  · intro s d n h
    obtain ⟨hlen,-,-,rfl⟩:=hcases h
    exact ⟨by decide,hlen⟩
  · intro s d n h
    exact (hcases h).2.1
  · intro s t d n h hpre
    obtain ⟨hlen,hmagic,rfl,rfl⟩:=hcases h
    obtain ⟨rest,rfl⟩:=hpre
    have htake : (s.take 11).length=11 := by
      rw [length_take]
      omega
    have hmagic' : isGzipMagic (s.take 11++rest)=true := by
      rw [isGzipMagic,take_append_of_le_length (by omega),take_take]
      exact hmagic
    have hbyte : (s.take 11++rest).getD 2 0=s.getD 2 0 := by
      rw [getD_append _ _ _ _ (by omega),getD_eq_getElem?_getD,getElem?_take_of_lt (by omega),
        getD_eq_getElem?_getD]
    rw [byteMember,if_pos ⟨by rw [length_append]; omega,hmagic'⟩,hbyte]

theorem lawful_byteBlock : LawfulReader byteBlock := by
  have hcases : ∀{level : UInt8} {bits : List Bool} {d : Bytes} {n : ℕ},byteBlock level bits=some (d,n) →
      40≤bits.length ∧ d=[UInt8.ofNat (value ((bits.drop 32).take 8))] ∧ n=40 := by
    intro level bits d n h
    rw [byteBlock] at h
    split_ifs at h with hbits
    obtain ⟨rfl,rfl⟩:=Prod.mk.inj (Option.some.inj h)
    exact ⟨hbits,rfl,rfl⟩
  refine ⟨?_,?_⟩
  · intro level bits d n h
    obtain ⟨hlen,-,rfl⟩:=hcases h
    exact ⟨by decide,hlen⟩
  · intro level bits bits' d n h hpre
    obtain ⟨hlen,rfl,rfl⟩:=hcases h
    have hlonger:=hpre.length_le
    rw [length_take] at hlonger
    have hbyte:=take_of_isPrefix (drop_of_isPrefix (k:=32) (n:=8) hpre) (by rw [length_drop]; omega) (le_refl 8)
    rw [byteBlock,if_pos (by omega),hbyte]

def sampleMember (b : UInt8) : Bytes := [0x1f,0x8b,b,0,0,0,0,0,0,0,0]

def sampleBlock (crc : Bytes) (b : UInt8) : Bytes := [0x31,0x41,0x59,0x26,0x53,0x59] ++ crc ++ [b]

def sampleStream (blocks crc : Bytes) : Bytes :=
  [0x42,0x5a,0x68,0x31] ++ blocks ++ [0x17,0x72,0x45,0x38,0x50,0x90] ++ crc

def twoMembers : Bytes := sampleMember 1 ++ sampleMember 2

def twoStreams : Bytes :=
  sampleStream (sampleBlock [0,0,0,0] 7) [0,0,0,0] ++ sampleStream (sampleBlock [0,0,0,0] 9) [0,0,0,0]

def twoBlocks : Bytes := sampleStream (sampleBlock [0,0,0,0] 7 ++ sampleBlock [0,0,0,0] 8) [0,0,0,0]

/-- The checksum of the second stream looks like a header. -/
def sampleStreams : Bytes :=
  twoBlocks ++ sampleStream (sampleBlock [0x42,0x5a,0x68,0x31] 9) [0x42,0x5a,0x68,0x31]

end Samples

/-- What is decoded in parallel is what is decoded in sequence exactly if it has nothing more behind the first gap between
members or streams, and leaves out nothing behind the first stream when that one is decoded block by block. -/
theorem parallel_decode_iff {gz : Decoder UInt8 Bytes} {rb : BlockReader} (hgz : Lawful isGzipMagic gz)
    (hrb : LawfulReader rb) (c v : Bytes) (threads : ℕ) :
    (tryParallelMultiMemberDecode gz c threads = some v →
      (v = (sequential gz (c.length + 1) c).flatten ↔
        ∀ d ∈ behindGap gz (cut c (findGzipMagicOffsets c 0 ++ [c.length])), d = [])) ∧
    (tryParallelDecode rb c threads = some v →
      (∀ parts, splitBzip2StreamsAtMarkers rb c = some parts →
        (v = (sequential (bzDecode rb) (c.length + 1) c).flatten ↔ ∀ d ∈ behindGap (bzDecode rb) parts, d = [])) ∧
      (splitBzip2StreamsAtMarkers rb c = none → ∀ blocks, streamBlocks rb c = some blocks → Plain c blocks →
        (v = (sequential (bzDecode rb) (c.length + 1) c).flatten ↔
          ∀ d ∈ sequential (bzDecode rb) c.length (c.drop ((32 + blockBits blocks + 80 + 7) / 8)), d = []))) := by
  refine ⟨fun h => gzip_parallel_iff hgz h,fun h => ⟨?_,?_⟩⟩
  · intro parts hsplit
    exact bzip2_split_iff hrb hsplit h
  · intro hsplit blocks hblocks hplain
    exact bzip2_blocks_iff hrb hsplit hblocks hplain h

theorem parallel_decode_samples :
    [1,2] = (sequential byteMember (twoMembers.length + 1) twoMembers).flatten ∧
      [7,9] = (sequential (bzDecode byteBlock) (twoStreams.length + 1) twoStreams).flatten ∧
      [7,8] = (sequential (bzDecode byteBlock) (twoBlocks.length + 1) twoBlocks).flatten := by
  refine ⟨?_,?_,?_⟩
  · exact ((parallel_decode_iff lawful_byteMember lawful_byteBlock twoMembers [1,2] 2).1 (by decide +kernel)).mpr
      (by decide +kernel)
  · exact (((parallel_decode_iff lawful_byteMember lawful_byteBlock twoStreams [7,9] 2).2 (by decide +kernel)).1
      [sampleStream (sampleBlock [0,0,0,0] 7) [0,0,0,0],sampleStream (sampleBlock [0,0,0,0] 9) [0,0,0,0]]
      (by decide +kernel)).mpr (by decide +kernel)
  · have hplain : ∀ p < 208, 32 ≤ p →
        windowAt (ofBytes twoBlocks) p = blockMagic ∨ windowAt (ofBytes twoBlocks) p = eosMagic →
        p ∈ blockStarts 32 [(40,[7]),(40,[8])] := by
      decide +kernel
    exact (((parallel_decode_iff lawful_byteMember lawful_byteBlock twoBlocks [7,8] 2).2 (by decide +kernel)).2
      (by decide +kernel) [(40,[7]),(40,[8])] (by decide +kernel) (fun p hlow hlt => hplain p hlt hlow)).mpr
      (by decide +kernel)

/-- The member behind the zero byte is decoded in parallel only, and the second stream in sequence only. -/
theorem parallel_differs :
    (Lawful isGzipMagic byteMember ∧ LawfulReader byteBlock) ∧
      (tryParallelMultiMemberDecode byteMember (sampleMember 1 ++ [0] ++ sampleMember 2) 2 = some [1,2] ∧
        (sequential byteMember 24 (sampleMember 1 ++ [0] ++ sampleMember 2)).flatten = [1]) ∧
      tryParallelDecode byteBlock sampleStreams 2 = some [7,8] ∧
        (sequential (bzDecode byteBlock) 62 sampleStreams).flatten = [7,8,9] := by
  refine ⟨⟨lawful_byteMember,lawful_byteBlock⟩,by decide +kernel,by decide +kernel⟩

end Ratarmount.Parallel
