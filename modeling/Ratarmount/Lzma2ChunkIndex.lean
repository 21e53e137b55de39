import Ratarmount.Lzma2Chunks

/-!
# The index of an LZMA2 stream is right

The window holds bytes of the pack, so what is read through it is what lies there,
wherever the window ends. A walk that does not fail lists the chunks of the stream, and
it fails only on a stream that is not one or when a read does.
-/

namespace Ratarmount.Lzma2

open List Bytes Programs

variable {pack : Pack} {c : PackCursor}

section Cursor

/-- The window is a part of the pack that begins at or before the cursor. -/
structure PackCursor.Inside (pack : Pack) (c : PackCursor) : Prop where
  window : c.window = pack.bytes.slice c.winStart c.window.length
  start : c.winStart ≤ c.abs
  abs : c.abs ≤ pack.bytes.length

def Pack.Failing (pack : Pack) : Prop := ∃ turn, pack.fails turn = true

theorem readPack_cases (offset size : ℕ) (c : PackCursor) :
    readPack pack offset size c = .ok (pack.bytes.slice offset size) { c with turn := c.turn+1 } ∨
      (∃e c',readPack pack offset size c = .error e c') ∧ pack.Failing := by
  rw [readPack,run_get_bind,run_set_bind,Pack.readAt]
  split_ifs with hnone hfails
  · refine .inl ?_
    have hslice : pack.bytes.slice offset size=[] := by
      rw [slice]
      rcases hnone with rfl | hoffset
      · exact take_zero
      · rw [drop_eq_nil_of_le hoffset,take_nil]
    rw [hslice]
    rfl
  · exact .inr ⟨⟨_,_,rfl⟩,_,hfails⟩
  · exact .inl rfl

theorem remainingInWindow_eq (h : c.Inside pack) : remainingInWindow c=c.winStart+c.window.length-c.abs := by
  have hstart:=h.start
  rw [remainingInWindow,if_neg (by omega)]
  omega

theorem slice_append_slice (xs : Bytes) (a m n : ℕ) : xs.slice a m++xs.slice (a+m) n=xs.slice a (m+n) := by
  rw [slice,slice,slice,take_add,drop_drop]

theorem slice_append_drop (xs : Bytes) (a n : ℕ) : xs.slice a n++xs.drop (a+n)=xs.drop a := by
  rw [slice,←drop_drop,take_append_drop]

theorem slice_eq_slice_length (xs : Bytes) (a n : ℕ) : xs.slice a n=xs.slice a (xs.slice a n).length := by
  rw [length_slice,slice,slice,←length_drop,take_eq_take_min]

theorem PackCursor.Inside.rest (h : c.Inside pack) :
    c.window.drop (c.abs-c.winStart)=pack.bytes.slice c.abs (c.winStart+c.window.length-c.abs) := by
  have hstart:=h.start
  have hdrop : c.window.drop (c.abs-c.winStart) =
      (pack.bytes.slice c.winStart c.window.length).drop (c.abs-c.winStart) := by
    rw [←h.window]
  rw [hdrop,slice,drop_take,drop_drop,slice]
  congr 1
  · omega
  · congr 1
    omega

theorem PackCursor.Inside.refill (h : c.Inside pack) (n turn : ℕ) :
    PackCursor.Inside pack ⟨c.abs,pack.bytes.slice c.abs n,c.abs,turn⟩ :=
  ⟨slice_eq_slice_length _ _ _,le_rfl,h.abs⟩

theorem ensure_cases (h : c.Inside pack) {n : ℕ} (hpos : 0<n) (hn : n≤packedInputWindow) :
    (∃c',ensure pack n c = .ok () c' ∧ c'.abs=c.abs ∧ c'.Inside pack ∧
        (c.abs+n≤pack.bytes.length → c.abs+n ≤ c'.winStart+c'.window.length)) ∨
      (∃e c',ensure pack n c = .error e c') ∧ pack.Failing := by
  have hstart:=h.start
  have habs:=h.abs
  have hremaining:=remainingInWindow_eq h
  rw [ensure,run_get_bind]
  split_ifs with hend hthere hsome
  · exact .inl ⟨c,rfl,rfl,h,by omega⟩
  · exact .inl ⟨c,rfl,rfl,h,by omega⟩
  · dsimp only
    rw [h.rest]
    obtain ⟨left,hleft⟩ : ∃left,left=c.winStart+c.window.length - c.abs:=⟨_,rfl⟩
    have hwindow:=congrArg List.length h.window
    rw [length_slice] at hwindow
    have hlen : (pack.bytes.slice c.abs left).length=left:=slice_length_eq (by omega)
    rw [←hleft,hlen]
    rcases @readPack_cases pack (c.abs+left) packedInputWindow c with hok | ⟨⟨e,c',herror⟩,hfailing⟩
    · refine .inl ⟨_,run_bind hok,rfl,?_,?_⟩
      · rw [slice_append_slice]
        exact h.refill _ _
      · intro hfits
        dsimp only
        rw [slice_append_slice,length_slice]
        omega
    · exact .inr ⟨⟨e,c',run_bind_error herror⟩,hfailing⟩
  · rcases @readPack_cases pack c.abs (min (pack.bytes.length - c.abs) packedInputWindow) c with hok | ⟨⟨e,c',herror⟩,hfailing⟩
    · refine .inl ⟨_,run_bind hok,rfl,h.refill _ _,?_⟩
      intro hfits
      dsimp only
      rw [length_slice]
      omega
    · exact .inr ⟨⟨e,c',run_bind_error herror⟩,hfailing⟩

/-- The walk goes on by `n` bytes and returns `a`, or it fails because they are not there or a read fails. -/
def Takes {α : Type} (pack : Pack) (m : Walk α) (c : PackCursor) (n : ℕ) (a : α) : Prop :=
  (c.abs + n ≤ pack.bytes.length ∧ ∃ c', m c = .ok a c' ∧ c'.abs = c.abs + n ∧ c'.Inside pack) ∨
    ((∃ e c', m c = .error e c') ∧ (pack.bytes.length < c.abs + n ∨ pack.Failing))

section Takes

variable {α β : Type} {m : Walk α} {k : α → Walk β} {n n' : ℕ} {a : α} {b : β}

theorem Takes.bind (hm : Takes pack m c n a)
    (hk : ∀c' : PackCursor,c'.Inside pack → c'.abs=c.abs+n → Takes pack (k a) c' n' b) : Takes pack (m >>= k) c (n+n') b := by
  rcases hm with ⟨-,c',hok,habs,hinside⟩ | ⟨⟨e,c',herror⟩,hwhy⟩
  · rw [Takes,run_bind hok,←add_assoc,←habs]
    exact hk c' hinside habs
  · refine .inr ⟨⟨e,c',run_bind_error herror⟩,?_⟩
    exact hwhy.imp_left fun hshort => by omega

theorem Takes.ok (hm : Takes pack m c n a) {a' : α} {c' : PackCursor} (h : m c = .ok a' c') :
    a'=a ∧ c.abs+n≤pack.bytes.length ∧ c'.abs=c.abs+n ∧ c'.Inside pack := by
  rcases hm with ⟨hfits,c₁,hok,habs,hinside⟩ | ⟨⟨e,c₁,herror⟩,-⟩
  · rw [hok] at h
    cases h
    exact ⟨rfl,hfits,habs,hinside⟩
  · rw [herror] at h
    cases h

theorem Takes.run (hm : Takes pack m c n a) (hfits : c.abs+n≤pack.bytes.length) (hreads : ¬pack.Failing) :
    ∃c',m c = .ok a c' ∧ c'.abs=c.abs+n ∧ c'.Inside pack := by
  rcases hm with ⟨-,hrun⟩ | ⟨-,hwhy⟩
  · exact hrun
  · exact absurd hwhy (not_or.mpr ⟨by omega,hreads⟩)

theorem Takes.position (h : c.Inside pack) (f : ℕ → α) : Takes pack (do let c ← get; pure (f c.abs)) c 0 (f c.abs) :=
  .inl ⟨h.abs,c,rfl,rfl,h⟩

end Takes

theorem takes_readExact (h : c.Inside pack) {n : ℕ} (hpos : 0<n) (hn : n≤packedInputWindow) :
    Takes pack (readExact pack n) c n (pack.bytes.slice c.abs n) := by
  rcases ensure_cases h hpos hn with ⟨c',hok,habs,hinside,hfits⟩ | ⟨⟨e,c',herror⟩,hfailing⟩
  · have hstart:=hinside.start
    have hwindow:=congrArg List.length hinside.window
    rw [length_slice] at hwindow
    rw [Takes,readExact,run_bind hok,run_get_bind]
    split_ifs with hshort
    · exact .inr ⟨⟨_,_,rfl⟩,.inl (by omega)⟩
    · refine .inl ⟨by omega,⟨c'.abs+n,c'.window,c'.winStart,c'.turn⟩,?_,?_,?_⟩
      · have hslice : c'.window.slice (c'.abs-c'.winStart) n=pack.bytes.slice c.abs n := by
          rw [hinside.window,slice_slice _ (by omega),←habs]
          congr 1
          omega
        rw [←hslice]
        rfl
      · rw [←habs]
      · exact ⟨hinside.window,by dsimp only; omega,by dsimp only; omega⟩
  · exact .inr ⟨⟨e,c',run_bind_error herror⟩,.inr hfailing⟩

theorem takes_skip (h : c.Inside pack) (n : ℕ) : Takes pack (skip pack n) c n () := by
  have hstart:=h.start
  rw [Takes,skip,run_get_bind]
  split_ifs with hshort
  · exact .inr ⟨⟨_,_,rfl⟩,.inl hshort⟩
  · exact .inl ⟨by omega,_,rfl,rfl,h.window,by dsimp only; omega,by dsimp only; omega⟩

theorem takes_readU8 (h : c.Inside pack) {b : UInt8} {tail : Bytes} (hrest : pack.bytes.drop c.abs=b::tail) :
    Takes pack (readU8 pack) c 1 (some b) := by
  have hlen:=congrArg List.length hrest
  rw [length_drop,length_cons] at hlen
  have hmore : ¬pack.bytes.length ≤ c.abs := by omega
  rcases @ensure_cases pack c h 1 Nat.one_pos (by decide) with ⟨c',hok,habs,hinside,hfits⟩ | ⟨⟨e,c',herror⟩,hfailing⟩
  · refine .inl ⟨by omega,⟨c'.abs+1,c'.window,c'.winStart,c'.turn⟩,?_,by dsimp only; omega,hinside.window,?_,?_⟩
    · have hget : c'.window[c'.abs-c'.winStart]?=some b := by
        have hdrop:=hinside.rest
        have hhead:=congrArg List.head? hdrop
        rw [head?_drop,habs,slice,hrest] at hhead
        rw [habs,hhead]
        obtain ⟨left,hleft⟩ : ∃left,c'.winStart+c'.window.length - c.abs=left+1 :=
          ⟨c'.winStart+c'.window.length-c.abs-1,by omega⟩
        rw [hleft]
        rfl
      rw [readU8,run_get_bind,if_neg hmore,run_bind hok,run_get_bind,hget]
      rfl
    · have hstart:=hinside.start
      dsimp only
      omega
    · dsimp only
      omega
  · refine .inr ⟨⟨e,c',?_⟩,.inr hfailing⟩
    rw [readU8,run_get_bind,if_neg hmore]
    exact run_bind_error herror

theorem readU8_end (hend : pack.bytes.drop c.abs=[]) : readU8 pack c = .ok none c := by
  rw [readU8,run_get_bind,if_pos (drop_eq_nil_iff.mp hend)]
  rfl

end Cursor

section Chunks

def propsLength (control : UInt8) : ℕ := if 0xc0 ≤ control then 1 else 0

def chunkHere (bytes : Bytes) (abs : ℕ) (control : UInt8) : Chunk :=
  if 0x80 ≤ control then
    let sizes := bytes.slice abs 4
    ⟨control,sizes,bytes.slice (abs + 4) (propsLength control),
      bytes.slice (abs + 4 + propsLength control) (size16 sizes 2)⟩
  else
    let sizes := bytes.slice abs 2
    ⟨control,sizes,[],bytes.slice (abs + 2) (size16 sizes 0)⟩

/-- The bytes behind the control byte, as the header counts them. -/
def Chunk.length (chunk : Chunk) : ℕ :=
  if chunk.isLzma = true then 4 + (propsLength chunk.control + size16 chunk.sizes 2) else 2 + size16 chunk.sizes 0

theorem takes_readProps (h : c.Inside pack) (control : UInt8) :
    Takes pack (readProps pack control) c (propsLength control) (pack.bytes.slice c.abs (propsLength control)) := by
  rw [readProps,propsLength]
  split_ifs
  · exact takes_readExact h Nat.one_pos (by decide)
  · rw [slice,take_zero]
    exact .inl ⟨h.abs,c,rfl,rfl,h⟩

theorem control_chunkHere (bytes : Bytes) (abs : ℕ) (control : UInt8) : (chunkHere bytes abs control).control=control := by
  rw [chunkHere]
  split_ifs <;> rfl

theorem isLzma_chunkHere (bytes : Bytes) (abs : ℕ) (control : UInt8) :
    (chunkHere bytes abs control).isLzma=decide (0x80 ≤ control) := by
  rw [Chunk.isLzma,control_chunkHere]

variable {α : Type} {control : UInt8} {bytes : Bytes} {abs : ℕ}

/-- The data of a chunk, and a value made of the position behind it. -/
theorem takes_data (h : c.Inside pack) (n : ℕ) (f : ℕ → α) :
    Takes pack (do skip pack n; let c ← get; pure (f c.abs)) c n (f (c.abs+n)) := by
  have hend : ∀c' : PackCursor,c'.Inside pack → c'.abs=c.abs+n →
      Takes pack (do let c ← get; pure (f c.abs)) c' 0 (f (c.abs+n)) := by
    intro c' h' habs
    rw [←habs]
    exact Takes.position h' f
  exact @Takes.bind pack c _ _ (skip pack n) (fun _ => do let c ← get; pure (f c.abs)) n 0 () _ (takes_skip h n) hend

theorem takes_propsData (h : c.Inside pack) (control : UInt8) (n : ℕ) (f : ℕ → α) :
    Takes pack (do let _ ← readProps pack control; skip pack n; let c ← get; pure (f c.abs)) c (propsLength control+n)
      (f (c.abs+(propsLength control+n))) := by
  apply (takes_readProps h control).bind
  intro c' h' habs
  rw [←add_assoc,←habs]
  exact takes_data h' n f

theorem takes_readChunk (h : c.Inside pack) (hcontrol : 0x80 ≤ control ∨ control=1 ∨ control=2)
    (index start unpacked : ℕ) :
    Takes pack (readChunk pack index start unpacked control) c (chunkHere pack.bytes c.abs control).length
      ⟨index,start,c.abs+(chunkHere pack.bytes c.abs control).length-start,unpacked,
        (chunkHere pack.bytes c.abs control).unpackedSize,control,decide (0x80 ≤ control),dictReset control⟩ := by
  have hlzma:=isLzma_chunkHere pack.bytes c.abs control
  rw [readChunk,Chunk.length,Chunk.unpackedSize,hlzma,chunkHere]
  by_cases hhigh : 0x80 ≤ control
  · simp only [hhigh,decide_true,if_true]
    have hrest : ∀c' : PackCursor,c'.Inside pack → c'.abs=c.abs+4→∀n (f : ℕ → ChunkIndex),
        Takes pack (do let _ ← readProps pack control; skip pack n; let c ← get; pure (f c.abs) : Walk ChunkIndex) c'
          (propsLength control+n) (f (c.abs+(4+(propsLength control+n)))) := by
      intro c' h' habs n f
      rw [←add_assoc c.abs,←habs]
      exact takes_propsData h' control n f
    exact (@takes_readExact pack c h 4 (by decide) (by decide)).bind fun c' h' habs => hrest c' h' habs _
      fun pos => ⟨index,start,pos-start,unpacked,_,control,true,dictReset control⟩
  · have hlow:=hcontrol.resolve_left hhigh
    have hreset : decide (control=1)=dictReset control := by
      rcases hlow with rfl | rfl <;> rfl
    simp only [hhigh,hlow,decide_false,Bool.false_eq_true,if_true,if_false,hreset]
    have hrest : ∀c' : PackCursor,c'.Inside pack → c'.abs=c.abs+2→∀n (f : ℕ → ChunkIndex),
        Takes pack (do skip pack n; let c ← get; pure (f c.abs) : Walk ChunkIndex) c' n (f (c.abs+(2+n))) := by
      intro c' h' habs n f
      rw [←add_assoc c.abs,←habs]
      exact takes_data h' n f
    exact (@takes_readExact pack c h 2 (by decide) (by decide)).bind fun c' h' habs => hrest c' h' habs _
      fun pos => ⟨index,start,pos-start,unpacked,_,control,false,dictReset control⟩

theorem control_of_readChunk {index start unpacked : ℕ} {c c' : PackCursor} {entry : ChunkIndex}
    (h : readChunk pack index start unpacked control c = .ok entry c') : 0x80 ≤ control ∨ control=1 ∨ control=2 := by
  by_contra hnot
  have hlow:=not_or.mp hnot
  rw [readChunk,if_neg hlow.1,if_neg hlow.2] at h
  cases h

theorem chunkHere_lzma (h : 0x80 ≤ control) (bytes : Bytes) (abs : ℕ) :
    chunkHere bytes abs control=⟨control,bytes.slice abs 4,bytes.slice (abs+4) (propsLength control),
      bytes.slice (abs+4+propsLength control) (size16 (bytes.slice abs 4) 2)⟩ := if_pos h

theorem chunkHere_copy (h : ¬0x80 ≤ control) (bytes : Bytes) (abs : ℕ) :
    chunkHere bytes abs control=⟨control,bytes.slice abs 2,[],bytes.slice (abs+2) (size16 (bytes.slice abs 2) 0)⟩ :=
  if_neg h

/-- A chunk that fits is one of the stream. -/
theorem chunkHere_ok (hcontrol : 0x80 ≤ control ∨ control=1 ∨ control=2)
    (hfits : abs+(chunkHere bytes abs control).length≤bytes.length) : (chunkHere bytes abs control).Ok ∧
      (chunkHere bytes abs control).bytes=control::bytes.slice abs (chunkHere bytes abs control).length := by
  have hlzma:=isLzma_chunkHere bytes abs control
  rw [Chunk.length,hlzma] at hfits ⊢
  rw [Chunk.Ok,hlzma,Chunk.bytes]
  by_cases hhigh : 0x80 ≤ control
  · rw [decide_eq_true hhigh] at hfits ⊢
    rw [if_pos rfl,chunkHere_lzma hhigh] at hfits
    rw [if_pos rfl,if_pos rfl,chunkHere_lzma hhigh]
    dsimp only at hfits ⊢
    obtain ⟨n,hn⟩ : ∃n,n=size16 (bytes.slice abs 4) 2:=⟨_,rfl⟩
    rw [←hn] at hfits ⊢
    refine ⟨⟨slice_length_eq (by omega),slice_length_eq (by omega),slice_length_eq (by omega)⟩,?_⟩
    rw [slice_append_slice,slice_append_slice]
    rfl
  · rw [decide_eq_false hhigh] at hfits ⊢
    rw [if_neg Bool.false_ne_true,chunkHere_copy hhigh] at hfits
    rw [if_neg Bool.false_ne_true,if_neg Bool.false_ne_true,chunkHere_copy hhigh]
    dsimp only at hfits ⊢
    obtain ⟨n,hn⟩ : ∃n,n=size16 (bytes.slice abs 2) 0:=⟨_,rfl⟩
    rw [←hn] at hfits ⊢
    refine ⟨⟨hcontrol.resolve_left hhigh,slice_length_eq (by omega),rfl,slice_length_eq (by omega)⟩,?_⟩
    rw [nil_append,slice_append_slice]
    rfl

/-- The chunk that lies there is the one that is read. -/
theorem chunkHere_eq {chunk : Chunk} {tail : Bytes} (hok : chunk.Ok)
    (hrest : bytes.drop abs=chunk.sizes++(chunk.props++(chunk.data++tail))) :
    chunkHere bytes abs chunk.control=chunk ∧ chunk.bytes.length=1+chunk.length := by
  have hsizes : bytes.slice abs chunk.sizes.length=chunk.sizes := by
    rw [slice,hrest,take_left' rfl]
  have hprops : bytes.slice (abs+chunk.sizes.length) chunk.props.length=chunk.props := by
    rw [slice,←drop_drop,hrest,drop_left' rfl,take_left' rfl]
  have hdata : bytes.slice (abs+chunk.sizes.length+chunk.props.length) chunk.data.length=chunk.data := by
    rw [slice,←drop_drop,←drop_drop,hrest,drop_left' rfl,drop_left' rfl,take_left' rfl]
  rw [Chunk.bytes,length_append,length_append,length_append,Chunk.length]
  rw [Chunk.Ok] at hok
  by_cases hlzma : chunk.isLzma=true
  · rw [if_pos hlzma] at hok ⊢
    obtain ⟨hsizesLen,hpropsLen,hdataLen⟩:=hok
    rw [←propsLength] at hpropsLen
    rw [hsizesLen] at hsizes hprops hdata
    rw [hpropsLen] at hprops hdata
    rw [hdataLen] at hdata
    rw [chunkHere_lzma (of_decide_eq_true hlzma),hsizes,hprops,hdata,hsizesLen,hpropsLen,hdataLen]
    exact ⟨rfl,rfl⟩
  · rw [if_neg hlzma] at hok ⊢
    obtain ⟨-,hsizesLen,hnil,hdataLen⟩:=hok
    rw [hnil,length_nil,add_zero,hsizesLen,hdataLen] at hdata
    rw [hsizesLen] at hsizes
    have hhigh : ¬0x80 ≤ chunk.control:=fun hhigh => hlzma (decide_eq_true hhigh)
    rw [chunkHere_copy hhigh,hsizes,hdata,hsizesLen,hdataLen,hnil,←hnil]
    refine ⟨rfl,?_⟩
    rw [hnil,length_nil,zero_add]
    rfl

end Chunks

section Index

def indexAt (pack : Pack) (turns index unpacked : ℕ) (need : Bool) (start : ℕ) (control : UInt8) : Walk (List ChunkIndex) :=
  if control = 0 then pure []
  else if dictReset control = false ∧ need = true then throw "LZMA2 stream missing dictionary reset"
  else do
    let chunk ← readChunk pack index start unpacked control
    let more ← indexFrom pack turns (index + 1) (unpacked + chunk.unpackedSize) (need && !dictReset control)
    pure (chunk :: more)

variable {c' : PackCursor} {list : List ChunkIndex}

theorem indexFrom_of_byte {control : UInt8} (hbyte : readU8 pack c = .ok (some control) c') (turns index unpacked : ℕ)
    (need : Bool) :
    indexFrom pack (turns+1) index unpacked need c=indexAt pack turns index unpacked need c.abs control c' :=
  run_bind hbyte

theorem indexFrom_of_end (hend : readU8 pack c = .ok none c) (turns index unpacked : ℕ) (need : Bool) :
    indexFrom pack (turns+1) index unpacked need c = .ok [] c :=
  run_bind hend

/-- The entry of the chunk at the cursor, which has its control byte behind it. -/
theorem describe_chunkHere {control : UInt8} {chunks : List Chunk} (hcontrol : 0x80 ≤ control ∨ control=1 ∨ control=2)
    {bytes : Bytes} {abs : ℕ} (hfits : abs+1+(chunkHere bytes (abs+1) control).length≤bytes.length) (index unpacked : ℕ) :
    describe (chunkHere bytes (abs+1) control::chunks) index abs unpacked =
      ⟨index,abs,abs+1+(chunkHere bytes (abs+1) control).length-abs,unpacked,
        (chunkHere bytes (abs+1) control).unpackedSize,control,decide (0x80 ≤ control),dictReset control⟩ ::
      describe chunks (index+1) (abs+1+(chunkHere bytes (abs+1) control).length)
        (unpacked+(chunkHere bytes (abs+1) control).unpackedSize) := by
  have hbytes:=congrArg List.length (chunkHere_ok hcontrol hfits).2
  rw [length_cons,slice_length_eq hfits] at hbytes
  rw [describe,hbytes,isLzma_chunkHere,control_chunkHere]
  congr 2 <;> omega

theorem indexFrom_sound {turns : ℕ} {index unpacked : ℕ} {need : Bool} (h : c.Inside pack)
    (hturns : pack.bytes.length-c.abs<turns) (hok : indexFrom pack turns index unpacked need c = .ok list c') :
    ∃chunks : List Chunk,(∀chunk∈chunks,chunk.Ok) ∧ (need=true→∀chunk∈chunks.head?,dictReset chunk.control=true) ∧
      (∃tail,pack.bytes.drop c.abs=chunks.flatMap Chunk.bytes++tail ∧ tail.headD 0=0) ∧
      list=describe chunks index c.abs unpacked := by
  induction turns generalizing c index unpacked need list with
  | zero => omega
  | succ turns ih =>
    cases hrest : pack.bytes.drop c.abs with
    | nil =>
      rw [indexFrom_of_end (readU8_end hrest)] at hok
      cases hok
      exact ⟨[],nofun,nofun,⟨[],rfl,rfl⟩,rfl⟩
    | cons control tail =>
      rw [indexFrom,run_get_bind] at hok
      obtain ⟨byte,c₁,hbyte,hok⟩:=ok_of_bind hok
      obtain ⟨rfl,-,habs₁,h₁⟩:=(takes_readU8 h hrest).ok hbyte
      change indexAt pack turns index unpacked need c.abs control c₁=_ at hok
      rw [indexAt] at hok
      split_ifs at hok with hzero hneed
      · cases hok
        exact ⟨[],nofun,nofun,⟨_,rfl,hzero⟩,rfl⟩
      · cases hok
      · obtain ⟨entry,c₂,hchunk,hok⟩:=ok_of_bind hok
        have hcontrol:=control_of_readChunk hchunk
        obtain ⟨rfl,hfits,habs₂,h₂⟩:=(takes_readChunk h₁ hcontrol index c.abs unpacked).ok hchunk
        obtain ⟨more,c₃,hmore,hok⟩:=ok_of_bind hok
        cases hok
        rw [habs₁] at hfits habs₂ hmore ⊢
        obtain ⟨chunks,hchunks,-,⟨tail',hbytes,hhead⟩,hmoreEq⟩:=ih h₂ (by omega) hmore
        obtain ⟨hchunkOk,hchunkBytes⟩:=chunkHere_ok hcontrol hfits
        refine ⟨chunkHere pack.bytes (c.abs+1) control::chunks,?_,?_,⟨tail',?_,hhead⟩,?_⟩
        · exact forall_mem_cons.mpr ⟨hchunkOk,hchunks⟩
        · intro htrue chunk hmem
          obtain rfl : chunkHere pack.bytes (c.abs+1) control=chunk:=Option.some.inj hmem
          rw [control_chunkHere]
          by_contra hnot
          exact hneed ⟨Bool.eq_false_iff.mpr hnot,htrue⟩
        · rw [flatMap_cons,append_assoc,←hbytes,habs₂,hchunkBytes,cons_append]
          have hnext : tail=pack.bytes.drop (c.abs+1) := by
            rw [←drop_drop,hrest]
            rfl
          rw [hnext,slice_append_drop]
        · rw [describe_chunkHere hcontrol hfits,hmoreEq,habs₂]

theorem Chunk.Ok.control {chunk : Chunk} (h : chunk.Ok) : 0x80 ≤ chunk.control ∨ chunk.control=1 ∨ chunk.control=2 := by
  rw [Chunk.Ok] at h
  by_cases hlzma : chunk.isLzma=true
  · exact .inl (of_decide_eq_true hlzma)
  · rw [if_neg hlzma] at h
    exact .inr h.1

/-- A stream is walked to its end if no read fails. -/
theorem indexFrom_complete {chunks : List Chunk} {tail : Bytes} {turns index unpacked : ℕ} {need : Bool} (h : c.Inside pack)
    (hreads : ¬pack.Failing) (hchunks : ∀chunk∈chunks,chunk.Ok)
    (hneed : need=true→∀chunk∈chunks.head?,dictReset chunk.control=true)
    (hrest : pack.bytes.drop c.abs=chunks.flatMap Chunk.bytes++tail) (htail : tail.headD 0=0) (hturns : chunks.length<turns) :
    ∃c',indexFrom pack turns index unpacked need c = .ok (describe chunks index c.abs unpacked) c' := by
  induction chunks generalizing c turns index unpacked need with
  | nil =>
    obtain ⟨turns,rfl⟩ : ∃t,turns=t+1:=⟨turns - 1,by omega⟩
    cases tail with
    | nil => exact ⟨c,indexFrom_of_end (readU8_end hrest) _ _ _ _⟩
    | cons control tail =>
      have hlen:=congrArg List.length hrest
      rw [length_drop,flatMap_nil,nil_append,length_cons] at hlen
      obtain ⟨c₁,hbyte,-,-⟩:=(takes_readU8 h hrest).run (by omega) hreads
      refine ⟨c₁,?_⟩
      rw [indexFrom_of_byte hbyte,indexAt,if_pos (show control=0 from htail)]
      rfl
  | cons chunk chunks ih =>
    rw [length_cons] at hturns
    obtain ⟨turns,rfl⟩ : ∃t,turns=t+1:=⟨turns - 1,by omega⟩
    have hok:=hchunks chunk mem_cons_self
    have hcontrol:=hok.control
    rw [flatMap_cons,append_assoc,Chunk.bytes,append_assoc,append_assoc,append_assoc] at hrest
    have hnext : pack.bytes.drop (c.abs+1) =
        chunk.sizes++(chunk.props++(chunk.data++(chunks.flatMap Chunk.bytes++tail))) := by
      rw [←drop_drop,hrest]
      rfl
    obtain ⟨hhere,hbytes⟩:=chunkHere_eq hok hnext
    have hlen:=congrArg List.length hrest
    have hfits : c.abs+1+chunk.length≤pack.bytes.length := by
      rw [Chunk.bytes] at hbytes
      simp only [length_append,length_drop,length_singleton] at hlen hbytes
      omega
    obtain ⟨c₁,hbyte,habs₁,h₁⟩:=(takes_readU8 h hrest).run (by omega) hreads
    have htakes:=takes_readChunk h₁ hcontrol index c.abs unpacked
    rw [habs₁,hhere] at htakes
    obtain ⟨c₂,hchunk,habs₂,h₂⟩:=htakes.run (by omega) hreads
    rw [habs₁] at habs₂
    have hrest₂ : pack.bytes.drop c₂.abs=chunks.flatMap Chunk.bytes++tail := by
      have hskip : (chunk.sizes++(chunk.props++chunk.data)).length=chunk.length := by
        rw [Chunk.bytes,length_append,length_singleton] at hbytes
        omega
      rw [habs₂,←drop_drop,hnext,←hskip]
      simp only [←append_assoc]
      rw [append_assoc _ (chunks.flatMap Chunk.bytes),drop_left' rfl]
    have hreset : ¬(dictReset chunk.control=false ∧ need=true) := by
      rintro ⟨hfalse,htrue⟩
      rw [hneed htrue chunk rfl] at hfalse
      cases hfalse
    have hneed₂ : (need && !dictReset chunk.control)=true→∀x∈chunks.head?,dictReset x.control=true := by
      intro hboth
      rw [Bool.and_eq_true,Bool.not_eq_true'] at hboth
      exact absurd ⟨hboth.2,hboth.1⟩ hreset
    obtain ⟨c₃,hmore⟩:=@ih c₂ turns (index+1) (unpacked+chunk.unpackedSize) (need && !dictReset chunk.control) h₂
      (fun x hx => hchunks x (mem_cons_of_mem _ hx)) hneed₂ hrest₂ (by omega)
    refine ⟨c₃,?_⟩
    have hzero : chunk.control≠0 := by
      intro hzero
      rw [hzero] at hcontrol
      revert hcontrol
      decide
    have hdescribe:=@describe_chunkHere chunk.control chunks hcontrol pack.bytes c.abs (by rw [hhere]; omega) index unpacked
    rw [hhere] at hdescribe
    rw [indexFrom_of_byte hbyte,indexAt,if_neg hzero,if_neg hreset,run_bind hchunk,run_bind hmore,hdescribe,habs₂]
    rfl

theorem inside_start (pack : Pack) : PackCursor.Inside pack ⟨0,[],0,0⟩ where
  window := take_zero.symm
  start := le_refl 0
  abs := Nat.zero_le _

/-- Whatever the walk lists are the chunks of the stream. -/
theorem indexLzma2Chunks_sound (h : indexLzma2ChunksFromPack pack = .ok list) :
    ∃chunks,IsStream pack.bytes chunks ∧ list=describe chunks 0 0 0 := by
  rw [indexLzma2ChunksFromPack] at h
  cases hrun : indexFrom pack (pack.bytes.length+1) 0 0 true ⟨0,[],0,0⟩ with
  | error e c =>
    rw [hrun] at h
    cases h
  | ok list' c =>
    rw [hrun] at h
    cases h
    obtain ⟨chunks,hok,hreset,hbytes,hlist⟩:=indexFrom_sound (inside_start pack) (Nat.lt_succ_self _) hrun
    exact ⟨chunks,⟨hok,hreset rfl,hbytes⟩,hlist⟩

theorem indexLzma2Chunks_complete {chunks : List Chunk} (hreads : ¬pack.Failing) (h : IsStream pack.bytes chunks) :
    indexLzma2ChunksFromPack pack = .ok (describe chunks 0 0 0) := by
  obtain ⟨tail,hbytes,hhead⟩:=h.bytes
  have hlen:=congrArg List.length hbytes
  have hcount : chunks.length≤(chunks.flatMap Chunk.bytes).length:=length_le_flatMap fun _ _ => Nat.succ_pos _
  rw [length_append] at hlen
  obtain ⟨c,hrun⟩:=@indexFrom_complete pack ⟨0,[],0,0⟩ chunks tail (pack.bytes.length+1) 0 0 true (inside_start pack)
    hreads h.ok (fun _ => h.reset) hbytes hhead (by omega)
  rw [indexLzma2ChunksFromPack,hrun]

end Index

end Ratarmount.Lzma2
