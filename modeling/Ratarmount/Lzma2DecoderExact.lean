import Ratarmount.Lzma2ChunkIndex
import Ratarmount.Lzma2Decoder

/-!
# Ranges of an LZMA2 folder are exact

Of the raw decoder it is assumed that, started at the beginning or, without filters, at an
independent chunk, it writes the content from there on. Then the whole content, its
retained beginning, the windows and the live decoder all hold the same bytes, after any
calls and failures.
-/

namespace Ratarmount.Lzma2

open List AList Bool

open SevenZip (Coder Folder)
open Programs (Triple)

section Assumptions

def Next (xs : Bytes) (pos : ℕ) (bytes : Bytes) : Prop := bytes = xs.slice pos bytes.length

/-- Where a raw decoder may be started: at the beginning or, if the chain has no filter, at an independent chunk. -/
def ResumesAt (folder : Folder) (packed : Bytes) (packedPos unpackedPos : ℕ) : Prop :=
  (packedPos = 0 ∧ unpackedPos = 0) ∨
    ((∀ coder ∈ contentCoders folder, coder.method = methodLzma ∨ coder.method = methodLzma2) ∧
      ∃ chunks, IsStream packed chunks ∧ ∃ c ∈ describe chunks 0 0 0,
        c.independent = true ∧ c.packedOffset = packedPos ∧ c.unpackedOffset = unpackedPos)

variable {S : Type}

/-- The states of raw decoders that have been started so and have got the packed bytes one after the other, cut in any way. -/
inductive Reached (folder : Folder) (packed : Bytes) (raw : RawDecoder S) : S → ℕ → ℕ → Prop
  | start {turn : ℕ} {s : S} {p u : ℕ} : raw.start turn = some s → ResumesAt folder packed p u → Reached folder packed raw s p u
  | code {s : S} {p u : ℕ} (input : Bytes) (room : ℕ) : Reached folder packed raw s p u → Next packed p input → 0 < room →
      Reached folder packed raw (raw.code s input room (packed.length ≤ p)).state
        (p + (raw.code s input room (packed.length ≤ p)).consumed)
        (u + (raw.code s input room (packed.length ≤ p)).produced.length)

/-- Every call writes the next bytes of the content. -/
def Decodes (folder : Folder) (packed : Bytes) (raw : RawDecoder S) (content : Bytes) : Prop :=
  ∀ {s : S} {p u : ℕ}, Reached folder packed raw s p u → ∀ {input : Bytes} {room : ℕ}, Next packed p input → 0 < room →
    Next content u (raw.code s input room (packed.length ≤ p)).produced

structure Sound (x : Setup S) (folder : Folder) (content : Bytes) : Prop where
  size : x.unpackSize = content.length
  chunkSize : 0 < x.chunkSize
  decodes : Decodes folder x.pack.bytes x.raw content
  resumes : ∀ start, ResumesAt folder x.pack.bytes (resumePoint x start).1 (resumePoint x start).2 ∧
    (resumePoint x start).2 ≤ start

end Assumptions

variable {S : Type} {x : Setup S} {folder : Folder} {content : Bytes}

section Invariant

/-- Wherever content is kept, it is that of the folder. -/
structure Inv (x : Setup S) (folder : Folder) (content : Bytes) (s : State S) : Prop where
  full : ∀ full, s.full = some full → full = content
  retained : Next content 0 s.prefixFromZero
  windows : ∀ index window, s.windowCache.lookup index = some window → window = content.slice (index * x.chunkSize) x.chunkSize
  live : ∀ c, s.live = some c → Reached folder x.pack.bytes x.raw c.state c.absPackedPos c.unpackedPos
  packed : Next x.pack.bytes s.packedWindowStart s.packedWindow

def With (x : Setup S) (folder : Folder) (content : Bytes) (live : Option (LiveCursor S)) (s : State S) : Prop :=
  Inv x folder content s ∧ s.live = live

def At (x : Setup S) (folder : Folder) (content : Bytes) (pos : ℕ) (s : State S) : Prop :=
  Inv x folder content s ∧ ∃ c, s.live = some c ∧ c.unpackedPos = pos

/-- The program returns the content there, or fails. -/
def Serves (x : Setup S) (folder : Folder) (content : Bytes) (m : Decoding S Bytes) (start n : ℕ) : Prop :=
  Triple (Inv x folder content) m (fun bytes s => Inv x folder content s ∧ bytes = content.slice start n) (Inv x folder content)

theorem next_slice (xs : Bytes) (pos n : ℕ) : Next xs pos (xs.slice pos n) := slice_eq_slice_length xs pos n

theorem Next.append {xs a b : Bytes} {pos : ℕ} (ha : Next xs pos a) (hb : Next xs (pos+a.length) b) : Next xs pos (a++b) := by
  rw [Next,length_append,←slice_append_slice,←ha,←hb]

theorem Next.drop {xs a : Bytes} {pos : ℕ} (h : Next xs pos a) (n : ℕ) : Next xs (pos+n) (a.drop n) := by
  have hdrop : a.drop n=(xs.slice pos a.length).drop n := by rw [←h]
  rw [Next,length_drop,Bytes.slice,hdrop,Bytes.slice,drop_take,drop_drop]

theorem Next.slice {xs a : Bytes} {pos : ℕ} (h : Next xs pos a) {off n : ℕ} (hfits : off+n≤a.length) :
    a.slice off n=xs.slice (pos+off) n := by
  rw [h,Bytes.slice_slice _ hfits]

end Invariant

section Live

variable (live : Option (LiveCursor S))

theorem triple_nextTurn : Triple (With x folder content live) nextTurn (fun _ => With x folder content live) (Inv x folder content) :=
  fun _ h => ⟨⟨h.1.full,h.1.retained,h.1.windows,h.1.live,h.1.packed⟩,h.2⟩

theorem triple_readPacked (offset size : ℕ) : Triple (With x folder content live) (readPacked x offset size)
      (fun bytes s => With x folder content live s ∧ Next x.pack.bytes offset bytes) (Inv x folder content) := by
  apply (triple_nextTurn live).bind
  intro turn
  rw [Pack.readAt]
  split_ifs with hnone hfails
  · apply Triple.pure
    intro s hs
    exact ⟨hs,take_zero.symm⟩
  · exact Triple.throw fun s hs => hs.1
  · apply Triple.pure
    intro s hs
    exact ⟨hs,next_slice _ _ _⟩

theorem triple_ensurePackedWindow (abs : ℕ) :
    Triple (With x folder content live) (ensurePackedWindow x abs) (fun _ => With x folder content live) (Inv x folder content) := by
  apply Triple.read
  intro s _
  refine Triple.early (fun t ht => ht) fun _ => ?_
  refine Triple.early (fun t ht => ht) fun _ => ?_
  apply (triple_readPacked live abs _).bind
  intro window
  have hmodify : Triple (fun t => With x folder content live t ∧ Next x.pack.bytes abs window)
      (modify fun s => { s with packedWindow := window, packedWindowStart := abs } : Decoding S Unit)
      (fun _ => With x folder content live) (Inv x folder content) := by
    apply Triple.modify
    rintro t ⟨⟨hinv,hlive⟩,hwindow⟩
    exact ⟨⟨hinv.full,hinv.retained,hinv.windows,hinv.live,hwindow⟩,hlive⟩
  apply hmodify.bind
  intro _
  apply Triple.branch
  · exact Triple.throw fun t ht => ht.1
  · exact Triple.done

variable {live}

theorem windowInput_next {s : State S} (h : Inv x folder content s) (abs : ℕ) : Next x.pack.bytes abs (windowInput s abs) := by
  rw [windowInput]
  split_ifs with hin
  · have hdrop:=h.packed.drop (abs-s.packedWindowStart)
    rwa [Nat.add_sub_cancel' hin.1] at hdrop
  · exact take_zero.symm

variable {pos room start : ℕ}

variable (hx : Sound x folder content)
include hx

/-- What a call writes goes on with the content. -/
theorem triple_liveCode (hroom : 0 < room) : Triple (At x folder content pos) (liveCode x room)
      (fun r s => At x folder content (pos+r.1.produced.length) s ∧ Next content pos r.1.produced ∧ r.1.produced.length ≤ room)
      (Inv x folder content) := by
  apply Triple.get
  rintro s ⟨hinv,c,hlive,rfl⟩
  rw [hlive]
  have hinput:=windowInput_next hinv c.absPackedPos
  have hreached:=hinv.live c hlive
  intro t ht
  refine ⟨⟨⟨hinv.full,hinv.retained,hinv.windows,?_,hinv.packed⟩,_,rfl,rfl⟩,hx.decodes hreached hinput hroom,x.raw.produced_le _ _ _ _⟩
  rintro c' ⟨⟩
  exact hreached.code _ _ hinput hroom

theorem triple_liveDecodeFrom (turns : ℕ) (produced : Bytes) :
    Triple (fun s => At x folder content (pos+produced.length) s ∧ Next content pos produced ∧ produced.length ≤ room)
      (liveDecodeFrom x room turns produced)
      (fun out s => At x folder content (pos+out.length) s ∧ Next content pos out ∧ out.length ≤ room)
      (Inv x folder content) := by
  induction turns generalizing produced with
  | zero => exact Triple.pure fun s hs => hs
  | succ turns ih =>
    rw [liveDecodeFrom]
    apply Triple.ite
    · intro _
      exact Triple.pure fun s hs => hs
    intro hmore
    apply Triple.get
    rintro s ⟨⟨hinv,c,hlive,hpos⟩,hnext,hlen⟩
    have hensure:=(@triple_ensurePackedWindow S x folder content (some c)
      ((s.live.map LiveCursor.absPackedPos).getD x.pack.bytes.length)).pre
      (show ∀t,t=s → With x folder content (some c) t from fun t ht => ht ▸ ⟨hinv,hlive⟩)
    apply hensure.bind
    intro _
    have hcode:=(triple_liveCode hx (show 0 < room-produced.length by omega)).pre
      (show ∀t,With x folder content (some c) t → At x folder content (pos+produced.length) t from
        fun t ht => ⟨ht.1,c,ht.2,hpos⟩)
    apply hcode.bind
    rintro ⟨r,availIn,atPackEof⟩
    have hgoes : ∀t,(At x folder content (pos+produced.length+r.produced.length) t ∧
        Next content (pos+produced.length) r.produced ∧ r.produced.length ≤ room-produced.length) →
        At x folder content (pos+(produced++r.produced).length) t ∧ Next content pos (produced++r.produced) ∧
          (produced++r.produced).length ≤ room := by
      rintro t ⟨hat,hmoreNext,hfits⟩
      rw [length_append,←add_assoc]
      exact ⟨hat,hnext.append hmoreNext,by omega⟩
    dsimp only
    refine Triple.early hgoes fun _ => ?_
    apply Triple.branch
    · exact Triple.throw fun t ht => ht.1.1
    refine Triple.early hgoes fun _ => ?_
    apply Triple.branch
    · exact (ih _).pre hgoes
    exact Triple.early hgoes fun _ => (ih _).pre hgoes

theorem triple_liveDecodeInto {pos : ℕ} (room : ℕ) : Triple (At x folder content pos) (liveDecodeInto x room)
      (fun out s => At x folder content (pos+out.length) s ∧ Next content pos out ∧ out.length ≤ room)
      (Inv x folder content) := by
  have hstart : ∀s,At x folder content pos s →
      At x folder content (pos+([] : Bytes).length) s ∧ Next content pos [] ∧ ([] : Bytes).length ≤ room :=
    fun s hs => ⟨hs,take_zero.symm,Nat.zero_le _⟩
  exact Triple.early hstart fun _ => (triple_liveDecodeFrom hx _ []).pre hstart

omit hx in
theorem triple_startLiveAt {packedPos unpackedPos : ℕ} (h : ResumesAt folder x.pack.bytes packedPos unpackedPos) :
    Triple (Inv x folder content) (startLiveAt x packedPos unpackedPos) (fun _ => At x folder content unpackedPos)
      (Inv x folder content) := by
  have hdrop : Triple (Inv x folder content)
      (modify fun s => { s with live := none, packedWindow := [], packedWindowStart := packedPos } : Decoding S Unit)
      (fun _ => With x folder content none) (Inv x folder content) := by
    apply Triple.modify
    intro s hs
    exact ⟨⟨hs.full,hs.retained,hs.windows,nofun,take_zero.symm⟩,rfl⟩
  apply hdrop.bind
  intro _
  apply (triple_ensurePackedWindow none packedPos).bind
  intro _
  apply (triple_nextTurn none).bind
  intro turn
  cases hstart : x.raw.start turn with
  | none => exact Triple.throw fun s hs => hs.1
  | some state =>
    apply Triple.modify
    rintro s ⟨hs,-⟩
    refine ⟨⟨hs.full,hs.retained,hs.windows,?_,hs.packed⟩,_,rfl,rfl⟩
    rintro c ⟨⟩
    exact .start hstart h

omit hx in
theorem Next.all {bytes : Bytes} (h : Next content 0 bytes) {n : ℕ} (hn : n=content.length) (hlong : n≤bytes.length) :
    bytes.take n=content := by
  rw [h,Bytes.slice,drop_zero,take_take,hn,take_of_length_le (by omega)]

/-- What is kept of the decoded bytes is the beginning of the content. -/
theorem triple_noteProduced {pos start : ℕ} {data : Bytes} (hdata : Next content start data) :
    Triple (At x folder content pos) (noteProduced x start data) (fun _ => At x folder content pos) (Inv x folder content) := by
  apply Triple.modify
  rintro s ⟨hs,hlive⟩
  dsimp only
  split_ifs with hoff hgap hold hfull
  · exact ⟨hs,hlive⟩
  · exact ⟨hs,hlive⟩
  · exact ⟨hs,hlive⟩
  all_goals
    have hkept : Next content 0 (s.prefixFromZero++data.drop (s.prefixFromZero.length-start)) := by
      apply hs.retained.append
      have hdrop:=hdata.drop (s.prefixFromZero.length-start)
      rwa [show start+(s.prefixFromZero.length-start)=0+s.prefixFromZero.length by omega] at hdrop
  · refine ⟨⟨?_,take_zero.symm,hs.windows,hs.live,hs.packed⟩,hlive⟩
    rintro full ⟨⟩
    exact hkept.all hx.size hfull.1
  · exact ⟨⟨hs.full,hkept,hs.windows,hs.live,hs.packed⟩,hlive⟩

theorem triple_liveSkipFrom (target turns : ℕ) :
    Triple (fun s => ∃pos,At x folder content pos s ∧ pos≤target ∧ target<pos+turns) (liveSkipFrom x target turns)
      (fun _ => At x folder content target) (Inv x folder content) := by
  induction turns with
  | zero =>
    apply Triple.pure
    rintro s ⟨pos,-,hle,hlt⟩
    omega
  | succ turns ih =>
    rw [liveSkipFrom]
    apply Triple.get
    rintro s ⟨pos,hat,hle,hlt⟩
    obtain ⟨c,hlive,hpos⟩:=hat.2
    have hhere : (s.live.map LiveCursor.unpackedPos).getD target=pos := by
      rw [hlive]
      exact hpos
    dsimp only
    rw [hhere]
    apply Triple.ite
    swap
    · intro hdone
      obtain rfl : pos=target := by omega
      exact Triple.pure fun t ht => ht ▸ hat
    intro hmore
    apply Triple.bind ((triple_liveDecodeInto hx _).pre fun t ht => ht ▸ hat)
    intro bytes
    apply Triple.ite
    · intro _
      exact Triple.throw fun t ht => ht.1.1
    intro hsome
    have hpositive:=length_pos_of_ne_nil hsome
    apply Triple.get
    rintro t ⟨hat',hnext,hfits⟩
    obtain ⟨c',hlive',hpos'⟩:=hat'.2
    have hthere : (t.live.map LiveCursor.unpackedPos).getD 0-bytes.length=pos := by
      rw [hlive']
      change c'.unpackedPos-bytes.length=pos
      omega
    rw [hthere]
    apply Triple.bind ((triple_noteProduced hx hnext).pre fun u hu => hu ▸ hat')
    intro _
    exact ih.pre fun u hu => ⟨pos+bytes.length,hu,by omega,by omega⟩

theorem triple_resumeLive (start : ℕ) :
    Triple (Inv x folder content) (resumeLive x start) (fun _ s => ∃pos,At x folder content pos s ∧ pos ≤ start)
      (Inv x folder content) := by
  obtain ⟨hresumes,hbefore⟩:=hx.resumes start
  apply Triple.get
  intro s hs
  apply Triple.ite
  · intro hcontinue
    apply Triple.pure
    rintro t rfl
    cases hlive : t.live with
    | none =>
      rw [hlive] at hcontinue
      cases hcontinue
    | some c =>
      rw [hlive] at hcontinue
      have hpos:=of_decide_eq_true hcontinue
      exact ⟨c.unpackedPos,⟨hs,c,hlive,rfl⟩,hpos.1⟩
  · intro _
    exact ((triple_startLiveAt hresumes).pre fun t ht => ht ▸ hs).weaken fun _ t ht => ⟨_,ht,hbefore⟩

theorem triple_positionLiveAt (hstart : start ≤ content.length) :
    Triple (Inv x folder content) (positionLiveAt x start) (fun _ => At x folder content start) (Inv x folder content) := by
  have hsize:=hx.size
  rw [positionLiveAt,if_neg (by omega)]
  apply (triple_resumeLive hx start).bind
  intro _
  apply Triple.get
  rintro s ⟨pos,hat,hle⟩
  obtain ⟨c,hlive,hpos⟩:=hat.2
  have hhere : (s.live.map LiveCursor.unpackedPos).getD 0=pos := by
    rw [hlive]
    exact hpos
  rw [hhere]
  apply Triple.ite
  · intro _
    exact (triple_liveSkipFrom hx start (start+1)).pre fun t ht => ⟨pos,ht ▸ hat,hle,by omega⟩
  · intro hdone
    obtain rfl : pos=start := by omega
    exact Triple.pure fun t ht => ht ▸ hat

theorem triple_fillSpan {turns : ℕ} {out : Bytes} (hnext : Next content start out) (hle : out.length ≤ room)
    (hge : room≤out.length+turns) : Triple (At x folder content (start+out.length)) (fillSpan x start room turns out)
      (fun bytes s => Inv x folder content s ∧ bytes=content.slice start room) (Inv x folder content) := by
  induction turns generalizing out with
  | zero =>
    obtain rfl : out.length=room := by omega
    exact Triple.pure fun s hs => ⟨hs.1,hnext⟩
  | succ turns ih =>
    rw [fillSpan]
    apply Triple.ite
    swap
    · intro hdone
      obtain rfl : out.length=room := by omega
      exact Triple.pure fun s hs => ⟨hs.1,hnext⟩
    intro hmore
    apply (triple_liveDecodeInto hx (room-out.length)).bind
    intro bytes
    apply Triple.ite
    · intro _
      exact Triple.throw fun t ht => ht.1.1
    intro hsome s hs
    have hpositive:=length_pos_of_ne_nil hsome
    obtain ⟨hat,hbytes,hfits⟩:=hs
    have hrest:=@ih (out++bytes) (hnext.append hbytes) (by rw [length_append]; omega)
      (by rw [length_append]; omega)
    rw [length_append,←add_assoc] at hrest
    exact (triple_noteProduced hx hbytes).bind (fun _ => hrest) s hat

/-- A decoded span is the content there. -/
theorem triple_liveDecodeSpan {start : ℕ} (hstart : start ≤ content.length) (stop : ℕ) :
    Serves x folder content (liveDecodeSpan x start stop) start (stop-start) := by
  apply Triple.ite
  · intro hnone
    apply Triple.pure
    intro s hs
    rw [Nat.sub_eq_zero_of_le hnone]
    exact ⟨hs,take_zero.symm⟩
  · intro _
    apply (triple_positionLiveAt hx hstart).bind
    intro _
    exact triple_fillSpan hx take_zero.symm (Nat.zero_le _) (by rw [length_nil]; omega)

theorem triple_ensureFull :
    Triple (Inv x folder content) (ensureFull x) (fun _ s => Inv x folder content s ∧ s.full=some content)
      (Inv x folder content) := by
  have hsize:=hx.size
  apply Triple.get
  intro s hs
  apply Triple.ite
  · intro hsome
    apply Triple.pure
    rintro t rfl
    obtain ⟨full,hfull⟩:=Option.isSome_iff_exists.mp hsome
    exact ⟨hs,hs.full full hfull ▸ hfull⟩
  intro _
  apply Triple.ite
  · intro hlong
    have hall:=hs.retained.all hx.size hlong.1
    apply Triple.set
    refine ⟨⟨?_,take_zero.symm,hs.windows,hs.live,hs.packed⟩,congrArg some hall⟩
    rintro full ⟨⟩
    exact hall
  · intro _
    refine Triple.bind ((triple_liveDecodeSpan hx (Nat.zero_le _) _).pre fun t (ht : t=s) => ht ▸ hs) fun out => ?_
    apply Triple.modify
    rintro t ⟨ht,rfl⟩
    have hall : content.slice 0 (max x.unpackSize 1-0)=content := by
      rw [Bytes.slice,drop_zero,take_of_length_le (by omega)]
    refine ⟨⟨?_,ht.retained,ht.windows,ht.live,ht.packed⟩,congrArg some hall⟩
    rintro full ⟨⟩
    exact hall

end Live

section Windows

def Kept {α : Type} (x : Setup S) (folder : Folder) (content : Bytes) (m : Decoding S α) : Prop :=
  Triple (Inv x folder content) m (fun _ => Inv x folder content) (Inv x folder content)

theorem kept_nextTurn : Kept x folder content nextTurn := fun _ h => ⟨h.full,h.retained,h.windows,h.live,h.packed⟩

theorem kept_lockCache : Kept x folder content (lockCache x) := by
  apply kept_nextTurn.bind
  intro turn
  apply Triple.branch
  · apply Triple.modify
    intro s hs
    exact ⟨hs.full,hs.retained,nofun,hs.live,hs.packed⟩
  · exact Triple.done

variable {s : State S} {index spanStart last start stop : ℕ} {data : Bytes}

theorem Inv.erase (h : Inv x folder content s) (old : ℕ) :
    ∀index window,(s.windowCache.erase old).lookup index=some window →
      window=content.slice (index*x.chunkSize) x.chunkSize := by
  intro index window hlookup
  by_cases hold : index=old
  · subst hold
    rw [lookup_erase] at hlookup
    cases hlookup
  · rw [lookup_erase_ne hold] at hlookup
    exact h.windows index window hlookup

theorem kept_evictOldest (n : ℕ) : Kept x folder content (evictOldest x n) := by
  induction n with
  | zero => exact Triple.done
  | succ n ih =>
    rw [evictOldest]
    apply Triple.read
    intro s hs
    cases hlru : s.windowLru with
    | nil => exact Triple.done
    | cons old rest =>
      have hset : Kept x folder content (set { s with windowLru:=rest } : Decoding S Unit) :=
        Triple.set ⟨hs.full,hs.retained,hs.windows,hs.live,hs.packed⟩
      apply hset.bind
      intro _
      apply kept_lockCache.bind
      intro _
      have herase : Kept x folder content
          (modify fun s => { s with windowCache := s.windowCache.erase old } : Decoding S Unit) := by
        apply Triple.modify
        intro t ht
        exact ⟨ht.full,ht.retained,ht.erase old,ht.live,ht.packed⟩
      exact herase.bind fun _ => ih

theorem kept_touchWindow (index : ℕ) : Kept x folder content (touchWindow x index) := by
  have hmove : Kept x folder content
      (modify fun s => { s with windowLru := s.windowLru.erase index++[index] } : Decoding S Unit) := by
    apply Triple.modify
    intro s hs
    exact ⟨hs.full,hs.retained,hs.windows,hs.live,hs.packed⟩
  apply hmove.bind
  intro _
  exact Triple.read fun s _ => kept_evictOldest _

theorem Inv.makeRoom (h : Inv x folder content s) (at_ : ℕ) :
    ∀index window,(makeRoom s at_).lookup index=some window → window=content.slice (index*x.chunkSize) x.chunkSize := by
  rw [Lzma2.makeRoom]
  split_ifs
  · cases s.windowLru with
    | nil => exact h.windows
    | cons old rest => exact h.erase old
  · exact h.windows

/-- A window may be stored if it is the content there. -/
theorem kept_storeWindow (hdata : data=content.slice (index*x.chunkSize) x.chunkSize) :
    Kept x folder content (storeWindow x index data) := by
  refine Triple.early (fun s hs => hs) fun _ => ?_
  apply kept_lockCache.bind
  intro _
  apply Triple.read
  intro s hs
  refine Triple.early (fun t ht => ht) fun _ => ?_
  have hset : Kept x folder content (set { s with windowCache:=(makeRoom s index).insert index data } : Decoding S Unit) := by
    apply Triple.set
    refine ⟨hs.full,hs.retained,?_,hs.live,hs.packed⟩
    intro i window hlookup
    by_cases hi : i=index
    · subst hi
      rw [lookup_insert] at hlookup
      cases hlookup
      exact hdata
    · rw [lookup_insert_ne hi] at hlookup
      exact hs.makeRoom index i window hlookup
  exact hset.bind fun _ => kept_touchWindow index

theorem kept_cached (index : ℕ) : Kept x folder content (cached x index) := by
  apply kept_lockCache.bind
  intro _
  exact Triple.read fun s _ => Triple.done

theorem kept_allCached (indices : List ℕ) : Kept x folder content (allCached x indices) := by
  induction indices with
  | nil => exact Triple.done
  | cons index indices ih =>
    apply (kept_cached index).bind
    intro here
    apply Triple.branch
    · exact ih
    · exact Triple.done

theorem kept_firstMissing (indices : List ℕ) : Kept x folder content (firstMissing x indices) := by
  induction indices with
  | nil => exact Triple.done
  | cons index indices ih =>
    apply (kept_cached index).bind
    intro here
    apply Triple.branch
    · exact ih
    · exact Triple.done

theorem kept_eachWindow {f : ℕ → Decoding S Unit} {indices : List ℕ} (h : ∀index∈indices,Kept x folder content (f index)) :
    Kept x folder content (eachWindow f indices) := by
  induction indices with
  | nil => exact Triple.done
  | cons index indices ih =>
    have hrest:=ih fun i hi => h i (mem_cons_of_mem _ hi)
    exact (h index mem_cons_self).bind fun _ => hrest

/-- A part of a span, from the beginning of a window to its end. -/
theorem window_of_span {n : ℕ} (hdata : data=content.slice spanStart n) {winEnd : ℕ}
    (hfrom : spanStart ≤ index*x.chunkSize) (hend : winEnd ≤ spanStart+data.length)
    (hwindow : winEnd=min (index*x.chunkSize+x.chunkSize) content.length) (hsome : index*x.chunkSize<winEnd) :
    data.slice (index*x.chunkSize-spanStart) (winEnd-index*x.chunkSize) =
      content.slice (index*x.chunkSize) x.chunkSize := by
  have hnext:=hdata ▸ next_slice _ _ _
  rw [hnext.slice (by omega),Nat.add_sub_cancel' hfrom,slice_eq_slice_length content _ x.chunkSize,Bytes.length_slice]
  congr 1
  omega

variable (hx : Sound x folder content)
include hx

theorem kept_cacheSpanWindows {n : ℕ} (hdata : data=content.slice spanStart n) (first last : ℕ) :
    Kept x folder content (cacheSpanWindows x spanStart data first last) := by
  refine Triple.early (fun s hs => hs) fun _ => ?_
  apply kept_eachWindow
  intro index _
  apply Triple.ite
  · rintro ⟨hfrom,hend,hsome⟩
    apply (kept_cached index).bind
    intro here
    apply Triple.branch
    · apply kept_storeWindow
      exact window_of_span hdata hfrom hend (by rw [hx.size]) hsome
    · exact kept_touchWindow index
  · intro _
    exact Triple.done

/-- The span reaches to the end of the last window, so the window that is stored is a whole one. -/
theorem kept_storeMissing {needFrom : ℕ} {span : Bytes}
    (hspan : span=content.slice needFrom (min ((last+1)*x.chunkSize) x.unpackSize-needFrom))
    (hindex : index≤last) : Kept x folder content (storeMissing x needFrom span index) := by
  have hsize:=hx.size
  apply Triple.ite
  · intro _
    exact Triple.done
  intro hinside
  apply (kept_cached index).bind
  intro here
  apply Triple.ite
  · rintro ⟨-,hfrom⟩
    apply Triple.ite
    · rintro ⟨-,hsome⟩
      have hlast : index*x.chunkSize+x.chunkSize≤(last+1)*x.chunkSize := by
        rw [←Nat.succ_mul]
        exact Nat.mul_le_mul_right _ (by omega)
      have hlen:=congrArg List.length hspan
      rw [Bytes.length_slice] at hlen
      apply kept_storeWindow
      exact window_of_span hspan hfrom (by omega) (by omega) hsome
    · intro _
      exact Triple.done
  · intro _
    exact Triple.done

omit hx in
theorem le_of_mem_windows {first : ℕ} (h : index∈windows first last) : first ≤ index ∧ index≤last := by
  obtain ⟨hfirst,hlast⟩:=mem_range'_1.mp h
  omega

theorem kept_ensureWindows (hstart : start ≤ content.length) (stop : ℕ) :
    Kept x folder content (ensureWindows x start stop) := by
  refine Triple.early (fun s hs => hs) fun _ => ?_
  apply (kept_allCached _).bind
  intro all
  apply Triple.branch
  · exact kept_eachWindow fun index _ => kept_touchWindow index
  apply (kept_firstMissing _).bind
  intro missing
  have hfrom : min ((missing.map (·*x.chunkSize)).getD start) start ≤ content.length :=
    le_trans (min_le_right _ _) hstart
  apply (triple_liveDecodeSpan hx hfrom _).bind
  intro span s hs
  obtain ⟨hinv,hspan⟩:=hs
  have hcache:=kept_cacheSpanWindows hx hspan (start / x.chunkSize) ((stop-1) / x.chunkSize)
  refine hcache.bind (fun _ => ?_) s hinv
  apply kept_eachWindow
  intro index hindex
  exact kept_storeMissing hx hspan (le_of_mem_windows hindex).2

omit hx in
theorem assembleFrom_eq {cache : AList fun _ : ℕ => Bytes} {chunkSize turns offset : ℕ} {out bytes : Bytes}
    (hcache : ∀index window,cache.lookup index=some window → window=content.slice (index*chunkSize) chunkSize)
    (hfrom : start≤offset ∧ offset ≤ stop) (hturns : stop≤offset+turns)
    (hout : out=content.slice start (offset-start))
    (h : assembleFrom cache chunkSize stop turns offset out = .bytes bytes) : bytes=content.slice start (stop-start) := by
  induction turns generalizing offset out with
  | zero =>
    obtain rfl : offset=stop := by omega
    cases h
    exact hout
  | succ turns ih =>
    rw [assembleFrom] at h
    by_cases hmore : offset<stop
    · rw [if_pos hmore] at h
      cases hlookup : cache.lookup (offset / chunkSize) with
      | none =>
        rw [hlookup] at h
        cases h
      | some window =>
        rw [hlookup] at h
        dsimp only at h
        have hwindow:=hcache _ _ hlookup
        obtain ⟨base,hbase⟩ : ∃base,base=offset / chunkSize*chunkSize:=⟨_,rfl⟩
        have hle:=hbase ▸ Nat.div_mul_le_self _ _
        rw [←hbase] at h hwindow
        by_cases hshort : window.length≤offset-base
        · rw [if_pos hshort] at h
          cases h
        rw [if_neg hshort] at h
        obtain ⟨n,hn⟩ : ∃n,n=min (stop - offset) (window.length - (offset - base)):=⟨_,rfl⟩
        rw [←hn] at h
        apply ih (by omega) (by omega) _ h
        have hnext:=hwindow ▸ next_slice _ _ _
        rw [hout,hnext.slice (by omega),Nat.add_sub_cancel' hle,show offset=start+(offset-start) by omega,
          Nat.add_sub_cancel_left,slice_append_slice]
        congr 1
        omega
    · rw [if_neg hmore] at h
      obtain rfl : offset=stop := by omega
      cases h
      exact hout

theorem triple_assembleFromWindows (hstart : start ≤ content.length) (hstop : start ≤ stop) :
    Serves x folder content (assembleFromWindows x start stop) start (stop-start) := by
  apply kept_lockCache.bind
  intro _
  apply Triple.read
  intro s hs
  cases hassemble : assembleFrom s.windowCache x.chunkSize stop (stop - start) start [] with
  | missing => exact triple_liveDecodeSpan hx hstart stop
  | invalid => exact Triple.throw fun t ht => ht
  | bytes out =>
    have hout:=assembleFrom_eq hs.windows ⟨le_rfl,hstop⟩ (by omega) (by rw [Nat.sub_self]; exact take_zero.symm) hassemble
    have htouch : Kept x folder content
        (eachWindow (touchWindow x) (windows (start / x.chunkSize) ((stop-1) / x.chunkSize))) :=
      kept_eachWindow fun index _ => kept_touchWindow index
    apply htouch.bind
    intro _
    exact Triple.pure fun t ht => ⟨ht,hout⟩

end Windows

section Ranges

theorem kept_reserveCache : Kept x folder content (reserveCache x) := by
  rw [reserveCache]
  cases x.host.cap with
  | none => exact Triple.done
  | some cap =>
    have hflags : Kept x folder content
        (modify fun s => { s with cacheFull := false, retainFromZero := false } : Decoding S Unit) := by
      apply Triple.modify
      intro s hs
      exact ⟨hs.full,hs.retained,hs.windows,hs.live,hs.packed⟩
    apply hflags.bind
    intro _
    apply kept_lockCache.bind
    intro _
    apply kept_nextTurn.bind
    intro turn
    have hreserve : Kept x folder content (modify fun s =>
        if s.memory=true then s
        else { s with maxCachedChunks := min s.maxCachedChunks (cap / x.chunkSize), memory := x.host.granted turn } :
          Decoding S Unit) := by
      apply Triple.modify
      intro s hs
      split_ifs
      · exact hs
      · exact ⟨hs.full,hs.retained,hs.windows,hs.live,hs.packed⟩
    apply hreserve.bind
    intro _
    apply kept_lockCache.bind
    intro _
    exact Triple.read fun s _ => Triple.done

variable {start stop : ℕ}

variable (hx : Sound x folder content)
include hx

theorem triple_readFull (hstart : start<content.length) (hstop : start ≤ stop ∧ stop ≤ content.length) :
    Serves x folder content (readFull x start stop) start (stop-start) := by
  apply (triple_ensureFull hx).bind
  intro _
  apply Triple.get
  rintro s ⟨hs,hfull⟩
  apply Triple.pure
  rintro t rfl
  refine ⟨hs,?_⟩
  rw [hfull,Option.getD_some,if_neg (by omega),min_eq_left hstop.2]

theorem triple_readWide (hstart : start<content.length) (hstop : start ≤ stop ∧ stop ≤ content.length) :
    Serves x folder content (readWide x start stop) start (stop-start) := by
  have hsize:=hx.size
  apply (triple_liveDecodeSpan hx (le_of_lt hstart) _).bind
  intro span s hs
  obtain ⟨hinv,hspan⟩:=hs
  refine (kept_cacheSpanWindows hx hspan _ _).bind (fun _ => ?_) s hinv
  apply Triple.pure
  intro t ht
  refine ⟨ht,?_⟩
  -- the last window ends behind the range
  have hlast : stop≤((stop-1) / x.chunkSize+1)*x.chunkSize := by
    have hlt:=Nat.lt_mul_of_div_lt (Nat.lt_succ_self ((stop-1) / x.chunkSize)) hx.chunkSize
    exact Nat.le_of_pred_lt hlt
  have hlen:=congrArg List.length hspan
  rw [Bytes.length_slice] at hlen
  rw [min_eq_left (by omega),hspan,Bytes.slice,take_take,min_eq_left (by omega),←Bytes.slice]

theorem triple_readWindows (hstart : start<content.length) (hstop : start ≤ stop) :
    Serves x folder content (readWindows x start stop) start (stop-start) := by
  apply (kept_ensureWindows hx (le_of_lt hstart) stop).bind
  intro _
  apply (kept_allCached _).bind
  intro all
  apply Triple.branch
  · exact triple_assembleFromWindows hx (le_of_lt hstart) hstop
  · exact triple_liveDecodeSpan hx (le_of_lt hstart) stop

theorem triple_readRange (start length : ℕ) : Serves x folder content (readRange x start length) start length := by
  have hsize:=hx.size
  apply Triple.ite
  · intro hnone
    apply Triple.pure
    intro s hs
    refine ⟨hs,?_⟩
    rw [Bytes.slice]
    rcases hnone with rfl | hend
    · exact take_zero.symm
    · rw [drop_eq_nil_of_le (by omega),take_nil]
  intro hsome
  have hstart : start<content.length := by
    by_contra hout
    exact hsome (.inr (by omega))
  obtain ⟨stop,hstop⟩ : ∃stop,stop=min (start+length) x.unpackSize:=⟨_,rfl⟩
  have hslice : content.slice start length=content.slice start (stop-start) := by
    rw [slice_eq_slice_length content start length,Bytes.length_slice]
    congr 1
    omega
  rw [hslice]
  apply kept_reserveCache.bind
  intro caches
  rw [←hstop]
  apply Triple.get
  intro s hs
  have hhere : ∀t,t=s → Inv x folder content t:=fun t ht => ht ▸ hs
  apply Triple.branch
  · exact (triple_liveDecodeSpan hx (le_of_lt hstart) stop).pre hhere
  apply Triple.branch
  · exact (triple_readFull hx hstart (by omega)).pre hhere
  apply Triple.ite
  · intro hretained
    apply Triple.pure
    rintro t rfl
    refine ⟨hs,?_⟩
    have hnext:=@Next.slice content t.prefixFromZero 0 hs.retained start (stop-start) (by omega)
    rwa [zero_add] at hnext
  intro _
  apply Triple.branch
  · exact (triple_readWide hx hstart (by omega)).pre hhere
  · exact (triple_readWindows hx hstart (by omega)).pre hhere

end Ranges

section Runs

theorem resumeFrom_cases (start : ℕ) (chunks : List ChunkIndex) {at_ : ℕ × ℕ} (hat : at_.2 ≤ start) :
    (resumeFrom start chunks at_).2 ≤ start ∧ (resumeFrom start chunks at_=at_ ∨
      ∃c∈chunks,c.independent=true ∧ resumeFrom start chunks at_=(c.packedOffset,c.unpackedOffset)) := by
  induction chunks generalizing at_ with
  | nil => exact ⟨hat,.inl rfl⟩
  | cons c chunks ih =>
    rw [resumeFrom]
    by_cases hafter : start<c.unpackedOffset
    · rw [if_pos hafter]
      exact ⟨hat,.inl rfl⟩
    rw [if_neg hafter]
    by_cases hindependent : c.independent=true
    · rw [if_pos hindependent]
      obtain ⟨hle,hsame | ⟨c',hmem,hc'⟩⟩:=@ih (c.packedOffset,c.unpackedOffset) (Nat.le_of_not_lt hafter)
      · exact ⟨hle,.inr ⟨c,mem_cons_self,hindependent,hsame⟩⟩
      · exact ⟨hle,.inr ⟨c',mem_cons_of_mem _ hmem,hc'⟩⟩
    · rw [if_neg hindependent]
      obtain ⟨hle,hsame | ⟨c',hmem,hc'⟩⟩:=ih hat
      · exact ⟨hle,.inl hsame⟩
      · exact ⟨hle,.inr ⟨c',mem_cons_of_mem _ hmem,hc'⟩⟩

/-- An accepted chain without filters has compressors only. -/
theorem compressors_of_chain {coders : List Coder} (h : lzma2ProgressiveContentCoders coders=true)
    (hfilters : coders.any coderIsBcjOrDelta=false) {coder : Coder} (hcoder : coder∈coders) :
    coder.method=methodLzma ∨ coder.method=methodLzma2 := by
  rw [lzma2ProgressiveContentCoders,and_eq_true,and_eq_true,or_eq_true,any_eq_true] at h
  obtain ⟨⟨-,main,hmain,hmethod⟩,hchain⟩:=h
  rcases hchain with hone | hchain
  · obtain ⟨only,rfl⟩:=length_eq_one_iff.mp (of_decide_eq_true hone)
    rw [mem_singleton.mp hcoder,←mem_singleton.mp hmain]
    exact .inr (of_decide_eq_true hmethod)
  · rw [codersAreNativeLzmaChain,and_eq_true,all_eq_true] at hchain
    have hnative:=of_decide_eq_true (hchain.2 coder hcoder)
    rw [any_eq_false] at hfilters
    rcases hnative with hlzma | hlzma2 | hfilter
    · exact .inl hlzma
    · exact .inr hlzma2
    · exact absurd (decide_eq_true hfilter) (hfilters coder hcoder)

variable {pack : Pack} {raw : RawDecoder S} {host : Host} {chunkSize maxCachedChunks : ℕ} {s : State S}

theorem sound_of_fromPack (h : fromPackWithChunkSize folder pack raw host chunkSize maxCachedChunks = .ok (x,s))
    (hsize : content.length=folder.getUnpackSize) (hdecodes : Decodes folder pack.bytes raw content) :
    Sound x folder content ∧ Inv x folder content s := by
  rw [fromPackWithChunkSize] at h
  split_ifs at h with hunsupported hchain
  cases hindex : indexLzma2ChunksFromPack pack with
  | error e =>
    rw [hindex] at h
    cases h
  | ok list =>
    rw [hindex] at h
    cases h
    refine ⟨⟨hsize.symm,lt_of_lt_of_le (by decide) (le_max_right _ _),hdecodes,?_⟩,nofun,rfl,nofun,nofun,rfl⟩
    intro start
    rw [resumePoint]
    split_ifs with hallow
    · exact ⟨.inl ⟨rfl,rfl⟩,Nat.zero_le _⟩
    · obtain ⟨chunks,hstream,rfl⟩:=indexLzma2Chunks_sound hindex
      obtain ⟨hle,hzero | ⟨c,hmem,hindependent,hc⟩⟩ :=
        @resumeFrom_cases start (describe chunks 0 0 0) (0,0) (Nat.zero_le _)
      · refine ⟨.inl ?_,hle⟩
        rw [hzero]
        exact ⟨rfl,rfl⟩
      · refine ⟨.inr ⟨?_,chunks,hstream,c,hmem,hindependent,?_⟩,hle⟩
        · intro coder hcoder
          rw [not_eq_false,not_eq_true'] at hallow
          exact compressors_of_chain (not_eq_false _ |>.mp hchain) hallow hcoder
        · rw [hc]
          exact ⟨rfl,rfl⟩

theorem replies_exact (hx : Sound x folder content) (calls : List Call) {s : State S} (hs : Inv x folder content s)
    {start length : ℕ} {bytes : Bytes} (h : (start,length,some bytes)∈replies x calls s) :
    bytes=content.slice start length := by
  induction calls generalizing s with
  | nil => cases h
  | cons call calls ih =>
    cases call with
    | retain on =>
      have hset : Inv x folder content (Programs.final (setRetainFromZero x on s)) :=
        ⟨hs.full,hs.retained,hs.windows,hs.live,hs.packed⟩
      exact ih hset h
    | read from_ n =>
      have hread:=triple_readRange hx from_ n s hs
      rw [replies] at h
      cases hrun : readRange x from_ n s with
      | ok out t =>
        rw [hrun] at h hread
        rcases mem_cons.mp h with heq | hmem
        · cases heq
          exact hread.2
        · exact ih hread.1 hmem
      | error e t =>
        rw [hrun] at h hread
        rcases mem_cons.mp h with heq | hmem
        · cases heq
        · exact ih hread hmem

end Runs

section Main

/-- The index of a packed stream lists its chunks with their true offsets, however its windows fall, and fails on a
stream only if a read does. Every successful read of a folder returns the bytes of its content. -/
theorem random_access_exact :
    (∀ (pack : Pack) (list : List ChunkIndex), indexLzma2ChunksFromPack pack = .ok list →
      ∃ chunks, IsStream pack.bytes chunks ∧ list = describe chunks 0 0 0) ∧
    (∀ (pack : Pack) (chunks : List Chunk), ¬ pack.Failing → IsStream pack.bytes chunks →
      indexLzma2ChunksFromPack pack = .ok (describe chunks 0 0 0)) ∧
    (∀ (S : Type) (folder : Folder) (pack : Pack) (raw : RawDecoder S) (content : Bytes),
      content.length = folder.getUnpackSize → Decodes folder pack.bytes raw content →
      ∀ (host : Host) (chunkSize maxCachedChunks : ℕ) (x : Setup S) (s : State S) (calls : List Call),
        fromPackWithChunkSize folder pack raw host chunkSize maxCachedChunks = .ok (x,s) →
        ∀ start length bytes, (start,length,some bytes) ∈ replies x calls s → bytes = content.slice start length) := by
  refine ⟨fun pack list h => indexLzma2Chunks_sound h,fun pack chunks hreads h => indexLzma2Chunks_complete hreads h,?_⟩
  intro S folder pack raw content hsize hdecodes host chunkSize maxCachedChunks x s calls hnew start length bytes hreply
  obtain ⟨hx,hs⟩ := sound_of_fromPack hnew hsize hdecodes
  exact replies_exact hx calls hs hreply

/-- A pack with one chunk. The index reads it once, and the decoder's first read fails. -/
def samplePack : Pack := ⟨[1,0,2,10,20,30,0],fun turn => turn = 6⟩

/-- A decoder for such a chunk: the header with the first byte, then a byte at a time. Its state is how many it has taken. -/
def sampleRaw : RawDecoder ℕ where
  start _ := some 0
  code taken input room _ :=
    match taken, input, room with
    | 0, _ :: _ :: _ :: b :: _, _ + 1 => ⟨4,4,[b],.ok⟩
    | taken + 1, b :: _, _ + 1 => ⟨taken + 2,1,if taken < 5 then [b] else [],.ok⟩
    | taken, _, _ => ⟨taken,0,[],.ok⟩
  consumed_le taken input room finish := by
    split
    · simp only [length_cons]
      omega
    · simp only [length_cons]
      omega
    · exact Nat.zero_le _
  produced_le taken input room finish := by
    split
    · simp only [length_cons,length_nil]
      omega
    · dsimp only
      split_ifs <;> simp only [length_cons,length_nil] <;> omega
    · exact Nat.zero_le _

def sampleFolder : Folder := ⟨[⟨methodLzma2,1,1,some [0x18]⟩],[],[0],[3],none⟩

variable {p : ℕ}

theorem sample_resumes {u : ℕ} (h : ResumesAt sampleFolder samplePack.bytes p u) : p=0 ∧ u=0 := by
  rcases h with hzero | ⟨-,chunks,hstream,c,hc,-,rfl,rfl⟩
  · exact hzero
  · have hindex:=@indexLzma2Chunks_complete ⟨samplePack.bytes,fun _ => false⟩ chunks (by rintro ⟨turn,hfails⟩; cases hfails) hstream
    have hlist : indexLzma2ChunksFromPack ⟨samplePack.bytes,fun _ => false⟩ = .ok [⟨0,0,6,0,3,1,false,true⟩] := by decide +kernel
    rw [hlist] at hindex
    rw [←Except.ok.inj hindex] at hc
    rw [mem_singleton.mp hc]
    exact ⟨rfl,rfl⟩

theorem sample_next {input : Bytes} (hinput : Next samplePack.bytes p input) (n : ℕ) {b : UInt8}
    (hget : input[n]?=some b) : samplePack.bytes[p+n]?=some b := by
  rw [hinput,Bytes.slice,getElem?_take,getElem?_drop] at hget
  split_ifs at hget
  exact hget

theorem sample_reached {taken u : ℕ} (h : Reached sampleFolder samplePack.bytes sampleRaw taken p u) :
    taken=p ∧ u=min (p-3) 3 ∧ (p=0 ∨ 4≤p) := by
  induction h with
  | start hstart hresumes =>
    obtain ⟨rfl,rfl⟩:=sample_resumes hresumes
    cases hstart
    exact ⟨rfl,rfl,.inl rfl⟩
  | @code taken p u input room _ hinput hroom ih =>
    obtain ⟨rfl,rfl,hp⟩:=ih
    rw [sampleRaw]
    dsimp only
    split
    · exact ⟨rfl,rfl,.inr (le_refl 4)⟩
    · split_ifs with hdata
      · refine ⟨rfl,?_,.inr (by omega)⟩
        simp only [length_singleton]
        omega
      · refine ⟨rfl,?_,.inr (by omega)⟩
        simp only [length_nil]
        omega
    · exact ⟨rfl,rfl,hp⟩

theorem sample_decodes : Decodes sampleFolder samplePack.bytes sampleRaw [10,20,30] := by
  intro taken p u hreached input room hinput hroom
  obtain ⟨rfl,rfl,hp⟩:=sample_reached hreached
  rw [sampleRaw]
  dsimp only
  split
  · have hbyte:=sample_next hinput 3 rfl
    cases hbyte
    rfl
  · next taken b _ _ =>
    have hbyte:=sample_next hinput 0 rfl
    split_ifs with hdata
    · obtain rfl | rfl : taken=3 ∨ taken=4 := by omega
      all_goals
        cases hbyte
        rfl
    · exact take_zero.symm
  · exact take_zero.symm

def sampleReplies : List (ℕ × ℕ × Option Bytes) :=
  match fromPackWithChunkSize sampleFolder samplePack sampleRaw ⟨some 8192,fun _ => true,fun turn => turn = 9⟩ 0 2 with
  | .ok (x,s) => replies x [.retain true,.read 1 1,.read 1 1,.read 0 5,.read 2 1] s
  | .error _ => []

theorem random_access_sample :
    sampleReplies = [(1,1,none),(1,1,some [20]),(0,5,some [10,20,30]),(2,1,some [30])] ∧
      ∀ start length bytes, (start,length,some bytes) ∈ sampleReplies → bytes = Bytes.slice [10,20,30] start length := by
  refine ⟨by decide +kernel,?_⟩
  intro start length bytes hreply
  rw [sampleReplies] at hreply
  cases hnew : fromPackWithChunkSize sampleFolder samplePack sampleRaw ⟨some 8192,fun _ => true,fun turn => turn = 9⟩ 0 2 with
  | error e =>
    rw [hnew] at hreply
    cases hreply
  | ok new =>
    rw [hnew] at hreply
    exact random_access_exact.2.2 ℕ sampleFolder samplePack sampleRaw [10,20,30] rfl sample_decodes _ 0 2 new.1 new.2 _ hnew
      start length bytes hreply

end Main

end Ratarmount.Lzma2
