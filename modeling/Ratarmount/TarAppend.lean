import Ratarmount.TarCursorWalk
import Ratarmount.TarWalkProgress

/-!
# The append boundary of a TAR

`tar_append_offset` walks an archive and returns the start of the zero run at its
end. Up to that offset the walk only reads bytes in front of it, so it goes the
same way over every stream with the same beginning.
-/

namespace Ratarmount.Tar

open List Bytes

/-- A path equal to or below a touched one, as the strings are compared. -/
def isTouched (touched : List Str) (path : Str) : Bool :=
  touched.any fun p => path = p || (p <+: path && (path.drop p.length).head? = some '/')

namespace Cursor

variable (enc : Encoding) (data : Bytes)

def walk : Except TarError (List TarRawMember) := members enc data (data.length / blockSize + 2) { pos := 0 }

def refusesAppend (touched : List Str) (m : TarRawMember) : Bool :=
  data.length < m.rawEnd || m.typeflag = 103 || m.typeflag = 83 || isTouched touched m.logicalPath

/-- The loop of `tar_append_offset`: the cursor where the walk has ended, unless a member asks for the copy
path. -/
def appendScan (touched : List Str) : ℕ → Cursor → Except TarError (Option Cursor)
  | 0, _ => .error .diverged
  | fuel + 1, c => do
    match ← c.turn enc data with
    | .stop c => return some c
    | .again c => appendScan touched fuel c
    | .found m c => if refusesAppend data touched m then return none else appendScan touched fuel c

end Cursor

def appendCursor (enc : Encoding) (data : Bytes) (touched : List Str) : Except TarError (Option Cursor) :=
  Cursor.appendScan enc data touched (data.length / blockSize + 2) { pos := 0 }

def tarAppendOffset (enc : Encoding) (data : Bytes) (touched : List Str) : Except TarError (Option ℕ) := do
  let cursor ← appendCursor enc data touched
  return cursor.bind fun c => c.eofOff.filter (fun off => 1024 ≤ data.length - off)

namespace Cursor

/-- Two streams with the same bytes in front of `off`. -/
structure SameFront (off : ℕ) (data data' : Bytes) : Prop where
  le : off ≤ data.length
  le' : off ≤ data'.length
  slice : ∀ start len, start + len ≤ off → data'.slice start len = data.slice start len

variable {enc : Encoding} {data data' : Bytes} {off : ℕ} {c c' : Cursor}

theorem sameFront_take (tail : Bytes) (hoff : off≤data.length) : SameFront off data (data.take off++tail) := by
  have hlen:=length_take_of_le hoff
  refine ⟨hoff,by rw [length_append,hlen]; omega,?_⟩
  intro start len h
  have hsplit:=(take_append_drop off data).symm
  rw [slice_append_left _ _ (by omega)]
  nth_rewrite 2 [hsplit]
  rw [slice_append_left _ _ (by omega)]

/-- A zero run that ends in front of `off` ends at the same place in every stream with that front. -/
theorem zeroRunEnd_front {fuel fuel' start : ℕ} (hsame : SameFront off data data')
    (hend : zeroRunEnd data fuel start+blockSize≤off) (hfuel : data.length ≤ start+blockSize*fuel)
    (hfuel' : off ≤ start+blockSize*fuel') : zeroRunEnd data' fuel' start=zeroRunEnd data fuel start := by
  have hle:=hsame.le
  have hle':=hsame.le'
  induction fuel generalizing fuel' start with
  | zero =>
    rw [zeroRunEnd] at hend
    simp only [blockSize] at hend hfuel
    omega
  | succ fuel ih =>
    have hstart : start+blockSize≤off := by
      have := @le_zeroRunEnd data (fuel+1) start
      omega
    obtain ⟨fuel',rfl⟩ : ∃n,fuel'=n+1 := by
      cases fuel' with
      | zero =>
        simp only [blockSize] at hstart hfuel'
        omega
      | succ n => exact ⟨n,rfl⟩
    have hn : min (data.length-start) blockSize=blockSize := by omega
    have hn' : min (data'.length-start) blockSize=blockSize := by omega
    rw [zeroRunEnd] at hend ⊢
    rw [zeroRunEnd]
    simp only [hn,hn',hsame.slice start blockSize hstart] at hend ⊢
    by_cases hstop : blockSize=0 ∨ isZero (data.slice start blockSize)=false
    · rw [if_pos hstop,if_pos hstop]
    · rw [if_neg hstop] at hend
      rw [if_neg hstop,if_neg hstop]
      apply ih hend
      · simp only [Nat.mul_succ] at hfuel
        omega
      · simp only [Nat.mul_succ] at hfuel'
        omega

/-- Where a zero run ends in front of the end, a block follows that is not zero. -/
theorem not_isZero_zeroRunEnd {fuel start : ℕ} (hend : zeroRunEnd data fuel start+blockSize≤data.length)
    (hfuel : data.length ≤ start+blockSize*fuel) :
    isZero (data.slice (zeroRunEnd data fuel start) blockSize)=false := by
  induction fuel generalizing start with
  | zero =>
    rw [zeroRunEnd] at hend
    simp only [blockSize] at hend hfuel
    omega
  | succ fuel ih =>
    have hstart : start+blockSize≤data.length := by
      have := @le_zeroRunEnd data (fuel+1) start
      omega
    have hn : min (data.length-start) blockSize=blockSize := by omega
    rw [zeroRunEnd] at hend ⊢
    simp only [hn] at hend ⊢
    by_cases hstop : blockSize=0 ∨ isZero (data.slice start blockSize)=false
    · rw [if_pos hstop]
      exact hstop.resolve_left (by decide)
    · rw [if_neg hstop] at hend ⊢
      apply ih hend
      simp only [Nat.mul_succ] at hfuel
      omega

theorem isZero_zeroRun (fuel : ℕ) {start : ℕ} :
    isZero (data.slice start (zeroRunEnd data fuel start-start))=true := by
  induction fuel generalizing start with
  | zero => simp [zeroRunEnd,slice,isZero]
  | succ fuel ih =>
    rw [zeroRunEnd]
    generalize hn : min (data.length-start) blockSize=n
    by_cases hstop : n=0 ∨ isZero (data.slice start n)=false
    · rw [if_pos hstop]
      simp [slice,isZero]
    · rw [if_neg hstop]
      have hle:=@le_zeroRunEnd data fuel (start+n)
      have hlen : zeroRunEnd data fuel (start+n)-start=n+(zeroRunEnd data fuel (start+n)-(start+n)) := by
        omega
      have hsplit : data.slice start (zeroRunEnd data fuel (start+n)-start) =
          data.slice start n++data.slice (start+n) (zeroRunEnd data fuel (start+n)-(start+n)) := by
        rw [hlen,slice,take_add,drop_drop]
        rfl
      rw [hsplit,isZero,all_append]
      simp only [not_or,Bool.not_eq_false] at hstop
      exact Bool.and_eq_true_iff.mpr ⟨hstop.2,ih⟩

def goesOn (t : Turn) (c : Cursor) : Prop := t = .again c ∨ ∃ m, t = .found m c ∧ m.typeflag ≠ 103

theorem step_of_goesOn {t : Turn} (ht : c.turn enc data = .ok t) (hgo : goesOn t c') : c.step enc data=some c' := by
  rw [step,ht]
  rcases hgo with rfl | ⟨m,rfl,-⟩ <;> rfl

theorem readHelperBody_front {size : ℕ} {kind : String} {body : Bytes} (hsame : SameFront off data data')
    (hend : c.pos+blockSize+pad512 size≤off) (h : c.readHelperBody data size kind = .ok body) :
    c.readHelperBody data' size kind = .ok body := by
  rw [readHelperBody] at h ⊢
  split_ifs at h with hcap hshort
  have hpad : size≤pad512 size := by
    rw [maxHeaderPayloadBytes] at hcap
    rw [pad512,u64_eq (by omega)]
    omega
  rw [if_neg hcap,hsame.slice _ _ (by omega),if_neg hshort]
  exact h

theorem Heads.front {header : Bytes} (hsame : SameFront off data data') (hlen' : data'.length<2^63)
    (heof : c.eofOff=none) (hfront : c.pos+blockSize≤off) (h : Heads data c header) : Heads data' c header := by
  have hle':=hsame.le'
  refine ⟨?_,by rw [hsame.slice _ _ hfront]; exact h.slice,h.length⟩
  have hu : u64 (c.pos+blockSize)=c.pos+blockSize:=u64_eq (by omega)
  rw [atStop,heof,hu]
  simpa using hfront.trans hle'

theorem fuel_suffices (n : ℕ) : n ≤ c.pos+blockSize+blockSize*(n / blockSize+1) := by
  simp only [blockSize]
  omega

/-- A gap in front of `off` is followed by a block that is not zero, so it is not the run at `off`. -/
theorem runEnd_before (hroom : off+blockSize≤data.length) (hzeros : isZero (data.slice off blockSize)=true)
    (hnext : c.runEnd data=off ∨ c.runEnd data+blockSize≤off) : c.runEnd data+blockSize≤off := by
  rcases hnext with hnext | hnext
  · have hend : c.runEnd data+blockSize≤data.length := by omega
    have hblock : isZero (data.slice (c.runEnd data) blockSize)=false :=
      not_isZero_zeroRunEnd hend (fuel_suffices _)
    rw [hnext,hzeros] at hblock
    cases hblock
  · exact hnext

/-- A turn that stays in front of `off` is the same over every stream with that front. -/
theorem turn_front {t : Turn} (hsame : SameFront off data data') (hlen : data.length<2^63)
    (hlen' : data'.length<2^63) (hroom : off+blockSize≤data.length)
    (hzeros : isZero (data.slice off blockSize)=true) (heof : c.eofOff=none) (ht : c.turn enc data = .ok t)
    (hgo : goesOn t c') (hnext : c'.pos=off ∨ c'.pos+blockSize≤off) : c.turn enc data' = .ok t := by
  obtain ⟨-,hforward⟩:=step_forward (by omega) (step_of_goesOn ht hgo)
  have hfront : c.pos+blockSize≤off := by omega
  have hle':=hsame.le'
  apply Outcome.turn_eq
  cases turn_outcome ht with
  | ended | trailer => rcases hgo with h | ⟨m,h,-⟩ <;> cases h
  | gap hh hz hend =>
    have hpos : c.runEnd data=c'.pos := by
      rcases hgo with h | ⟨m,h,-⟩
      · rw [←Turn.again.inj h]
      · cases h
    have hbefore:=runEnd_before hroom hzeros (hpos ▸ hnext)
    have hrun : c.runEnd data'=c.runEnd data :=
      zeroRunEnd_front hsame hbefore (fuel_suffices _) (hle'.trans (fuel_suffices _))
    have hend' : c.runEnd data'<data'.length := by
      simp only [blockSize] at hbefore
      omega
    rw [←hrun]
    exact .gap (hh.front hsame hlen' heof hfront) hz hend'
  | globalPax =>
    rcases hgo with h | ⟨m,h,hm⟩ <;> cases h
    exact absurd rfl hm
  | helper hh hz hsum hg hflag hc₁ =>
    have hpos:=(consumePendingHelper_ok hc₁).1
    rcases hgo with h | ⟨m,h,-⟩
    · cases h
      refine .helper (hh.front hsame hlen' heof hfront) hz hsum hg hflag ?_
      obtain ⟨body,hbody,hrest⟩:=bind_ok hc₁
      rw [consumePendingHelper,readHelperBody_front hsame (by omega) hbody]
      exact hrest
    · cases h
  | member hh hz hsum hg hflag => exact .member (hh.front hsame hlen' heof hfront) hz hsum hg hflag

/-- A turn that goes on leaves the global records and the end of the stream alone. -/
theorem goesOn_keeps {t : Turn} (ht : c.turn enc data = .ok t) (hgo : goesOn t c') :
    c'.eofOff=c.eofOff ∧ c'.paxGlobal=c.paxGlobal := by
  cases turn_outcome ht with
  | ended | trailer => rcases hgo with h | ⟨m,h,-⟩ <;> cases h
  | gap =>
    rcases hgo with h | ⟨m,h,-⟩
    · rw [←Turn.again.inj h]
      exact ⟨rfl,rfl⟩
    · cases h
  | globalPax =>
    rcases hgo with h | ⟨m,h,hm⟩ <;> cases h
    exact absurd rfl hm
  | helper hh hz hsum hg hflag hc₁ =>
    rcases hgo with h | ⟨m,h,-⟩
    · cases h
      exact (consumePendingHelper_ok hc₁).2
    · cases h
  | member =>
    rcases hgo with h | ⟨m,h,-⟩ <;> cases h
    exact ⟨rfl,rfl⟩

/-- The cursor at the start of the zero run where the walk ended. -/
def rewind (c : Cursor) (off : ℕ) : Cursor := { c with pos := off, eofOff := none }

theorem stop_at_zeros (heof : c.eofOff=none) (ht : c.turn enc data = .ok (.stop c')) (hoff : c'.eofOff=some off) :
    c.pos=off ∧ c'.rewind off=c ∧ isZero (data.drop off)=true := by
  generalize hstop : Turn.stop c'=t at ht
  cases turn_outcome ht with
  | ended =>
    cases hstop
    rw [heof] at hoff
    cases hoff
  | trailer hh hz hend =>
    rw [Turn.stop.injEq] at hstop
    subst hstop
    have hpos:=Option.some.inj hoff
    refine ⟨hpos,by rw [rewind,←hpos,←heof],?_⟩
    have hsplit : data.drop off=data.slice off blockSize++data.drop (off+blockSize) := by
      rw [slice,←drop_drop,take_append_drop]
    have hrun : isZero (data.slice (off+blockSize) (c.runEnd data-(off+blockSize)))=true := by
      rw [←hpos]
      exact isZero_zeroRun _
    rw [slice,take_of_length_le (by rw [length_drop]; omega)] at hrun
    rw [hsplit,←hpos,hh.slice,hpos,isZero,all_append]
    exact Bool.and_eq_true_iff.mpr ⟨hz,hrun⟩
  | gap | globalPax | helper => cases hstop
  | member => cases hstop

/-- What a scan that reaches the boundary `off` has seen from `c` on: `n` turns that lead to `off` and find the
members `ms`, over every stream with that front. -/
structure Reaches (enc : Encoding) (data : Bytes) (touched : List Str) (off : ℕ) (e c : Cursor)
    (ms : List TarRawMember) (n : ℕ) : Prop where
  before : c.pos = off ∨ c.pos + blockSize ≤ off
  turns : c.pos + blockSize * n ≤ off
  untouched : ∀ m ∈ ms, isTouched touched m.logicalPath = false
  global : e.paxGlobal = c.paxGlobal
  walks : ∀ data', SameFront off data data' → data'.length < 2 ^ 63 → ∀ fuel,
    members enc data' (n + fuel) c = (do
      let rest ← members enc data' fuel (e.rewind off)
      return ms ++ rest)

variable {touched : List Str} {e : Cursor} {ms : List TarRawMember} {n : ℕ}

theorem Reaches.step {t : Turn} {new : List TarRawMember} (hlen : data.length<2^63)
    (hroom : off+1024≤data.length) (hzeros : isZero (data.drop off)=true) (heof : c.eofOff=none)
    (ht : c.turn enc data = .ok t) (hgo : goesOn t c')
    (hnew : t = .again c' ∧ new=[] ∨ ∃m,t = .found m c' ∧ new=[m] ∧ isTouched touched m.logicalPath=false)
    (h : Reaches enc data touched off e c' ms n) : Reaches enc data touched off e c (new++ms) (n+1) := by
  obtain ⟨-,hforward⟩:=step_forward (by omega) (step_of_goesOn ht hgo)
  have hturns:=h.turns
  refine ⟨by omega,by rw [Nat.mul_succ]; omega,?_,h.global.trans (goesOn_keeps ht hgo).2,?_⟩
  · intro m hm
    rcases List.mem_append.mp hm with hm | hm
    · rcases hnew with ⟨-,rfl⟩ | ⟨m',-,rfl,huntouched⟩
      · cases hm
      · rw [List.mem_singleton.mp hm]
        exact huntouched
    · exact h.untouched m hm
  · intro data' hsame hlen' fuel
    have hblock : isZero (data.slice off blockSize)=true := by
      rw [isZero,all_eq_true] at hzeros ⊢
      exact fun x hx => hzeros x (mem_of_mem_take hx)
    have ht':=turn_front hsame hlen hlen' (by simp only [blockSize]; omega) hblock heof ht hgo h.before
    rw [Nat.succ_add,members,ht',ok_bind]
    rcases hnew with ⟨rfl,rfl⟩ | ⟨m,rfl,rfl,-⟩
    · exact h.walks data' hsame hlen' fuel
    · dsimp only
      rw [h.walks data' hsame hlen' fuel]
      cases members enc data' fuel (e.rewind off) <;> rfl

theorem appendScan_reaches {fuel : ℕ} (hlen : data.length<2^63) (heof : c.eofOff=none)
    (hscan : appendScan enc data touched fuel c = .ok (some e)) (hoff : e.eofOff=some off)
    (hroom : off+1024≤data.length) : isZero (data.drop off)=true ∧ ∃ms n,Reaches enc data touched off e c ms n := by
  induction fuel generalizing c with
  | zero => cases hscan
  | succ fuel ih =>
    obtain ⟨t,ht,hscan⟩:=bind_ok hscan
    cases t with
    | stop c₁ =>
      cases hscan
      obtain ⟨hpos,hrewind,hzeros⟩:=stop_at_zeros heof ht hoff
      refine ⟨hzeros,[],0,.inl hpos,by omega,by simp,?_,?_⟩
      · rw [←hrewind,rewind]
      · intro data' _ _ fuel'
        rw [hrewind,Nat.zero_add]
        cases members enc data' fuel' c <;> rfl
    | again c₁ =>
      have hgo : goesOn (.again c₁) c₁:=.inl rfl
      obtain ⟨hzeros,ms,n,hreach⟩:=ih ((goesOn_keeps ht hgo).1.trans heof) hscan
      exact ⟨hzeros,_,_,hreach.step hlen hroom hzeros heof ht hgo (.inl ⟨rfl,rfl⟩)⟩
    | found m c₁ =>
      dsimp only at hscan
      split_ifs at hscan with hrefuse
      · cases hscan
      · simp only [refusesAppend,Bool.or_eq_true,decide_eq_true_eq,not_or,Bool.not_eq_true] at hrefuse
        have hgo : goesOn (.found m c₁) c₁:=.inr ⟨m,rfl,hrefuse.1.1.2⟩
        obtain ⟨hzeros,ms,n,hreach⟩:=ih ((goesOn_keeps ht hgo).1.trans heof) hscan
        exact ⟨hzeros,_,_,hreach.step hlen hroom hzeros heof ht hgo (.inr ⟨m,rfl,rfl,hrefuse.2⟩)⟩

end Cursor

end Ratarmount.Tar
