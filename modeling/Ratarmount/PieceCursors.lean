import Ratarmount.ByteFields
import Ratarmount.SeekableBytes

/-!
# Cursors over concatenated pieces

What a reader over several pieces may answer to seeks and reads when the source of a
piece ends before the piece does, and may deliver less than it is asked for.
-/

namespace Ratarmount.Seekable

open List Bytes

/-- A call of a cursor over `content` that leaves it at `pos'`; at a `none` the source has ended. -/
def CursorStep (content : List (Option UInt8)) (pos : ℕ) (call : Call) (reply : Reply) (pos' : ℕ) : Prop :=
  match call, reply with
  | .seek dest, .error => (∀ p, dest.target content.length pos = some p → 2 ^ 63 ≤ p) ∧ pos' = pos
  | .seek dest, .moved p => dest.target content.length pos = some p ∧ p < 2 ^ 63 ∧ pos' = p
  | .read n, .bytes out => out.map some <+: content.drop pos ∧ out.length ≤ n ∧
      (∀ b, content[pos]? = some (some b) → 0 < n → out ≠ []) ∧ pos' = pos + out.length
  | _, _ => False

/-- The calls of a run with their replies and the positions after them, each related so. -/
def Along (R : ℕ → Call → Reply → ℕ → Prop) : ℕ → List (Call × Reply × ℕ) → Prop
  | _, [] => True
  | pos, (call,reply,pos') :: rest => R pos call reply pos' ∧ Along R pos' rest

/-- A step invariant carries over to all runs. -/
theorem along_of {σ ε : Type} {step : σ → Call → ε → σ × Reply} {pos : σ → ℕ} {R : ℕ → Call → Reply → ℕ → Prop}
    (Inv : σ → Prop) (hstep : ∀s call e,call.Fits → Inv s →
      Inv (step s call e).1 ∧ R (pos s) call (step s call e).2 (pos (step s call e).1))
    {calls : List (Call × ε)} (hcalls : ∀x∈calls,x.1.Fits) {s : σ} (hs : Inv s) {start : ℕ} (hstart : pos s=start) :
    Along R start (run step pos s calls) := by
  subst hstart
  induction calls generalizing s with
  | nil => trivial
  | cons x calls ih =>
    obtain ⟨hinv,hrel⟩:=hstep s x.1 x.2 (hcalls x mem_cons_self) hs
    exact ⟨hrel,ih (fun y hy => hcalls y (mem_cons_of_mem _ hy)) hinv⟩

variable {content : List (Option UInt8)} {pos pos' n : ℕ}

theorem CursorStep.lt {call : Call} {reply : Reply} (h : CursorStep content pos call reply pos')
    (hsize : content.length<2^63) (hpos : pos<2^63) : pos'<2^63 := by
  cases call <;> cases reply <;> simp only [CursorStep] at h
  case seek.moved => omega
  case seek.error => omega
  case read.bytes n out =>
    obtain ⟨hout,-,-,rfl⟩:=h
    have hlen:=hout.length_le
    simp only [length_map,length_drop] at hlen
    omega

/-- A seek that is refused goes before the start, or where no `i64` points. -/
theorem seekTarget_neg {size : ℕ} (hsize : size<2^63) (hpos : pos<2^63) {dest : SeekFrom}
    (hnew : seekTarget size pos dest<0) {p : ℕ} (hp : dest.target size pos=some p) : 2^63≤p := by
  have hwrap {x : ℤ} (hx : Int.bmod x (2^64)<0) (h0 : 0≤x) : 2^63≤x := by
    rw [Int.bmod] at hx
    split_ifs at hx <;> omega
  have hchecked {x : ℤ} (hx : Int.bmod x (2^64)<0) (h : checkedOffset x=some p) : 2^63≤p := by
    rw [checkedOffset] at h
    split_ifs at h with h0
    have := hwrap hx h0.1
    rw [←Option.some.inj h]
    omega
  cases dest with
  | start o =>
    have hle:=@hwrap o hnew (Int.natCast_nonneg o)
    rw [←Option.some.inj hp]
    omega
  | fromEnd o =>
    rw [seekTarget,asI64_of_lt hsize] at hnew
    exact hchecked hnew hp
  | current o =>
    rw [seekTarget,asI64_of_lt hpos] at hnew
    exact hchecked hnew hp

theorem cursorStep_seek (hsize : content.length<2^63) (hpos : pos<2^63) {dest : SeekFrom}
    (hfits : (Call.seek dest).Fits) {new : ℤ} (hnew : new=seekTarget content.length pos dest) :
    if new<0 then CursorStep content pos (.seek dest) .error pos
    else CursorStep content pos (.seek dest) (.moved new.toNat) new.toNat := by
  subst hnew
  split_ifs with hneg
  · exact ⟨fun p hp => seekTarget_neg hsize hpos hneg hp,rfl⟩
  · obtain ⟨htarget,hlt⟩:=seekTarget_spec hsize hpos hfits (not_lt.mp hneg)
    exact ⟨htarget,hlt,rfl⟩

theorem cursorStep_end (h : n=0 ∨ content.length≤pos) : CursorStep content pos (.read n) (.bytes []) pos := by
  refine ⟨ nil_prefix,Nat.zero_le n,?_,rfl⟩
  intro b hb hn
  rcases h with h | h
  · omega
  · rw [getElem?_eq_none h] at hb
    cases hb

section Pieces

variable {α : Type} (len : α → ℕ) (data : α → Bytes)

/-- A piece that its source may not fill. -/
def shown (a : α) : List (Option UInt8) := (data a).map some ++ replicate (len a - (data a).length) none

def concatenation (pieces : List α) : List (Option UInt8) := pieces.flatMap (shown len data)

variable {len data} (hfits : ∀ a, (data a).length ≤ len a)
include hfits

theorem length_concatenation (pieces : List α) : (concatenation len data pieces).length=(pieces.map len).sum := by
  have hshown (a : α) : (shown len data a).length=len a := by
    have := hfits a
    simp [shown]
    omega
  simp [concatenation,hshown]

/-- Pieces of no length show nothing. -/
theorem concatenation_filter (pieces : List α) :
    concatenation len data (pieces.filter (0<len ·))=concatenation len data pieces := by
  induction pieces with
  | nil => rfl
  | cons a pieces ih =>
    by_cases ha : 0<len a
    · simp_all [concatenation]
    · have hlen:=hfits a
      simp_all [concatenation,shown]

variable {pre post : List α} {a : α} {into : ℕ}

/-- A read within a piece. -/
theorem cursorStep_read {k : ℕ} (hn : k≤n) (hpos : into<(data a).length → 0<n → 0<k) (hinto : into<len a)
    (hat : pos=(pre.map len).sum+into) :
    CursorStep (concatenation len data (pre++a::post)) pos (.read n) (.bytes ((data a).slice into k))
      (pos+((data a).slice into k).length) := by
  have hdrop : (concatenation len data (pre++a::post)).drop pos=((data a).drop into).map some ++
      (replicate (len a-(data a).length) none++concatenation len data post).drop (into-(data a).length) := by
    have hsplit : concatenation len data (pre++a::post)=concatenation len data pre ++
        ((data a).map some++(replicate (len a-(data a).length) none++concatenation len data post)) := by
      simp [concatenation,shown]
    rw [hsplit,hat,←length_concatenation hfits pre,drop_append,drop_append]
    simp
  refine ⟨?_,?_,?_,rfl⟩
  · rw [hdrop]
    exact (( take_prefix _ _).map _).trans (prefix_append _ _)
  · rw [length_slice]
    omega
  · intro b hb hn hnil
    -- behind the end of its source the piece shows nothing
    have hout : into<(data a).length := by
      by_contra hend
      rw [←add_zero pos,←getElem?_drop,hdrop,drop_eq_nil_of_le (not_lt.mp hend),map_nil,nil_append,
        getElem?_drop,getElem?_append_left (by simp; omega)] at hb
      simp [getElem?_replicate] at hb
    have hlen:=congrArg List.length hnil
    rw [length_slice,length_nil] at hlen
    omega

/-- A read from a source that holds the piece, or the start of it, at `off`. -/
theorem cursorStep_source {base : Bytes} {off : ℕ} (inner : Chunking base.length) (hdata : data a=base.slice off (len a))
    (hinto : into<len a) (hat : pos=(pre.map len).sum+into) {out : Bytes}
    (hout : out=base.slice (off+into) (inner.chunk (off+into) (min (len a-into) n))) :
    CursorStep (concatenation len data (pre++a::post)) pos (.read n) (.bytes out) (pos+out.length) := by
  have hle:=inner.le_asked (off+into) (min (len a-into) n)
  rw [hout,←slice_slice base (show into+_≤len a by omega),←hdata]
  refine cursorStep_read hfits (hle.trans (min_le_right _ _)) ?_ hinto hat
  intro hlt hn
  rw [hdata,length_slice] at hlt
  exact inner.pos_of_lt _ _ (by omega) (by omega)

end Pieces

end Ratarmount.Seekable
