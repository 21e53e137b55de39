import Mathlib.Tactic.FinCases
import Ratarmount.Readahead

/-!
# When readahead does not show

The window always holds the member's bytes. A fill that fails behind its first piece,
and a seek that fails and moves the reader while a position is remembered, leave the
remembered position wrong; without those the member's content is read.
-/

namespace Ratarmount.Readahead

open List Bytes

variable {content : Bytes}

/-- The window shows the content, and knows its end. -/
structure Window.Shows (content : Bytes) (w : Window) : Prop where
  data : w.data = content.slice w.start w.data.length
  eof : w.hitEof = true → content.length ≤ w.start + w.data.length
  fits : w.start < 2 ^ 64

/-- No call of the fill that is interrupted has moved the reader. -/
def Clean : List Event → Prop
  | [] => True
  | .piece _ :: events => Clean events
  | .fail _ :: _ => True
  | .interrupted moved :: events => moved = 0 ∧ Clean events

/-- If a call of the fill fails, it is the first one but for interrupted ones, and does not move the reader. -/
def Settling : List Event → Prop
  | [] => True
  | .piece _ :: events => ∀ moved, Event.fail moved ∉ events
  | .fail moved :: _ => moved = 0
  | .interrupted _ :: events => Settling events

def Unmoved (seeks : List Seek) : Prop := ∀ moved, Seek.fail moved ∈ seeks → moved = 0

/-- No seek behind the first that succeeds fails and moves the reader. -/
def SteadySeeks : List Seek → Prop
  | [] => True
  | .done :: seeks => Unmoved seeks
  | .fail _ :: seeks => SteadySeeks seeks

structure Handle.Kept (content : Bytes) (h : Handle) : Prop where
  window : ∀ w, h.window = some w → w.Shows content
  clean : ∀ fill ∈ h.fills, Clean fill

/-- The reader stands where the remembered position says, and the calls to come leave it there when they fail. -/
def Handle.Steady (h : Handle) : Prop :=
  (∀ c, h.cursor = some c → h.pos = c ∧ Unmoved h.seeks) ∧ SteadySeeks h.seeks ∧ ∀ fill ∈ h.fills, Settling fill

def Served (content : Bytes) (offset size : ℕ) (r : Option Bytes × Handle) : Prop :=
  r.2.Kept content ∧ r.2.Steady ∧ ∀ out, r.1 = some out → out = content.slice offset size

theorem slice_add (content : Bytes) (offset m n : ℕ) :
    content.slice offset (m+n)=content.slice offset m++content.slice (offset+m) n := by
  rw [slice,slice,slice,take_add,drop_drop]

/-- A slice from its beginning, however short the first piece is. -/
theorem slice_piece (content : Bytes) (offset : ℕ) {m n : ℕ} (h : m≤n) : content.slice offset n =
    content.slice offset m++content.slice (offset+(content.slice offset m).length) (n-(content.slice offset m).length) := by
  have hlen:=length_slice content offset m
  by_cases hfull : (content.slice offset m).length=m
  · rw [hfull,←slice_add,Nat.add_sub_of_le h]
  · have hrest : content.slice (offset+(content.slice offset m).length) (n-(content.slice offset m).length)=[] := by
      rw [slice,drop_eq_nil_of_le (by omega),take_nil]
    rw [hrest,append_nil,slice,slice,take_of_length_le,take_of_length_le]
    · rw [length_drop]
      omega
    · rw [length_drop]
      omega

section Window

variable {w : Window} {offset size : ℕ}

theorem Window.Shows.endOffset (h : w.Shows content) (hsize : content.length<2^64) :
    w.endOffset=w.start+w.data.length := by
  have hfits:=h.fits
  have hlen:=length_slice content w.start w.data.length
  rw [←h.data] at hlen
  rw [Window.endOffset,satAdd]
  omega

/-- A part of the window is a part of the content. -/
theorem Window.Shows.part (h : w.Shows content) {i n : ℕ} (hle : i+n≤w.data.length) :
    (w.data.drop i).take n=content.slice (w.start+i) n := by
  have hslice:=slice_slice content (a:=w.start) hle
  rw [←h.data] at hslice
  exact hslice

theorem tryServe_eq (h : w.Shows content) (hsize : content.length<2^64) {out : Bytes}
    (hserve : w.tryServe offset size=some out) : out=content.slice offset size := by
  have hend:=h.endOffset hsize
  have hlen:=length_slice content w.start w.data.length
  rw [←h.data] at hlen
  rw [Window.tryServe] at hserve
  split_ifs at hserve with hzero hpast hbefore
  · rw [←Option.some.inj hserve,hzero,slice,take_zero]
  · obtain ⟨heof,hge⟩:=hpast
    have hle:=h.eof heof
    rw [←Option.some.inj hserve,slice,drop_eq_nil_of_le (by omega),take_nil]
  dsimp only at hserve
  split_ifs at hserve with hbeyond hfull heof
  all_goals
    have hpart:=h.part (i:=offset-w.start) (n:=min (satAdd (offset-w.start) size) w.data.length-(offset-w.start))
      (by omega)
    rw [show w.start+(offset-w.start)=offset by omega] at hpart
    rw [hpart,length_slice] at hfull
    rw [hpart] at hserve
    rw [←Option.some.inj hserve]
  · -- the window has all of it
    congr 1
    omega
  · -- the window ends with the content
    obtain ⟨heof,hstop⟩:=heof
    have hle:=h.eof heof
    rw [slice,slice,take_of_length_le,take_of_length_le]
    · rw [length_drop]
      rw [satAdd] at hstop
      omega
    · rw [length_drop]
      omega

end Window

theorem Unmoved.steady {seeks : List Seek} (h : Unmoved seeks) : SteadySeeks seeks := by
  induction seeks with
  | nil => trivial
  | cons seek seeks ih =>
    have htail : Unmoved seeks:=fun moved hmem => h moved (mem_cons_of_mem _ hmem)
    cases seek with
    | done => exact htail
    | fail moved => exact ih htail

theorem fillLoop_zero (event : Event) (events : List Event) (pos : ℕ) (filled : Bytes) :
    fillLoop content (event::events) pos 0 filled=(some filled,pos) := by
  cases event <;> rw [fillLoop,if_pos rfl]

/-- A fill that returns has taken the bytes at the position, in whatever pieces. -/
theorem fillLoop_spec {events : List Event} (hclean : Clean events) (pos len : ℕ) (filled : Bytes) {out : Bytes}
    (hout : (fillLoop content events pos len filled).1=some out) :
    out=filled++content.slice pos len ∧ (fillLoop content events pos len filled).2=pos+(content.slice pos len).length := by
  induction events generalizing pos len filled with
  | nil => exact ⟨(Option.some.inj hout).symm,rfl⟩
  | cons event events ih =>
    by_cases hlen : len=0
    · rw [hlen,fillLoop_zero] at hout ⊢
      rw [slice,take_zero,append_nil]
      exact ⟨(Option.some.inj hout).symm,rfl⟩
    cases event with
    | piece n =>
      have hsplit:=slice_piece content pos (min_le_left len (n+1))
      rw [fillLoop,if_neg hlen] at hout ⊢
      dsimp only at hout ⊢
      obtain ⟨got,hgot⟩ : ∃got,got=content.slice pos (min len (n+1)):=⟨_,rfl⟩
      rw [←hgot] at hsplit hout ⊢
      split_ifs at hout ⊢ with hnil
      · have hend : content.slice pos len=[] := by
          have hzero:=length_slice content pos (min len (n+1))
          rw [←hgot,hnil,length_nil] at hzero
          rw [slice,drop_eq_nil_of_le (by omega),take_nil]
        rw [hend,append_nil]
        exact ⟨(Option.some.inj hout).symm,rfl⟩
      · obtain ⟨hbytes,hpos⟩:=ih hclean (pos+got.length) (len - got.length) (filled++got) hout
        rw [hbytes,hpos,hsplit,append_assoc,length_append,add_assoc]
        exact ⟨rfl,rfl⟩
    | fail moved =>
      rw [fillLoop,if_neg hlen] at hout
      cases hout
    | interrupted moved =>
      obtain ⟨rfl,hclean⟩:=hclean
      rw [fillLoop,if_neg hlen] at hout ⊢
      exact ih hclean pos len filled hout

theorem fillLoop_returns {events : List Event} (h : ∀moved,Event.fail moved∉events) (pos len : ℕ) (filled : Bytes) :
    (fillLoop content events pos len filled).1≠none := by
  induction events generalizing pos len filled with
  | nil => exact Option.some_ne_none _
  | cons event events ih =>
    have htail : ∀moved,Event.fail moved∉events:=fun moved hmem => h moved (mem_cons_of_mem _ hmem)
    by_cases hlen : len=0
    · rw [hlen,fillLoop_zero]
      exact Option.some_ne_none _
    cases event with
    | piece n =>
      rw [fillLoop,if_neg hlen]
      dsimp only
      split_ifs
      · exact Option.some_ne_none _
      · exact ih htail _ _ _
    | fail moved => exact absurd mem_cons_self (h moved)
    | interrupted moved =>
      rw [fillLoop,if_neg hlen]
      exact ih htail _ _ _

/-- A fill that fails has left the reader where it was. -/
theorem fillLoop_fails {events : List Event} (hclean : Clean events) (hsettling : Settling events) (pos len : ℕ) (filled : Bytes)
    (hnone : (fillLoop content events pos len filled).1=none) : (fillLoop content events pos len filled).2=pos := by
  induction events generalizing pos with
  | nil => cases hnone
  | cons event events ih =>
    by_cases hlen : len=0
    · rw [hlen,fillLoop_zero] at hnone
      cases hnone
    cases event with
    | piece n =>
      rw [fillLoop,if_neg hlen] at hnone
      dsimp only at hnone
      split_ifs at hnone
      exact absurd hnone (fillLoop_returns hsettling _ _ _)
    | fail moved =>
      obtain rfl : moved=0:=hsettling
      rw [fillLoop,if_neg hlen]
      rfl
    | interrupted moved =>
      obtain ⟨rfl,hclean⟩:=hclean
      rw [fillLoop,if_neg hlen] at hnone ⊢
      exact ih hclean hsettling pos hnone

section Steps

variable {h : Handle} {offset size : ℕ}

theorem seek_cases (h : Handle) (offset : ℕ) :
    (∃seeks,h.seek offset=(true,{ h with pos := offset, seeks := seeks }) ∧ (SteadySeeks h.seeks → Unmoved seeks)) ∨
      ∃moved seeks,h.seeks = .fail moved::seeks ∧ h.seek offset=(false,{ h with pos := h.pos+moved, seeks := seeks }) := by
  rw [Handle.seek]
  cases hseeks : h.seeks with
  | nil =>
    refine .inl ⟨[],?_,fun _ moved hmem => absurd hmem not_mem_nil⟩
    dsimp only
  | cons seek seeks =>
    cases seek with
    | done => exact .inl ⟨seeks,rfl,fun hsteady => hsteady⟩
    | fail moved => exact .inr ⟨moved,seeks,rfl,rfl⟩

theorem fillRead_spec (hclean : ∀fill∈h.fills,Clean fill) (len : ℕ) :
    (h.fillRead content len).2={ h with pos := (h.fillRead content len).2.pos, fills := h.fills.tail } ∧
      (∀out,(h.fillRead content len).1=some out → out=content.slice h.pos len ∧ (h.fillRead content len).2.pos=h.pos+out.length) ∧
      ((h.fillRead content len).1=none→(∀fill∈h.fills,Settling fill) → (h.fillRead content len).2.pos=h.pos) := by
  have hfirst : Clean (h.fills.headD []) := by
    cases hfills : h.fills with
    | nil => trivial
    | cons fill fills => exact hclean fill (hfills ▸ mem_cons_self)
  refine ⟨rfl,fun out hout => ?_,fun hnone hsettling => ?_⟩
  · obtain ⟨hbytes,hpos⟩:=fillLoop_spec hfirst h.pos len [] hout
    rw [hbytes]
    exact ⟨rfl,hpos⟩
  · refine fillLoop_fails hfirst ?_ h.pos len [] hnone
    cases hfills : h.fills with
    | nil => trivial
    | cons fill fills => exact hsettling fill (hfills ▸ mem_cons_self)

/-- Without a remembered position a failed fill does no harm. -/
theorem direct_kept (hclean : ∀fill∈h.fills,Clean fill) : (h.direct content offset size).2.Kept content ∧
    ∀out,(h.direct content offset size).1=some out → out=content.slice offset size := by
  rw [Handle.direct]
  rcases seek_cases h.clear offset with ⟨seeks,hseek,-⟩ | ⟨moved,seeks,-,hseek⟩
  · rw [hseek]
    obtain ⟨hafter,hreturns,-⟩:=@fillRead_spec content { h.clear with pos := offset, seeks := seeks } hclean size
    refine ⟨?_,fun out hout => (hreturns out hout).1⟩
    dsimp only at hafter ⊢
    rw [hafter]
    exact ⟨nofun,fun fill hfill => hclean fill (mem_of_mem_tail hfill)⟩
  · rw [hseek]
    exact ⟨⟨nofun,hclean⟩,nofun⟩

theorem direct_steady (hclean : ∀fill∈h.fills,Clean fill) (hsteady : h.Steady) : (h.direct content offset size).2.Steady := by
  obtain ⟨-,hseeks,hfills⟩:=hsteady
  rw [Handle.direct]
  rcases seek_cases h.clear offset with ⟨seeks,hseek,hdone⟩ | ⟨moved,seeks,hfail,hseek⟩
  · rw [hseek]
    obtain ⟨hafter,-,-⟩:=@fillRead_spec content { h.clear with pos := offset, seeks := seeks } hclean size
    dsimp only at hafter ⊢
    rw [hafter]
    exact ⟨nofun,(hdone hseeks).steady,fun fill hfill => hfills fill (mem_of_mem_tail hfill)⟩
  · rw [hseek]
    rw [show h.seeks = .fail moved::seeks from hfail] at hseeks
    exact ⟨nofun,hseeks,hfills⟩

theorem direct_spec (hkept : h.Kept content) (hsteady : h.Steady) : Served content offset size (h.direct content offset size) := by
  obtain ⟨hkept',hreturns⟩:=@direct_kept content h offset size hkept.clean
  exact ⟨hkept',direct_steady hkept.clean hsteady,hreturns⟩

theorem seekUnlessThere_spec (hkept : h.Kept content) (hsteady : h.Steady) (offset : ℕ) :
    (h.seekUnlessThere offset).2.Kept content ∧ (h.seekUnlessThere offset).2.Steady ∧ ((h.seekUnlessThere offset).1=true →
      (h.seekUnlessThere offset).2.pos=offset ∧ (h.seekUnlessThere offset).2.cursor=some offset) := by
  obtain ⟨hcursor,hseeks,hfills⟩:=hsteady
  rw [Handle.seekUnlessThere]
  split_ifs with hthere
  · rcases seek_cases h offset with ⟨seeks,hseek,hdone⟩ | ⟨moved,seeks,hfail,hseek⟩
    · rw [hseek]
      have hunmoved:=hdone hseeks
      exact ⟨⟨hkept.window,hkept.clean⟩,⟨fun c hc => ⟨Option.some.inj hc,hunmoved⟩,hunmoved.steady,hfills⟩,fun _ => ⟨rfl,rfl⟩⟩
    · rw [hseek]
      refine ⟨⟨hkept.window,hkept.clean⟩,⟨fun c hc => ?_,?_,hfills⟩,nofun⟩
      · -- a seek that fails while a position is remembered does not move the reader
        obtain ⟨hpos,hunmoved⟩:=hcursor c hc
        rw [hfail] at hunmoved
        have hzero:=hunmoved moved mem_cons_self
        exact ⟨by rw [hzero]; exact hpos,fun m hm => hunmoved m (mem_cons_of_mem _ hm)⟩
      · rw [hfail] at hseeks
        exact hseeks
  · have hc:=not_not.mp hthere
    exact ⟨hkept,⟨hcursor,hseeks,hfills⟩,fun _ => ⟨(hcursor offset hc).1,hc⟩⟩

theorem fillWindow_spec (hkept : h.Kept content) (hsteady : h.Steady) (hpos : h.pos=offset) (hc : h.cursor=some offset)
    (hoffset : offset<2^64) (hsize : content.length<2^64) {want : ℕ} (hwant : size≤want) :
    Served content offset size (h.fillWindow content want offset size) := by
  obtain ⟨hcursor,hseeks,hfills⟩:=hsteady
  have hunmoved:=(hcursor offset hc).2
  have htail : ∀fill∈h.fills.tail,Clean fill:=fun fill hfill => hkept.clean fill (mem_of_mem_tail hfill)
  have htail' : ∀fill∈h.fills.tail,Settling fill:=fun fill hfill => hfills fill (mem_of_mem_tail hfill)
  obtain ⟨hafter,hreturns,hfails⟩:=@fillRead_spec content h hkept.clean want
  rw [Handle.fillWindow]
  cases hr : h.fillRead content want with
  | mk result after =>
    rw [hr] at hafter hreturns hfails
    dsimp only at hafter hreturns hfails
    cases result with
    | none =>
      have hstays:=hfails rfl hfills
      rw [hafter]
      refine ⟨⟨hkept.window,htail⟩,⟨fun c hc' => ⟨?_,hunmoved⟩,hseeks,htail'⟩,nofun⟩
      exact hstays.trans (hcursor c hc').1
    | some data =>
      obtain ⟨hdata,hmoved⟩:=hreturns data rfl
      have hlen:=length_slice content h.pos want
      rw [←hdata,hpos] at hlen
      rw [hpos] at hdata hmoved
      have hself : data=content.slice offset data.length := by
        refine hdata.trans ?_
        rw [slice,slice,take_eq_take_iff,length_drop]
        omega
      dsimp only
      rw [hafter]
      refine ⟨⟨?_,htail⟩,⟨fun c hc' => ⟨?_,hunmoved⟩,hseeks,htail'⟩,?_⟩
      · intro w hw
        cases hw
        refine ⟨hself,?_,hoffset⟩
        intro heof
        have hshort:=of_decide_eq_true heof
        dsimp only
        omega
      · have hc':=Option.some.inj hc'
        rw [←hc',satAdd]
        dsimp only
        omega
      · intro out hout
        rw [←Option.some.inj hout]
        rw [hself,slice,take_take,slice,take_eq_take_iff,←slice,←hself,length_drop]
        omega

theorem pressed_spec (hkept : h.Kept content) (hsteady : h.Steady) : h.pressed.Kept content ∧ h.pressed.Steady := by
  rw [Handle.pressed]
  cases h.drops with
  | nil => exact ⟨hkept,hsteady⟩
  | cons dropped drops =>
    refine ⟨⟨?_,hkept.clean⟩,hsteady⟩
    intro w hw
    cases dropped with
    | false => exact hkept.window w hw
    | true => cases hw

theorem isSequentialMiss_spec (hkept : h.Kept content) (hsteady : h.Steady) :
    (h.isSequentialMiss offset).2.Kept content ∧ (h.isSequentialMiss offset).2.Steady := by
  obtain ⟨hkept1,hsettled1⟩:=pressed_spec hkept hsteady
  rw [Handle.isSequentialMiss]
  split_ifs
  · exact ⟨hkept1,hsettled1⟩
  · exact ⟨hkept1,hsettled1⟩
  · exact pressed_spec hkept1 hsettled1

theorem miss_spec (hkept : h.Kept content) (hsteady : h.Steady) (hoffset : offset<2^64)
    (hsize : content.length<2^64) (enabled : Bool) (readahead : ℕ) :
    Served content offset size (h.miss content enabled readahead offset size) := by
  obtain ⟨hkept1,hsettled1⟩:=@isSequentialMiss_spec content h offset hkept hsteady
  rw [Handle.miss]
  cases hmiss : h.isSequentialMiss offset with
  | mk sequential h1 =>
    rw [hmiss] at hkept1 hsettled1
    dsimp only
    have hwant : size ≤ if sequential=true then max size readahead else size := by
      split_ifs
      · exact le_max_left _ _
      · exact le_rfl
    obtain ⟨hkept2,hsteady2,hthere⟩:=seekUnlessThere_spec hkept1 hsettled1 offset
    cases hseek : h1.seekUnlessThere offset with
    | mk done h2 =>
      rw [hseek] at hkept2 hsteady2 hthere
      cases done with
      | false => exact ⟨hkept2,hsteady2,nofun⟩
      | true =>
        obtain ⟨hpos2,hcursor2⟩:=hthere rfl
        -- the pool may drop the window now, and refuse the reservation
        obtain ⟨h3,hh3⟩ : ∃h3,h3=if enabled=true then { h2 with window:=none } else h2:=⟨_,rfl⟩
        have hkept3 : h3.Kept content ∧ h3.Steady ∧ h3.pos=offset ∧ h3.cursor=some offset := by
          rw [hh3]
          split_ifs
          · exact ⟨⟨nofun,hkept2.clean⟩,hsteady2,hpos2,hcursor2⟩
          · exact ⟨hkept2,hsteady2,hpos2,hcursor2⟩
        have hreserve : (h3.reserve enabled).2.Kept content ∧ (h3.reserve enabled).2.Steady ∧
            (h3.reserve enabled).2.pos=offset ∧ (h3.reserve enabled).2.cursor=some offset := by
          rw [Handle.reserve]
          split_ifs
          · exact hkept3
          · cases h3.refusals with
            | nil => exact hkept3
            | cons refused refusals => exact ⟨⟨hkept3.1.window,hkept3.1.clean⟩,hkept3.2⟩
        dsimp only
        rw [←hh3]
        cases hr : h3.reserve enabled with
        | mk granted h4 =>
          rw [hr] at hreserve
          obtain ⟨hkept4,hsteady4,hpos4,hcursor4⟩:=hreserve
          cases granted with
          | false => exact direct_spec hkept4 hsteady4
          | true => exact fillWindow_spec hkept4 hsteady4 hpos4 hcursor4 hoffset hsize hwant

theorem windowed_spec (hsize : content.length<2^64) (enabled : Bool) (readahead : ℕ) {turns : ℕ} (hturns : size≤turns)
    (hkept : h.Kept content) (hsteady : h.Steady) (hoffset : offset<2^64) :
    Served content offset size (h.windowed content enabled readahead turns offset size) := by
  have hempty : ∀{h : Handle} {offset : ℕ},h.Kept content → h.Steady → Served content offset 0 (some [],h) :=
    fun hkept hsteady => ⟨hkept,hsteady,fun out hout => (Option.some.inj hout).symm⟩
  induction turns generalizing h offset size with
  | zero =>
    obtain rfl : size=0:=Nat.le_zero.mp hturns
    exact hempty hkept hsteady
  | succ turns ih =>
    rw [Handle.windowed]
    split_ifs with hzero
    · rw [hzero]
      exact hempty hkept hsteady
    obtain ⟨hkept1,hsteady1⟩:=pressed_spec hkept hsteady
    dsimp only
    split
    · exact miss_spec hkept1 hsteady1 hoffset hsize enabled readahead
    · next w hwindow =>
      have hshows:=hkept1.window w hwindow
      split
      · next out hserve =>
        refine ⟨⟨hkept1.window,hkept1.clean⟩,hsteady1,?_⟩
        intro out' hout
        rw [←Option.some.inj hout]
        exact tryServe_eq hshows hsize hserve
      · next hserve =>
        split_ifs with hstraddle
        · obtain ⟨-,hge,hlt⟩:=hstraddle
          have hend:=hshows.endOffset hsize
          have hbound:=length_slice content w.start w.data.length
          rw [←hshows.data] at hbound
          -- the window's rest, then the bytes behind the window
          have hpart:=hshows.part (i:=offset-w.start) (n:=w.data.length-(offset-w.start)) (by omega)
          rw [take_of_length_le (by rw [length_drop]),show w.start+(offset-w.start)=offset by omega] at hpart
          obtain ⟨rest,hrest⟩ : ∃rest,rest=w.data.drop (offset - w.start):=⟨_,rfl⟩
          have hrestlen : rest.length=w.data.length-(offset-w.start) := by rw [hrest,length_drop]
          have hshort : rest.length<size := by
            by_contra hlong
            rw [Window.tryServe,if_neg hzero,if_neg (by omega),if_neg (by omega)] at hserve
            rw [if_neg (by omega),if_pos] at hserve
            · cases hserve
            · rw [length_take,length_drop,satAdd]
              omega
          obtain ⟨h2,hh2⟩ : ∃h2 : Handle,h2={ h.pressed with lastEnd:=some w.endOffset } := ⟨_,rfl⟩
          have hkept2 : h2.Kept content:=hh2 ▸ ⟨hkept1.window,hkept1.clean⟩
          have hsteady2 : h2.Steady:=hh2 ▸ hsteady1
          have hnext:=@ih h2 w.endOffset (size-rest.length) (by omega) hkept2 hsteady2 (by omega)
          rw [←hrest,←hh2]
          cases hr : Handle.windowed content enabled readahead turns h2 w.endOffset (size - rest.length) with
          | mk result after =>
            rw [hr] at hnext
            cases result with
            | none => exact ⟨hnext.1,hnext.2.1,nofun⟩
            | some more =>
              have hmore:=hnext.2.2 more rfl
              refine ⟨hnext.1,hnext.2.1,?_⟩
              intro out hout
              have hrestpart : content.slice offset rest.length=rest := by rw [hrestlen,hrest,hpart]
              have hsplit:=slice_add content offset rest.length (size-rest.length)
              rw [hrestpart,Nat.add_sub_of_le (le_of_lt hshort)] at hsplit
              rw [←Option.some.inj hout,hmore,hend,show w.start+w.data.length=offset+rest.length by omega,hsplit]
        · exact miss_spec hkept1 hsteady1 hoffset hsize enabled readahead

theorem readaheadFill_spec (hsize : content.length<2^64) (server : Server) (readahead : ℕ)
    (hkept : h.Kept content) (hsteady : h.Steady) (hoffset : offset<2^64) :
    Served content offset size (server.readaheadFill content readahead h offset size) := by
  cases server with
  | fuse enabled =>
    rw [Server.readaheadFill,fuseReadaheadFill]
    split_ifs
    · exact direct_spec hkept hsteady
    · exact windowed_spec hsize enabled readahead (le_refl size) hkept hsteady hoffset
  | nfs =>
    rw [Server.readaheadFill,nfsReadaheadFill]
    by_cases hzero : readahead=0
    · rw [if_pos hzero]
      exact direct_spec hkept hsteady
    rw [if_neg hzero]
    by_cases hempty : size=0
    · rw [if_pos hempty]
      refine ⟨hkept,hsteady,?_⟩
      intro out hout
      rw [←Option.some.inj hout,hempty]
      rfl
    rw [if_neg hempty]
    split
    · next out hserve =>
      refine ⟨⟨hkept.window,hkept.clean⟩,hsteady,?_⟩
      intro out' hout
      obtain ⟨w,hwindow,hserve⟩:=Option.bind_eq_some_iff.mp hserve
      rw [←Option.some.inj hout]
      exact tryServe_eq (hkept.window w hwindow) hsize hserve
    · obtain ⟨want,hwant⟩ : ∃want,want=if h.continues offset=true then max size readahead else size:=⟨_,rfl⟩
      have hle : size≤want := by
        rw [hwant]
        split_ifs
        · exact le_max_left _ _
        · exact le_rfl
      rw [←hwant]
      obtain ⟨hkept1,hsteady1,hthere⟩:=seekUnlessThere_spec hkept hsteady offset
      cases hseek : h.seekUnlessThere offset with
      | mk done h1 =>
        rw [hseek] at hkept1 hsteady1 hthere
        cases done with
        | false => exact ⟨hkept1,hsteady1,nofun⟩
        | true => exact fillWindow_spec hkept1 hsteady1 (hthere rfl).1 (hthere rfl).2 hoffset hsize hle

end Steps

section Runs

variable (content) (fill : Handle → ℕ → ℕ → Option Bytes × Handle)

/-- Every request of the run that returns, returns the content's bytes. -/
def RunsRight : Handle → List (ℕ × ℕ) → Prop
  | _, [] => True
  | h, (offset,size) :: requests =>
    (∀ out, (fill h offset size).1 = some out → out = content.slice offset size) ∧ RunsRight (fill h offset size).2 requests

end Runs

/-- A handle as it is opened, over a reader at any position. -/
def opened (pos : ℕ) (seeks : List Seek) (fills : List (List Event)) (drops refusals : List Bool) : Handle :=
  ⟨pos,seeks,fills,none,none,none,drops,refusals⟩

/-- Without readahead, or if no fill fails behind its first piece and no seek that fails behind the first moves the reader,
the readahead does not show. -/
theorem readahead_transparent (hsize : content.length < 2 ^ 64) (server : Server) (readahead : ℕ) (pos : ℕ)
    {seeks : List Seek} {fills : List (List Event)} (hclean : ∀ fill ∈ fills, Clean fill)
    (hsteady : readahead = 0 ∨ SteadySeeks seeks ∧ ∀ fill ∈ fills, Settling fill) (drops refusals : List Bool)
    {requests : List (ℕ × ℕ)} (hoffsets : ∀ r ∈ requests, r.1 < 2 ^ 64) :
    RunsRight content (server.readaheadFill content readahead) (opened pos seeks fills drops refusals) requests := by
  obtain ⟨h,hh⟩ : ∃ h, h = opened pos seeks fills drops refusals := ⟨_,rfl⟩
  have hkept : h.Kept content := by
    rw [hh]
    exact ⟨nofun,hclean⟩
  have hsteady : readahead = 0 ∨ h.Steady := by
    rw [hh]
    exact hsteady.imp id fun hboth => ⟨nofun,hboth⟩
  rw [← hh]
  clear hh
  induction requests generalizing h with
  | nil => trivial
  | cons request requests ih =>
    obtain ⟨offset,size⟩ := request
    have hrest := fun r hr => hoffsets r (mem_cons_of_mem _ hr)
    rcases hsteady with rfl | hsteady
    · obtain ⟨hkept',hreturns⟩ := @direct_kept content h offset size hkept.clean
      have hdirect : server.readaheadFill content 0 h offset size = h.direct content offset size := by cases server <;> rfl
      rw [RunsRight,hdirect]
      exact ⟨hreturns,ih hrest _ hkept' (.inl rfl)⟩
    · obtain ⟨hkept',hsteady',hreturns⟩ : Served content offset size (server.readaheadFill content readahead h offset size) :=
        readaheadFill_spec hsize server readahead hkept hsteady (hoffsets _ mem_cons_self)
      exact ⟨hreturns,ih hrest _ hkept' (.inr hsteady')⟩

/-- A request served from short pieces, a seek that fails, and a read that fails before its first piece. -/
theorem readahead_transparent_sample : RunsRight [1,2,3,4] ((Server.fuse true).readaheadFill [1,2,3,4] 3)
    (opened 2 [.done,.fail 0] [[.piece 0,.piece 1],[.fail 0]] [] []) [(0,2),(3,1),(3,1),(3,1)] := by
  refine readahead_transparent (by decide) (.fuse true) 3 2 ?_ (.inr ⟨?_,?_⟩) [] [] (by decide)
  · simp [Clean]
  · simp [SteadySeeks,Unmoved]
  · simp [Settling]

/-- A fill that fails behind its first piece: the next request at the same offset reads from there on. -/
theorem failed_fill_shifts : [Server.fuse false,.fuse true,.nfs].Forall fun server =>
    ¬ RunsRight [1,2,3,4] (server.readaheadFill [1,2,3,4] 4) (opened 0 [] [[.piece 1,.fail 0]] [] []) [(0,4),(0,2)] := by
  rw [forall_iff_forall_mem]
  intro server hserver hruns
  have hwrong : [3,4] = slice [1,2,3,4] 0 2 := by
    refine hruns.2.1 [3,4] ?_
    fin_cases hserver <;> rfl
  exact absurd hwrong (by decide)

end Ratarmount.Readahead
