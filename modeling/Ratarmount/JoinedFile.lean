import Ratarmount.SegmentedFile

/-!
# Split files joined

`JoinedFile` reads the parts of a split file as one, with one part open at a time. It and
the views over segments are cursors over the concatenation of their pieces.
-/

namespace Ratarmount.Compress

open Seekable List SegmentedFile

/-- The parts with the sizes that `open_parts` found, and what their files hold when they are read. -/
structure JoinedFile where
  parts : List (ℕ × Bytes)
  pos : ℕ
  /-- The part whose file is open. -/
  opened : Option ℕ

namespace JoinedFile

def openParts (parts : List (ℕ × Bytes)) : JoinedFile := ⟨parts,0,none⟩

def total (parts : List (ℕ × Bytes)) : ℕ := (parts.map Prod.fst).sum

/-- The loop of `locate` from part `i` of `count` on, the parts before it `off` bytes long. -/
def locateFrom (count pos : ℕ) : List (ℕ × Bytes) → ℕ → ℕ → Option (ℕ × ℕ)
  | [], _, _ => none
  | (size,_) :: parts, i, off =>
    if pos < off + size ∨ pos = off + size ∧ i + 1 = count then some (i,pos - off)
    else locateFrom count pos parts (i + 1) (off + size)

def locate (parts : List (ℕ × Bytes)) (pos : ℕ) : Option (ℕ × ℕ) := locateFrom parts.length pos parts 0 0

/-- A read, with what the open file delivers during it. -/
def read (f : JoinedFile) (inner : (size : ℕ) → Chunking size) (n : ℕ) : JoinedFile × Reply :=
  if total f.parts ≤ f.pos ∨ n = 0 then (f,.bytes [])
  else
    match locate f.parts f.pos with
    | none => (f,.error)
    | some (i,into) =>
      match f.parts[i]? with
      | none => (f,.error)
      | some (size,file) =>
        let got := file.slice into ((inner file.length).chunk into (min n (size - into)))
        (⟨f.parts,f.pos + got.length,some i⟩,.bytes got)

def seek (f : JoinedFile) (dest : SeekFrom) : JoinedFile × Reply :=
  let new := seekTarget (total f.parts) f.pos dest
  if new < 0 then (f,.error) else ({ f with pos := new.toNat },.moved new.toNat)

def step (f : JoinedFile) (call : Call) (inner : (size : ℕ) → Chunking size) : JoinedFile × Reply :=
  match call with
  | .seek dest => f.seek dest
  | .read n => f.read inner n

/-- What the parts show: as much of a file as it was long. -/
def pieces (parts : List (ℕ × Bytes)) : List (Option UInt8) := concatenation Prod.fst (fun part => part.2.slice 0 part.1) parts

theorem slice_fits (part : ℕ × Bytes) : (part.2.slice 0 part.1).length≤part.1 := by simp

theorem length_pieces (parts : List (ℕ × Bytes)) : (pieces parts).length=total parts := length_concatenation slice_fits parts

theorem locateFrom_split {count pos i off : ℕ} {parts : List (ℕ × Bytes)} (hcount : count=i+parts.length)
    (hlo : off≤pos) (hhi : pos<off+total parts) :
    ∃pre part post into,parts=pre++part::post ∧ locateFrom count pos parts i off=some (i+pre.length,into) ∧
      into<part.1 ∧ pos=off+(total pre+into) := by
  induction parts generalizing i off with
  | nil => simp [total] at hhi; omega
  | cons part parts ih =>
    obtain ⟨size,file⟩:=part
    have htotal : total ((size,file)::parts)=size+total parts := by simp [total]
    rw [locateFrom]
    split_ifs with hhere
    · have hlt : pos<off+size := by
        rcases hhere with hlt | ⟨heq,hlast⟩
        · exact hlt
        -- the last part ends where the file does
        · rw [length_cons] at hcount
          have hnil : parts=[]:=eq_nil_of_length_eq_zero (by omega)
          rw [hnil] at hhi
          simp [total] at hhi
          omega
      exact ⟨[],(size,file),parts,pos-off,rfl,rfl,by dsimp only; omega,by simp [total]; omega⟩
    · rw [length_cons] at hcount
      obtain ⟨pre,part,post,into,rfl,hlocate,hinto,hpos⟩:=@ih (i+1) (off+size) (by omega) (by omega) (by omega)
      refine ⟨(size,file)::pre,part,post,into,rfl,?_,hinto,?_⟩
      · rw [hlocate,length_cons,add_assoc,add_comm 1]
      · rw [hpos,total,total,map_cons,sum_cons]
        omega

theorem step_cursor (f : JoinedFile) {call : Call} (hcall : call.Fits) (inner : (size : ℕ) → Chunking size)
    (htotal : total f.parts<2^63) (hpos : f.pos<2^63) : (step f call inner).1.parts=f.parts ∧
      CursorStep (pieces f.parts) f.pos call (step f call inner).2 (step f call inner).1.pos := by
  have hlength:=length_pieces f.parts
  cases call with
  | read n =>
    rw [step,read]
    split_ifs with hend
    · exact ⟨rfl,cursorStep_end (hlength ▸ hend.symm)⟩
    · obtain ⟨pre,part,post,into,hparts,hlocate,hinto,hat⟩ :=
        @locateFrom_split f.parts.length f.pos 0 0 f.parts (by omega) (by omega) (by omega)
      have hpart : f.parts[0+pre.length]?=some part := by simp [hparts]
      rw [locate,hlocate]
      dsimp only
      rw [hpart]
      refine ⟨rfl,?_⟩
      rw [hparts]
      refine cursorStep_source slice_fits (inner part.2.length) rfl hinto (hat.trans (zero_add _)) ?_
      rw [zero_add,min_comm]
  | seek dest =>
    have hseek:=@cursorStep_seek (pieces f.parts) f.pos (by omega) hpos dest hcall _ rfl
    rw [hlength] at hseek
    rw [step,seek]
    split_ifs at hseek ⊢ <;> exact ⟨rfl,hseek⟩

end JoinedFile

/-- The views over segments and regions whose offsets are 64-bit words, and the joined file, are cursors over the
concatenation of their pieces, which empty pieces do not change. -/
theorem composite_readers :
    (∀ (base : Bytes) (segments : List FileSegment) (calls : List (Call × Chunking base.length)),
      size segments < 2 ^ 63 → (∀ s ∈ segments, s.InRange) → (∀ x ∈ calls, x.1.Fits) →
        Along (CursorStep (pieces base segments)) 0
          (run (fun f call inner => step base inner f call ()) pos (.new segments) calls)) ∧
    (∀ (base : Bytes) (regions : List (ℕ × ℕ)) (calls : List (Call × Chunking base.length)),
      (regions.map Prod.snd).sum < 2 ^ 63 → (∀ r ∈ regions, r.1 + r.2 ≤ 2 ^ 64) → (∀ x ∈ calls, x.1.Fits) →
        Along (CursorStep (concatenation Prod.snd (fun r => base.slice r.1 r.2) regions)) 0
          (run (fun f call inner => step base inner f call ()) pos (.stenciled regions) calls)) ∧
    (∀ (parts : List (ℕ × Bytes)) (calls : List (Call × ((size : ℕ) → Chunking size))),
      JoinedFile.total parts < 2 ^ 63 → (∀ x ∈ calls, x.1.Fits) →
        Along (CursorStep (JoinedFile.pieces parts)) 0 (run JoinedFile.step JoinedFile.pos (.openParts parts) calls)) ∧
    (∀ base segments, pieces base (segments.filter (0 < ·.len)) = pieces base segments) ∧
    ∀ parts, JoinedFile.pieces (parts.filter (0 < ·.1)) = JoinedFile.pieces parts := by
  have hsegmented (base : Bytes) (segments : List FileSegment) (calls : List (Call × Chunking base.length))
      (hsize : size segments < 2 ^ 63) (hrange : ∀ s ∈ segments, s.InRange) (hcalls : ∀ x ∈ calls, x.1.Fits) :
      Along (CursorStep (pieces base segments)) 0
        (run (fun f call inner => step base inner f call ()) pos (.new segments) calls) := by
    have hnew : pieces base (new segments).segments = pieces base segments :=
      concatenation_filter bytes_fits segments
    have hlength := congrArg List.length hnew
    rw [length_pieces,length_pieces] at hlength
    refine along_of (fun f : SegmentedFile => f.segments = (new segments).segments ∧ f.pos < 2 ^ 63) ?_ hcalls
      ⟨rfl,Nat.two_pow_pos 63⟩ rfl
    rintro f call inner hcall ⟨hf,hpos⟩
    have hstep := @step_cursor base inner f (fun s hs => hrange s (mem_of_mem_filter (hf ▸ hs))) call hcall (by rw [hf]; omega) hpos
    rw [hf,hnew] at hstep
    exact ⟨⟨hstep.1,hstep.2.lt (by rwa [length_pieces]) hpos⟩,hstep.2⟩
  refine ⟨hsegmented,?_,?_,fun _ => concatenation_filter bytes_fits,
    concatenation_filter JoinedFile.slice_fits⟩
  · intro base regions calls hsize hrange hcalls
    have hmap : pieces base (regions.map fun r => .data r.1 r.2) =
        concatenation Prod.snd (fun r => base.slice r.1 r.2) regions := flatMap_map _ _ _
    rw [← hmap]
    refine hsegmented base _ calls ?_ ?_ hcalls
    · rw [size,map_map]
      exact hsize
    · intro s hs
      obtain ⟨r,hr,rfl⟩ := mem_map.mp hs
      exact hrange r hr
  · intro parts calls htotal hcalls
    refine along_of (fun f : JoinedFile => f.parts = parts ∧ f.pos < 2 ^ 63) ?_ hcalls ⟨rfl,Nat.two_pow_pos 63⟩ rfl
    rintro f call inner hcall ⟨rfl,hpos⟩
    have hstep := f.step_cursor hcall inner htotal hpos
    exact ⟨⟨hstep.1,hstep.2.lt (by rwa [JoinedFile.length_pieces]) hpos⟩,hstep.2⟩

/-- A region that begins at the last 64-bit offset: behind its first byte the sum wraps, and the view shows the
archive's start where the region has nothing, however the archive is read. -/
theorem wrapped_region_shows_start : ¬∃ inner : Chunking 5,
    Along (CursorStep (concatenation Prod.snd (fun r => Bytes.slice [1,2,3,4,5] r.1 r.2) [(2 ^ 64 - 1,10)])) 0
      (run (fun f call inner => step [1,2,3,4,5] inner f call ()) pos (.stenciled [(2 ^ 64 - 1,10)])
        [(.seek (.start 1),inner),(.read 5,inner)]) := by
  rintro ⟨inner,hview⟩
  have hseek : (stenciled [(2 ^ 64 - 1,10)]).seek (.start 1) = (⟨[.data (2 ^ 64 - 1) 10],1⟩,.moved 1) := rfl
  have hread : (⟨[.data (2 ^ 64 - 1) 10],1⟩ : SegmentedFile).read [1,2,3,4,5] inner 5 =
      (⟨[.data (2 ^ 64 - 1) 10],1 + (Bytes.slice [1,2,3,4,5] 0 (inner.chunk 0 5)).length⟩,
        .bytes (Bytes.slice [1,2,3,4,5] 0 (inner.chunk 0 5))) := rfl
  simp only [run,step,hseek,hread] at hview
  obtain ⟨-,⟨hout,-⟩,-⟩ := hview
  obtain ⟨k,hk⟩ := Nat.exists_eq_add_of_lt (inner.pos_of_lt 0 5 (by decide) (by decide))
  have hhead := congrArg List.head? (prefix_iff_eq_take.mp hout)
  rw [hk] at hhead
  simp [Bytes.slice,concatenation,shown] at hhead

end Ratarmount.Compress
