import Ratarmount.ArchivePaths
import Ratarmount.LoopTraces

/-!
# The WARC index loop

The turns of `fill_index_from_data`, with positions as they are added in a release
build. The path of an entry, on which no position depends, is left out.
-/

namespace Ratarmount.Warc

open List

/-- The line ends before a record, `\r\n` in one step. -/
def skipBlank : Bytes → ℕ
  | 13 :: 10 :: rest => skipBlank rest + 2
  | 13 :: rest | 10 :: rest => skipBlank rest + 1
  | _ => 0

def findSubslice (needle : Bytes) : Bytes → Option ℕ
  | [] => if needle = [] then some 0 else none
  | b :: rest => if needle <+: b :: rest then some 0 else (findSubslice needle rest).map (· + 1)

def asciiLower (b : UInt8) : UInt8 := if 65 ≤ b.toNat ∧ b.toNat ≤ 90 then b + 32 else b

def lineField (name line : Bytes) : Option Bytes :=
  let line := if line.getLast? = some 13 then line.dropLast else line
  match line.findIdx? (· = 58) with
  | some colon =>
    if (line.take colon).map asciiLower = name.map asciiLower then
      some ((line.drop (colon + 1)).dropWhile fun b => b = 32 || b = 9)
    else none
  | none => none

def headerField (header name : Bytes) : Option Bytes := (header.splitOn 10).findSome? (lineField name)

def contentLength (header : Bytes) : Option ℕ := do
  let value ← headerField header (Utf8.encode "Content-Length".toList)
  let text ← Utf8.decodeStrict value
  Numeral.parse 10 (2 ^ 64) (ArchivePath.trim text)

/-- Where the header ends, and how long its terminator is. -/
def headerEnd (rest : Bytes) : Option (ℕ × ℕ) :=
  match findSubslice [13,10,13,10] rest with
  | some rel => some (rel,4)
  | none => (findSubslice [10,10] rest).map (·,2)

structure Entry where
  headerStart : ℕ
  offset : ℕ
  size : ℕ
  deriving DecidableEq

inductive Turn where
  | done
  | missingTerminator (pos : ℕ)
  | missingContentLength (headerStart : ℕ)
  | truncatedPayload (headerStart : ℕ)
  | panicked
  | record (entry : Entry) (next : ℕ)
  deriving DecidableEq

/-- The record at `pos`. -/
def readRecord (data : Bytes) (pos : ℕ) : Turn :=
  match headerEnd (data.drop pos) with
  | none => .missingTerminator pos
  | some (rel,width) =>
    -- `&data[pos..sep]`
    if data.length < pos + rel then .panicked
    else
      match contentLength ((data.drop pos).take rel) with
      | none => .missingContentLength pos
      | some size =>
        let stop := (pos + rel + width + size) % 2 ^ 64
        if data.length < stop then .truncatedPayload pos else .record ⟨pos,pos + rel + width,size⟩ stop

def turn (data : Bytes) (pos : ℕ) : Turn :=
  if pos < data.length then
    let start := pos + skipBlank (data.drop pos)
    if start < data.length ∧ Utf8.encode "WARC/".toList <+: data.drop start then readRecord data start else .done
  else .done

/-- The position of the next turn, if there is one. -/
def next (data : Bytes) (pos : ℕ) : Option ℕ :=
  match turn data pos with
  | .record _ stop => some stop
  | _ => none

variable {data : Bytes} {pos stop : ℕ} {entry : Entry}

theorem findSubslice_le {needle rest : Bytes} {rel : ℕ} (h : findSubslice needle rest=some rel) :
    rel+needle.length ≤ rest.length := by
  induction rest generalizing rel with
  | nil =>
    rw [findSubslice] at h
    split_ifs at h with hnil
    simp [←Option.some.inj h,hnil]
  | cons b rest ih =>
    rw [findSubslice] at h
    split_ifs at h with hfirst
    · rw [←Option.some.inj h,zero_add]
      exact hfirst.length_le
    · obtain ⟨k,hk,rfl⟩:=Option.map_eq_some_iff.mp h
      have := ih hk
      rw [length_cons]
      omega

theorem headerEnd_le {rest : Bytes} {found : ℕ × ℕ} (h : headerEnd rest=some found) :
    found.1+found.2 ≤ rest.length ∧ 0<found.2 := by
  rw [headerEnd] at h
  cases hfind : findSubslice [13,10,13,10] rest with
  | some k =>
    rw [hfind] at h
    cases h
    exact ⟨findSubslice_le hfind,Nat.succ_pos _⟩
  | none =>
    rw [hfind] at h
    obtain ⟨k,hk,heq⟩:=Option.map_eq_some_iff.mp h
    cases heq
    exact ⟨findSubslice_le hk,Nat.succ_pos _⟩

theorem readRecord_record (h : readRecord data pos = .record entry stop) :
    pos<entry.offset ∧ entry.offset≤data.length ∧ stop≤data.length ∧ stop=(entry.offset+entry.size) % 2^64 := by
  rw [readRecord] at h
  cases hend : headerEnd (data.drop pos) with
  | none =>
    rw [hend] at h
    cases h
  | some found =>
    obtain ⟨hle,hwidth⟩:=headerEnd_le hend
    rw [length_drop] at hle
    simp only [hend] at h
    split_ifs at h
    split at h
    · cases h
    · split_ifs at h with hstop
      cases h
      exact ⟨by dsimp only; omega,by dsimp only; omega,not_lt.mp hstop,rfl⟩

theorem readRecord_ne_panicked (hpos : pos<data.length) : readRecord data pos ≠ .panicked := by
  rw [readRecord]
  cases hend : headerEnd (data.drop pos) with
  | none => nofun
  | some found =>
    have hle:=(headerEnd_le hend).1
    rw [length_drop] at hle
    simp only [if_neg (show ¬data.length<pos+found.1 by omega)]
    split
    · nofun
    · split_ifs <;> nofun

/-- What a turn that goes on has read. -/
theorem turn_record (h : turn data pos = .record entry stop) :
    pos<entry.offset ∧ entry.offset≤data.length ∧ stop≤data.length ∧ stop=(entry.offset+entry.size) % 2^64 := by
  simp only [turn] at h
  split_ifs at h
  obtain ⟨hlt,hrest⟩:=readRecord_record h
  exact ⟨by omega,hrest⟩

theorem turn_ne_panicked (data : Bytes) (pos : ℕ) : turn data pos ≠ .panicked := by
  simp only [turn]
  split_ifs with hpos hstart
  · exact readRecord_ne_panicked hstart.1
  · nofun
  · nofun

theorem next_eq_some : next data pos=some stop ↔ ∃entry,turn data pos = .record entry stop := by
  rw [next]
  cases turn data pos <;> simp

/-- Indexing moves forward in every turn, ends, and stays within the data exactly if no record that it reads
claims a length whose end is no `usize`. -/
theorem index_progresses_iff (data : Bytes) (hdata : data.length < 2 ^ 64) :
    (Loop.Progresses (next data) id 1 data.length 0 ∧ ∀ n, ∀ pos ∈ Loop.trace (next data) n 0,
      turn data pos ≠ .panicked ∧ ∀ entry stop, turn data pos = .record entry stop → entry.offset + entry.size ≤ data.length) ↔
    ∀ n, ∀ pos ∈ Loop.trace (next data) n 0, ∀ entry stop, turn data pos = .record entry stop →
      entry.offset + entry.size < 2 ^ 64 := by
  have hread : ∀ a b, next data a = some b → id a + 1 ≤ data.length := by
    intro a b h
    obtain ⟨entry,hturn⟩ := next_eq_some.mp h
    obtain ⟨hlt,hle,-⟩ := turn_record hturn
    exact hlt.trans_le hle
  rw [Loop.progresses_iff one_pos hread]
  constructor
  · rintro ⟨-,hwithin⟩ n pos hpos entry stop hturn
    exact ((hwithin n pos hpos).2 entry stop hturn).trans_lt hdata
  · intro hfits
    have hstop : ∀ n, ∀ pos ∈ Loop.trace (next data) n 0, ∀ entry stop, turn data pos = .record entry stop →
        pos < stop ∧ entry.offset + entry.size ≤ data.length := by
      intro n pos hpos entry stop hturn
      obtain ⟨hlt,hle,hend,rfl⟩ := turn_record hturn
      rw [Nat.mod_eq_of_lt (hfits n pos hpos entry _ hturn)] at hend ⊢
      exact ⟨hlt.trans_le (Nat.le_add_right _ _),hend⟩
    constructor
    · intro n pos hpos stop hnext
      obtain ⟨entry,hturn⟩ := next_eq_some.mp hnext
      exact (hstop n pos hpos entry stop hturn).1
    · intro n pos hpos
      exact ⟨turn_ne_panicked data pos,fun entry stop hturn => (hstop n pos hpos entry stop hturn).2⟩

def oneRecord : Bytes := Utf8.encode "WARC/1.0\r\nContent-Length: 2\r\n\r\nab".toList

theorem one_record_progresses : oneRecord.length < 2 ^ 64 ∧ Loop.Progresses (next oneRecord) id 1 oneRecord.length 0 := by
  have hdata : oneRecord.length < 2 ^ 64 := by decide +kernel
  refine ⟨hdata,((index_progresses_iff oneRecord hdata).mpr ?_).1⟩
  have hfirst : turn oneRecord 0 = .record ⟨0,31,2⟩ 33 := by decide +kernel
  have hlast : turn oneRecord 33 = .done := by decide +kernel
  intro n pos hpos entry stop hturn
  have hcases : pos = 0 ∨ pos = 33 := by
    match n with
    | 0 => cases hpos
    | 1 => exact .inl (by simpa [Loop.trace,next,hfirst] using hpos)
    | n + 2 => simpa [Loop.trace,next,hfirst,hlast] using hpos
  rcases hcases with rfl | rfl
  · rw [hfirst] at hturn
    cases hturn
    decide
  · rw [hlast] at hturn
    cases hturn

/-- A record whose payload would end at `2 ^ 64`. -/
def wrappingRecord : Bytes :=
  Utf8.encode "WARC/1.0\r\nContent-Length: 18446744073709551566\r\n\r\n".toList

/-- The loop reads it again and again. -/
theorem wrapping_record_again :
    wrappingRecord.length < 2 ^ 64 ∧ Loop.trace (next wrappingRecord) 4 0 = [0,0,0,0] ∧
      ¬ Loop.Progresses (next wrappingRecord) id 1 wrappingRecord.length 0 := by
  have htrace : Loop.trace (next wrappingRecord) 4 0 = [0,0,0,0] := by decide +kernel
  refine ⟨by decide +kernel,htrace,fun hprogress => ?_⟩
  have hpair := (hprogress 4).1
  rw [htrace] at hpair
  exact absurd hpair (by decide)

end Ratarmount.Warc
