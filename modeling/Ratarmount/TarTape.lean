import Ratarmount.TarSuffixRewrite

/-!
# Well-formed tapes

What a TAR stream is: members with their helper records, global PAX records, and
zero blocks at the end. A record carries the proof that its header is valid and
its body padded; a member's name and size come from its header, its helpers and
the global records before it.
-/

namespace Ratarmount.Tar

open List

structure Rec where
  header : Bytes
  body : Bytes
  pad : Bytes
  header_length : header.length = 512
  nonzero : isZero header = false
  checksum : checksumOk header = true
  padded : body.length + pad.length = (body.length + 511) / 512 * 512

def Rec.bytes (r : Rec) : Bytes := r.header ++ (r.body ++ r.pad)

/-- An `x`, `L` or `K` record. -/
structure Helper extends Rec where
  flag : typeflag header = 120 ∨ typeflag header = 76 ∨ typeflag header = 75
  size : sizeField header = body.length

/-- A `g` record. -/
structure GlobalPax extends Rec where
  flag : typeflag header = 103
  size : sizeField header = body.length

/-- The header and data of a member; an old-GNU sparse member may have extension blocks in between. -/
structure MainRec extends Rec where
  ext : Bytes
  flag : typeflag header ≠ 103 ∧ typeflag header ≠ 120 ∧ typeflag header ≠ 76 ∧ typeflag header ≠ 75
  ext_blocks : ext.length % 512 = 0

def MainRec.bytes (r : MainRec) : Bytes := r.header ++ (r.ext ++ (r.body ++ r.pad))

inductive Item
  | globalPax (r : GlobalPax)
  | member (helpers : List Helper) (main : MainRec)

namespace Item

def helperBytes (helpers : List Helper) : Bytes := helpers.flatMap (fun h => h.bytes)

def bytes : Item → Bytes
  | globalPax r => r.bytes
  | member helpers main => helperBytes helpers ++ main.bytes

/-- The records of an item, each of which costs a walker one turn. -/
def records : Item → ℕ
  | globalPax _ => 1
  | member helpers _ => helpers.length + 1

end Item

def render (items : List Item) : Bytes := items.flatMap Item.bytes

@[simp] theorem render_nil : render []=[] := rfl

@[simp] theorem render_cons (i : Item) (items : List Item) : render (i::items)=i.bytes++render items := rfl

@[simp] theorem render_append (as bs : List Item) : render (as++bs)=render as++render bs := by
  simp [render]

theorem Rec.length_bytes (r : Rec) : r.bytes.length=512+(r.body.length+511) / 512*512 := by
  have := r.padded
  rw [bytes,length_append,length_append,r.header_length]
  omega

theorem Item.records_le (i : Item) : 512*i.records ≤ i.bytes.length := by
  cases i with
  | globalPax r =>
    rw [Item.records,Item.bytes,r.length_bytes]
    omega
  | member helpers main =>
    have hhelpers : 512*helpers.length≤(Item.helperBytes helpers).length := by
      induction helpers with
      | nil => simp
      | cons h helpers ih =>
        have := h.length_bytes
        simp only [Item.helperBytes,flatMap_cons,length_append,length_cons] at ih ⊢
        omega
    rw [Item.records,Item.bytes,length_append,MainRec.bytes,length_append,main.header_length]
    omega

theorem sum_records_le (items : List Item) : 512*(items.map Item.records).sum≤(render items).length := by
  induction items with
  | nil => simp
  | cons i items ih =>
    have := i.records_le
    rw [map_cons,sum_cons,render_cons,length_append]
    omega

/-! ## What the records say -/

def paxOf (body : Bytes) : PaxMap :=
  match parsePaxRecords body with
  | .ok parsed => parsed.map
  | .error _ => PaxMap.empty

section Meaning

variable (enc : Encoding)

def Helper.apply (map : PaxMap) (h : Helper) : PaxMap :=
  if typeflag h.header = 120 then map.extend (paxOf h.body)
  else map.insert (if typeflag h.header = 76 then PaxKey.path else PaxKey.linkpath)
    (enc (stripNuls h.body))

def helpersMap (helpers : List Helper) : PaxMap := helpers.foldl (Helper.apply enc) PaxMap.empty

/-- The records in force for a member behind its helpers. -/
def memberPax (g : PaxMap) (helpers : List Helper) : PaxMap := g.extend (helpersMap enc helpers)

/-- The global records in force behind an item. -/
def Item.globalAfter (g : PaxMap) : Item → PaxMap
  | .globalPax r => g.extend (paxOf r.body)
  | .member _ _ => g

/-- Every member's data has the size that its records give. -/
def Fits : PaxMap → List Item → Prop
  | _, [] => True
  | g, .globalPax r :: items => Fits (g.extend (paxOf r.body)) items
  | g, .member helpers main :: items =>
    main.body.length = Cursor.onTapeSize (memberPax enc g helpers) main.header ∧ Fits g items

/-- The normalized name of a member; a global record has none. -/
def Item.name (g : PaxMap) : Item → Str
  | .globalPax _ => []
  | .member helpers main =>
    ArchivePath.normalizeArchiveRelPath (memberName enc (memberPax enc g helpers) main.header)

end Meaning

/-- A TAR stream in full: its items, and zeros from the end of the data on. -/
structure Tape (enc : Encoding) where
  items : List Item
  trailer : ℕ
  fits : Fits enc PaxMap.empty items
  two_blocks : 1024 ≤ trailer
  short : (render items).length + trailer < 2 ^ 63

def Tape.bytes {enc : Encoding} (t : Tape enc) : Bytes := render t.items ++ Bytes.zeros t.trailer

end Ratarmount.Tar
