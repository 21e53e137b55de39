import Mathlib.Data.Char
import Mathlib.Data.List.Lex
import Mathlib.Data.List.Sort
import Ratarmount.MountSource

/-!
# The layers of an OCI image

`OciImageMountSource`, a union of layers from bottom to top with whiteouts and
opaque markers, and the image that the layers stand for.
-/

namespace Ratarmount.Oci

open Mount
open scoped Str

variable {ι : Type}

def whiteoutPrefix : Str := ".wh.".toList

def opaqueWhiteout : Str := ".wh..wh..opq".toList

def isWhiteoutName (name : Str) : Bool := whiteoutPrefix.isPrefixOf name

def whiteoutTarget (name : Str) : Option Str :=
  if name = opaqueWhiteout then none
  else if isWhiteoutName name then
    let orig := name.drop whiteoutPrefix.length
    if orig ≠ [] ∧ orig ≠ "..wh..opq".toList then some orig else none
  else none

/-- An entry and the layer that it comes from; the root comes from none. -/
structure Hit (ι : Type) where
  layer : Option ℕ
  info : FileInfo ι

inductive Walk (ι : Type)
  | found (fi : FileInfo ι)
  | hidden
  | miss

def hasMarker (layer : MountSource ι) (dir : Path) (marker : Str) : Bool := (layer.lookup (dir ++ [marker]) 0).isSome

def walkLayer (layer : MountSource ι) (fileVersion : ℤ) : Path → List Str → Walk ι
  | _, [] => .miss
  | dir, part :: parts =>
    let hasWh := hasMarker layer dir (whiteoutPrefix ++ part)
    if parts = [] then
      match layer.lookup (dir ++ [part]) fileVersion with
      | some fi => .found fi
      | none => if hasWh || hasMarker layer dir opaqueWhiteout then .hidden else .miss
    else
      match layer.lookup (dir ++ [part]) 0 with
      | some fi => if isDirMode fi.mode then walkLayer layer fileVersion (dir ++ [part]) parts else .hidden
      | none => if hasWh || hasMarker layer dir opaqueWhiteout then .hidden else .miss

def topDown (layers : List (MountSource ι)) : List (MountSource ι × ℕ) := layers.zipIdx.reverse

def firstFound (walk : MountSource ι → Walk ι) : List (MountSource ι × ℕ) → Option (Hit ι)
  | [] => none
  | (layer,li) :: rest =>
    match walk layer with
    | .found fi => some { layer := some li, info := fi }
    | .hidden => none
    | .miss => firstFound walk rest

def lookup (layers : List (MountSource ι)) (root : FileInfo ι) (path : Str) (fileVersion : ℤ) : Option (Hit ι) :=
  let parts := components path
  if parts = [] then some { layer := none, info := root }
  else if parts.any isWhiteoutName then none
  else firstFound (fun layer => walkLayer layer fileVersion [] parts) (topDown layers)

/-- The entries of one layer added to those of the layers above it; `none` is a listed name that the layer turns
out not to have. -/
def addEntries {β : Type} (hidden : List Str) (map : List (Str × β)) (entries : List (Str × Option β)) :
    List (Str × β) :=
  entries.foldl (fun map e =>
    if isWhiteoutName e.1 ∨ e.1 ∈ hidden ∨ e.1 ∈ map.map Prod.fst then map
    else
      match e.2 with
      | some b => map ++ [(e.1,b)]
      | none => map) map

/-- The loop of `overlay_list` and `overlay_list_dirents`, over the layers from the top. -/
def overlayLoop {β : Type} (entriesOf : MountSource ι → ℕ → Path → Option (List (Str × Option β))) (path : Path) :
    List (MountSource ι × ℕ) → List (Str × β) → List Str → Bool → Option (List (Str × β))
  | [], map, _, any => if any then some map else none
  | (layer,li) :: rest, map, hidden, any =>
    if path ≠ [] ∧ ((layer.lookup path 0).map (fun fi => isDirMode fi.mode)) = some false then
      if any then some map else none
    else
      match entriesOf layer li path with
      | none => overlayLoop entriesOf path rest map hidden any
      | some entries =>
        let map := addEntries hidden map entries
        if opaqueWhiteout ∈ entries.map Prod.fst then some map
        else overlayLoop entriesOf path rest map (hidden ++ entries.filterMap (fun e => whiteoutTarget e.1)) true

/-- The entries of one layer for `overlay_list`, tagged with it; names without an entry are looked up. -/
def infosOf (layer : MountSource ι) (li : ℕ) (path : Path) : Option (List (Str × Option (Hit ι))) :=
  (layer.list path).map fun
    | .infos m => m.map (fun e => (e.1,some { layer := some li, info := e.2 }))
    | .names names => names.map (fun n => (n,(layer.lookup (path ++ [n]) 0).map (fun fi => { layer := some li, info := fi })))

def direntsOf (layer : MountSource ι) (_ : ℕ) (path : Path) : Option (List (Str × Option Dirent)) :=
  (layer.listDirents path).map (fun dents => dents.map (fun d => (d.name,some d)))

def inNameOrder {β : Type} (map : List (Str × β)) : List (Str × β) := map.insertionSort (fun a b => a.1 ≤ b.1)

def overlayList (layers : List (MountSource ι)) (path : Str) : Option (List (Str × Hit ι)) :=
  (overlayLoop infosOf (components path) (topDown layers) [] [] false).map inNameOrder

def overlayListDirents (layers : List (MountSource ι)) (path : Str) : Option (List Dirent) :=
  (overlayLoop direntsOf (components path) (topDown layers) [] [] false).map (fun m => (inNameOrder m).map Prod.snd)

/-! ## The image -/

def Visible (p : Path) : Prop := ∀ c ∈ p, isWhiteoutName c = false

/-- The layer whites `p` out, or a directory above it. -/
def WhitesOut (layer : MountSource ι) (p : Path) : Prop :=
  ∃ q c r, p = q ++ c :: r ∧ hasMarker layer q (whiteoutPrefix ++ c) = true

/-- The layer marks a directory above `p` opaque. -/
def BelowOpaque (layer : MountSource ι) (p : Path) : Prop :=
  ∃ q r, p = q ++ r ∧ r ≠ [] ∧ hasMarker layer q opaqueWhiteout = true

/-- The layer has something else than a directory above `p`. -/
def BelowNonDirectory (layer : MountSource ι) (p : Path) : Prop :=
  ∃ q r fi, p = q ++ r ∧ q ≠ [] ∧ r ≠ [] ∧ layer.lookup q 0 = some fi ∧ isDirMode fi.mode = false

def Removes (layer : MountSource ι) (p : Path) : Prop :=
  WhitesOut layer p ∨ BelowOpaque layer p ∨ BelowNonDirectory layer p

open Classical in
/-- A layer on top of an image: what it removes, and then what it adds. -/
noncomputable def applyLayer (image : Path → Option (Hit ι)) (layer : MountSource ι × ℕ) (p : Path) : Option (Hit ι) :=
  match layer.1.lookup p 0 with
  | some fi => if Visible p then some { layer := some layer.2, info := fi } else none
  | none => if Removes layer.1 p then none else image p

noncomputable def image (layers : List (MountSource ι)) : Path → Option (Hit ι) :=
  layers.zipIdx.foldl applyLayer (fun _ => none)

end Ratarmount.Oci
