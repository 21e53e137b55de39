import Mathlib.Data.Nat.Basic
import Mathlib.Logic.Function.Basic

/-!
# NFS reads and what changes a file under them

The reader table, the inode table and the calls of one export, each call cut into its
lock sections and its calls of the source. Every step has a time. A `FileInfo` and a
reader keep the time they were made at, and the history says when a file was changed by
a call that has returned and when a live commit advanced the generation. An overlay
call that fails may have changed the file. Names with a NUL byte, which stand for
replaced ids, are in no archive.
-/

namespace Ratarmount.Nfs

open Function

abbrev FileId := ℕ

structure Path where
  stale : Option FileId
  names : List String
  deriving DecidableEq

def Path.root : Path := ⟨none,[]⟩

def Path.join (parent : Path) (name : String) : Path := { parent with names := parent.names ++ [name] }

structure Entry where
  size : ℕ
  isDir : Bool
  overlayTagged : Bool
  deriving DecidableEq

structure FileInfo extends Entry where
  lookedUp : ℕ
  deriving DecidableEq

structure Slot where
  fi : FileInfo
  openedAt : ℕ
  deriving DecidableEq

/-- What is served through the slot is from this time on. -/
def Slot.since (slot : Slot) : ℕ := min slot.fi.lookedUp slot.openedAt

structure Inode where
  path : Path
  fileInfo : Option FileInfo

/-- Where a READ stands. The first sweep is that of `read_member`, the second that of `get_or_open`. -/
inductive ReadAt where
  | loadGeneration (path : Path) (second : Bool)
  | fetchMax (path : Path) (second : Bool) (generation : ℕ)
  | clearSlots (path : Path) (second : Bool)
  | clearInfos (path : Path) (second : Bool)
  | check (path : Path)
  | checkLookup (path : Path)
  | slot
  | path
  | cached (path : Path)
  | clearTagged (path : Path)
  | lookup (path : Path)
  | store (fi : FileInfo)
  | open (fi : FileInfo)
  | insert (slot : Slot)
  | fill (slot : Slot)
  deriving DecidableEq

/-- Where a WRITE, SETATTR, REMOVE or RENAME stands. `changed` is the time of its change, `dest` the id it replaced. -/
inductive ChangeAt where
  | writeOpen (id : FileId) (path : Path)
  | writeData (id : FileId) (path : Path)
  | setAttributes (id : FileId) (path : Path)
  | removeId (path : Path)
  | removeKind (id : FileId) (path : Path)
  | removeEntry (id : FileId) (path : Path)
  | renameTo (source : Path) (toDir : FileId) (name : String)
  | renameId (source target : Path)
  | renameDest (id : FileId) (source target : Path)
  | dropDest (id dest : FileId) (source target : Path)
  | clearDest (id dest : FileId) (source target : Path)
  | renameEntry (id : FileId) (source target : Path)
  | rebind (id : FileId) (target : Path) (changed : ℕ)
  | invalidate (id : FileId) (dest : Option FileId) (changed : ℕ)
  | clearInfo (id : FileId) (dest : Option FileId) (changed : ℕ)
  deriving DecidableEq

/-- When a READ started: the times of the last change of the file whose call had returned, and of the last commit. -/
structure Due where
  change : ℕ
  commit : ℕ
  deriving DecidableEq

inductive Call where
  | read (id : FileId) (due : Due) (at_ : ReadAt)
  | change (at_ : ChangeAt)
  deriving DecidableEq

/-- Times of the last changes: made, made with the reader dropped afterwards, and made by a call that has returned; of the
last replacement by a returned RENAME, and of the last commit. -/
structure History where
  changed : FileId → ℕ
  dropped : FileId → ℕ
  returned : FileId → ℕ
  replaced : FileId → ℕ
  committed : ℕ

structure Export where
  overlay : Bool
  files : Path → Option Entry
  generation : ℕ
  slots : FileId → Option Slot
  sourceGeneration : ℕ
  inodes : FileId → Option Inode
  pathToId : Path → Option FileId
  nextId : FileId
  calls : ℕ → Option Call
  clock : ℕ
  history : History

inductive Request where
  | read (id : FileId)
  | write (id : FileId)
  | setattr (id : FileId) (any : Bool)
  | remove (dir : FileId) (name : String)
  | rename (fromDir : FileId) (fromName : String) (toDir : FileId) (toName : String)

/-- What the step does not decide itself: whether the source's call succeeds, whether a failed one has changed the file, what
a change leaves, and what the idle and the capacity evictions keep. -/
structure Choice where
  ok : Bool
  touched : Bool
  entry : Entry
  keepIdle : FileId → Bool
  keep : FileId → Bool

inductive Event where
  | start (call : ℕ) (request : Request)
  | step (call : ℕ) (choice : Choice)
  /-- A live commit. -/
  | commit (files : Path → Option Entry)

namespace Export

variable (s : Export)

def pathForId (id : FileId) : Option Path := (s.inodes id).map Inode.path

def lookup (path : Path) : Option FileInfo :=
  if path.stale.isSome then none else (s.files path).map fun entry => { entry with lookedUp := s.clock }

def rootFileInfo : FileInfo := { size := 0, isDir := true, overlayTagged := false, lookedUp := s.clock }

def cachedLookupFi (id : FileId) : Option FileInfo := (s.inodes id).bind Inode.fileInfo

def setInfo (id : FileId) (fi : Option FileInfo) : Export :=
  match s.inodes id with
  | none => s
  | some inode => { s with inodes := update s.inodes id (some { inode with fileInfo := fi }) }

/-- The root keeps its `FileInfo`, other inodes of an overlay none. -/
def storeLookupFi (id : FileId) (fi : FileInfo) : Export :=
  if s.overlay = true ∧ id ≠ 1 then s.setInfo id none else s.setInfo id (some fi)

def clearLookupFi (id : FileId) : Export := s.setInfo id none

def clearAllLookupFi : Export :=
  { s with inodes := fun id => (s.inodes id).map fun inode => { inode with fileInfo := none } }

def idForPath (path : Path) : FileId × Export :=
  match s.pathToId path with
  | some id => (id,s)
  | none => (s.nextId,
      { s with
        nextId := s.nextId + 1
        pathToId := update s.pathToId path (some s.nextId)
        inodes := update s.inodes s.nextId (some ⟨path,none⟩) })

/-- The id that had the path goes to a stale name. -/
def rebindPath (id : FileId) (path : Path) : Export :=
  let s :=
    match s.pathToId path with
    | some dest =>
      if dest = id then s
      else
        { s with
          pathToId := update s.pathToId path none
          inodes := update s.inodes dest ((s.inodes dest).map fun _ => ⟨⟨some dest,[]⟩,none⟩) }
    | none => s
  let s :=
    match s.inodes id with
    | some inode =>
      { s with
        pathToId := update s.pathToId inode.path none
        inodes := update s.inodes id (some ⟨path,none⟩) }
    | none => s
  { s with pathToId := update s.pathToId path (some id) }

def dropSlot (id : FileId) : Export := { s with slots := update s.slots id none }

def evict (keep : FileId → Bool) : Export := { s with slots := fun id => if keep id = true then s.slots id else none }

def goto (call : ℕ) (at_ : Call) : Export := { s with calls := update s.calls call (some at_) }

def finish (call : ℕ) : Export := { s with calls := update s.calls call none }

def change (id : FileId) (files : Path → Option Entry) : Export :=
  { s with files := files, history := { s.history with changed := update s.history.changed id s.clock } }

/-- The reader goes, with what was read through it before the change. -/
def invalidate (id : FileId) (changed : ℕ) : Export :=
  { s.dropSlot id with history := { s.history with
      dropped := update s.history.dropped id (max (s.history.dropped id) changed) } }

def returns (id : FileId) (dest : Option FileId) (changed : ℕ) : Export :=
  { s with history := { s.history with
      returned := update s.history.returned id (max (s.history.returned id) changed)
      replaced := match dest with
        | some dest => update s.history.replaced dest changed
        | none => s.history.replaced } }

def moveFiles (source target : Path) : Path → Option Entry := fun path =>
  if path.stale = target.stale ∧ target.names <+: path.names then
    s.files { source with names := source.names ++ path.names.drop target.names.length }
  else if path.stale = source.stale ∧ source.names <+: path.names then none
  else s.files path

def due (id : FileId) : Due := ⟨max (s.history.returned id) (s.history.replaced id),s.history.committed⟩

def start (call : ℕ) : Request → Export
  | .read id =>
    match s.pathForId id with
    | some path => s.goto call (.read id (s.due id) (.loadGeneration path false))
    | none => s
  | .write id =>
    match s.overlay, s.pathForId id with
    | true, some path => s.goto call (.change (.writeOpen id path))
    | _, _ => s
  | .setattr id any =>
    match s.overlay, s.pathForId id with
    | true, some path => if any = true then s.goto call (.change (.setAttributes id path)) else s
    | _, _ => s
  | .remove dir name =>
    match s.overlay, s.pathForId dir with
    | true, some parent => s.goto call (.change (.removeId (parent.join name)))
    | _, _ => s
  | .rename fromDir fromName toDir toName =>
    match s.overlay, s.pathForId fromDir with
    | true, some parent => s.goto call (.change (.renameTo (parent.join fromName) toDir toName))
    | _, _ => s

def swept (path : Path) (second : Bool) : ReadAt := if second = true then .slot else .check path

/-- The READ of a file that is no directory goes on with `get_or_open`. -/
def checked (call : ℕ) (id : FileId) (due : Due) (path : Path) : Option FileInfo → Export
  | none => s.finish call
  | some fi =>
    if fi.isDir = true then s.finish call else s.goto call (.read id due (.loadGeneration path true))

def stepRead (call : ℕ) (choice : Choice) (id : FileId) (due : Due) : ReadAt → Export
  | .loadGeneration path second => s.goto call (.read id due (.fetchMax path second s.generation))
  | .fetchMax path second generation =>
    let next := if s.sourceGeneration < generation then .clearSlots path second else swept path second
    { s with sourceGeneration := max s.sourceGeneration generation }.goto call (.read id due next)
  | .clearSlots path second => { s with slots := fun _ => none }.goto call (.read id due (.clearInfos path second))
  | .clearInfos path second => s.clearAllLookupFi.goto call (.read id due (swept path second))
  | .check path =>
    if path = Path.root then s.checked call id due path (some s.rootFileInfo)
    else if s.overlay = true then s.checked call id due path (s.lookup path)
    else
      match s.cachedLookupFi id with
      | some fi => s.checked call id due path (some fi)
      | none => s.goto call (.read id due (.checkLookup path))
  | .checkLookup path => s.checked call id due path (s.lookup path)
  | .slot =>
    match s.slots id with
    | some slot =>
      if slot.fi.overlayTagged = false then s.goto call (.read id due (.fill slot))
      else (s.dropSlot id).goto call (.read id due .path)
    | none => s.goto call (.read id due .path)
  | .path =>
    match s.pathForId id with
    | none => s.finish call
    | some path =>
      if path = Path.root then s.goto call (.read id due (.store s.rootFileInfo))
      else s.goto call (.read id due (if s.overlay = true then .lookup path else .cached path))
  | .cached path =>
    match s.cachedLookupFi id with
    | some fi => s.goto call (.read id due (if fi.overlayTagged = true then .clearTagged path else .store fi))
    | none => s.goto call (.read id due (.lookup path))
  | .clearTagged path => (s.clearLookupFi id).goto call (.read id due (.lookup path))
  | .lookup path =>
    match s.lookup path with
    | some fi => s.goto call (.read id due (.store fi))
    | none => s.finish call
  | .store fi =>
    -- the empty file is served without a reader
    (s.storeLookupFi id fi).goto call (.read id due (if fi.size = 0 then .fill ⟨fi,s.clock⟩ else .open fi))
  | .open fi => if choice.ok = true then s.goto call (.read id due (.insert ⟨fi,s.clock⟩)) else s.finish call
  | .insert slot =>
    let s := s.evict choice.keepIdle
    match s.slots id with
    | some other => s.goto call (.read id due (.fill other))
    | none =>
      ({ s with slots := update s.slots id (some slot) }.evict choice.keep).goto call (.read id due (.fill slot))
  | .fill _ => s.finish call

def overlayCall (call : ℕ) (choice : Choice) (id : FileId) (files : Path → Option Entry) (next : ChangeAt) : Export :=
  if choice.ok = true then (s.change id files).goto call (.change next)
  else if choice.touched = true then ((s.change id files).returns id none s.clock).finish call
  else s.finish call

def stepChange (call : ℕ) (choice : Choice) : ChangeAt → Export
  | .writeOpen id path =>
    s.overlayCall call choice id (update s.files path (some choice.entry)) (.writeData id path)
  | .writeData id path =>
    s.overlayCall call choice id (update s.files path (some choice.entry)) (.invalidate id none s.clock)
  | .setAttributes id path =>
    s.overlayCall call choice id (update s.files path (some choice.entry)) (.invalidate id none s.clock)
  | .removeId path =>
    let (id,s) := s.idForPath path
    s.goto call (.change (.removeKind id path))
  | .removeKind id path => s.goto call (.change (.removeEntry id path))
  | .removeEntry id path =>
    s.overlayCall call choice id (update s.files path none) (.invalidate id none s.clock)
  | .renameTo source toDir name =>
    match s.pathForId toDir with
    | some parent => s.goto call (.change (.renameId source (parent.join name)))
    | none => s.finish call
  | .renameId source target =>
    let (id,s) := s.idForPath source
    s.goto call (.change (.renameDest id source target))
  | .renameDest id source target =>
    match s.pathToId target with
    | some dest => s.goto call (.change (.dropDest id dest source target))
    | none => s.goto call (.change (.renameEntry id source target))
  | .dropDest id dest source target => (s.dropSlot dest).goto call (.change (.clearDest id dest source target))
  | .clearDest id dest source target => (s.clearLookupFi dest).goto call (.change (.renameEntry id source target))
  | .renameEntry id source target =>
    s.overlayCall call choice id (s.moveFiles source target) (.rebind id target s.clock)
  | .rebind id target changed =>
    let dest := (s.pathToId target).filter (· ≠ id)
    (s.rebindPath id target).goto call (.change (.invalidate id dest changed))
  | .invalidate id dest changed => (s.invalidate id changed).goto call (.change (.clearInfo id dest changed))
  | .clearInfo id dest changed => ((s.clearLookupFi id).returns id dest changed).finish call

def tick : Export := { s with clock := s.clock + 1 }

/-- One event. A call that is not running, or is running already, does nothing. -/
def next : Event → Export
  | .start call request => ((if s.calls call = none then s.start call request else s)).tick
  | .step call choice =>
    (match s.calls call with
    | some (.read id due at_) => s.stepRead call choice id due at_
    | some (.change at_) => s.stepChange call choice at_
    | none => s).tick
  | .commit files =>
    { s with files := files, generation := s.generation + 1, history := { s.history with committed := s.clock } }.tick

def run (events : List Event) : Export := events.foldl next s

end Export

/-- An export before its first call: ids of some paths, no reader, no change. -/
structure Fresh (s : Export) : Prop where
  calls : ∀ call, s.calls call = none
  slots : ∀ id, s.slots id = none
  sourceGeneration : s.sourceGeneration ≤ s.generation
  ids : ∀ path id, s.pathToId path = some id → s.pathForId id = some path
  known : ∀ id, (s.inodes id).isSome = true → id < s.nextId
  clock : 0 < s.clock
  history : s.history = ⟨fun _ => 0,fun _ => 0,fun _ => 0,fun _ => 0,0⟩

/-- No READ serves through a reader or a `FileInfo` from before a change or a commit that it started after. -/
def NeverStale (s : Export) : Prop :=
  ∀ call id due slot, s.calls call = some (.read id due (.fill slot)) →
    due.change ≤ slot.since ∧ due.commit ≤ slot.since

section Careful

/-- What the READ will still put into a table. -/
def ReadAt.inHand : ReadAt → Option FileInfo
  | .store fi | .open fi => some fi
  | .insert new => some new.fi
  | _ => none

/-- The generation is published and the tables are not yet cleared. -/
def ReadAt.sweeping : ReadAt → Bool
  | .clearSlots _ _ | .clearInfos _ _ => true
  | _ => false

/-- The file that the next overlay call changes. -/
def ChangeAt.changes : ChangeAt → Option FileId
  | .writeOpen id _ | .writeData id _ | .setAttributes id _ | .removeEntry id _ | .renameEntry id _ _ => some id
  | _ => none

/-- The file that a RENAME will give its new path. -/
def ChangeAt.moving : ChangeAt → Option FileId
  | .renameDest id _ _ | .dropDest id _ _ _ | .clearDest id _ _ _ | .renameEntry id _ _ | .rebind id _ _ => some id
  | _ => none

/-- No change of a file meets a READ that has it in hand, and a failing one changes nothing. No RENAME replaces a file that
another one is moving. No commit meets a READ, and no READ goes on while another one is sweeping. -/
def Careful (s : Export) : Event → Prop
  | .start _ _ => True
  | .commit _ => ∀ call id due at_, s.calls call ≠ some (.read id due at_)
  | .step call choice =>
    match s.calls call with
    | none => True
    | some (.read _ _ _) =>
      ∀ other id due at_, other ≠ call → s.calls other = some (.read id due at_) → at_.sweeping = false
    | some (.change at_) =>
      (∀ id, at_.changes = some id → (choice.ok = false → choice.touched = false) ∧
        ∀ other due r, s.calls other = some (.read id due r) → r.inHand = none) ∧
      ∀ id target changed dest, at_ = .rebind id target changed → s.pathToId target = some dest → dest ≠ id →
        ∀ other at', s.calls other = some (.change at') → at'.moving ≠ some dest

def CarefulRun (s : Export) : List Event → Prop
  | [] => True
  | e :: events => Careful s e ∧ CarefulRun (s.next e) events

end Careful

section Steps

/-- What a step of a READ does to the tables, and where the READ goes on. -/
inductive ReadStep (s : Export) (id : FileId) : ReadAt → Export → Option ReadAt → Prop
  | ends {at_ : ReadAt} (h : at_.sweeping = false) : ReadStep s id at_ s none
  | load (path : Path) (second : Bool) :
      ReadStep s id (.loadGeneration path second) s (some (.fetchMax path second s.generation))
  | seen (path : Path) (second : Bool) {generation : ℕ} (h : ¬ s.sourceGeneration < generation) :
      ReadStep s id (.fetchMax path second generation) s (some (Export.swept path second))
  | publish (path : Path) (second : Bool) {generation : ℕ} (h : s.sourceGeneration < generation) :
      ReadStep s id (.fetchMax path second generation) { s with sourceGeneration := generation } (some (.clearSlots path second))
  | clearSlots (path : Path) (second : Bool) :
      ReadStep s id (.clearSlots path second) { s with slots := fun _ => none } (some (.clearInfos path second))
  | clearInfos (path : Path) (second : Bool) :
      ReadStep s id (.clearInfos path second) s.clearAllLookupFi (some (Export.swept path second))
  | check {path : Path} (h : s.overlay = true → path.stale = none) :
      ReadStep s id (.check path) s (some (.loadGeneration path true))
  | uncached (path : Path) (h : s.overlay = false) : ReadStep s id (.check path) s (some (.checkLookup path))
  | checkLookup (path : Path) : ReadStep s id (.checkLookup path) s (some (.loadGeneration path true))
  | reader {slot : Slot} (h : s.slots id = some slot) : ReadStep s id .slot s (some (.fill slot))
  | slot {slots : FileId → Option Slot} (h : ∀ id' slot, slots id' = some slot → s.slots id' = some slot) :
      ReadStep s id .slot { s with slots := slots } (some .path)
  | root : ReadStep s id .path s (some (.store s.rootFileInfo))
  | path (path : Path) : ReadStep s id .path s (some (.lookup path))
  | pathCached (path : Path) (h : s.overlay = false) : ReadStep s id .path s (some (.cached path))
  | cached (path : Path) {fi : FileInfo} (h : s.cachedLookupFi id = some fi) : ReadStep s id (.cached path) s (some (.store fi))
  | tagged (path : Path) : ReadStep s id (.cached path) s (some (.clearTagged path))
  | unknown (path : Path) : ReadStep s id (.cached path) s (some (.lookup path))
  | clearTagged (path : Path) : ReadStep s id (.clearTagged path) (s.setInfo id none) (some (.lookup path))
  | lookup (path : Path) {fi : FileInfo} (h : fi.lookedUp = s.clock) : ReadStep s id (.lookup path) s (some (.store fi))
  | store {fi : FileInfo} {info : Option FileInfo} {next : ReadAt} (h : ∀ x, info = some x → x = fi)
      (hnext : next = .fill ⟨fi,s.clock⟩ ∨ next = .open fi) : ReadStep s id (.store fi) (s.setInfo id info) (some next)
  | open (fi : FileInfo) : ReadStep s id (.open fi) s (some (.insert ⟨fi,s.clock⟩))
  | insert {new slot : Slot} {slots : FileId → Option Slot}
      (h : ∀ id' slot, slots id' = some slot → s.slots id' = some slot ∨ id' = id ∧ slot = new)
      (hslot : s.slots id = some slot ∨ slot = new) : ReadStep s id (.insert new) { s with slots := slots } (some (.fill slot))

def ChangeAt.Begins : ChangeAt → Prop
  | .writeOpen _ _ | .setAttributes _ _ => True
  | .removeId path | .renameTo path _ _ => path.names ≠ []
  | _ => False

variable {s : Export} {call : ℕ} {id : FileId} {due : Due} {path : Path}

theorem update_cases {α β : Type} [DecidableEq α] {f : α → Option β} {a b : α} {v : Option β} {x : β}
    (h : update f a v b=some x) : (b=a ∧ v=some x) ∨ f b=some x := by
  by_cases hb : b=a
  · subst hb
    rw [update_self] at h
    exact .inl ⟨rfl,h⟩
  · rw [update_of_ne hb] at h
    exact .inr h

theorem lookup_eq_some {fi : FileInfo} (h : s.lookup path=some fi) : path.stale=none ∧ fi.lookedUp=s.clock := by
  rw [Export.lookup] at h
  split_ifs at h with hstale
  obtain ⟨entry,-,rfl⟩:=Option.map_eq_some_iff.mp h
  exact ⟨Option.not_isSome_iff_eq_none.mp hstale,rfl⟩

theorem slots_evict {keep : FileId → Bool} {slot : Slot} (h : (s.evict keep).slots id=some slot) : s.slots id=some slot := by
  change (if keep id=true then s.slots id else none)=some slot at h
  split_ifs at h
  exact h

def ReadTo (s : Export) (call : ℕ) (id : FileId) (due : Due) (at_ : ReadAt) (next : Export) : Prop :=
  ∃ t new, ReadStep s id at_ t new ∧ next = { t with calls := update t.calls call (new.map (Call.read id due)) }

theorem readTo_checked {at_ : ReadAt} {fi : Option FileInfo} (hsweeping : at_.sweeping=false)
    (h : ∀x,fi=some x → ReadStep s id at_ s (some (.loadGeneration path true))) :
    ReadTo s call id due at_ (s.checked call id due path fi) := by
  cases fi with
  | none => exact ⟨_,_,.ends hsweeping,rfl⟩
  | some x =>
    rw [Export.checked]
    split_ifs
    · exact ⟨_,_,.ends hsweeping,rfl⟩
    · exact ⟨_,_,h x rfl,rfl⟩

theorem readTo_stepRead (s : Export) (call : ℕ) (choice : Choice) (id : FileId) (due : Due) (at_ : ReadAt) :
    ReadTo s call id due at_ (s.stepRead call choice id due at_) := by
  cases at_ with
  | loadGeneration path second => exact ⟨_,_,.load path second,rfl⟩
  | fetchMax path second generation =>
    rw [Export.stepRead]
    by_cases hlt : s.sourceGeneration<generation
    · rw [if_pos hlt,Nat.max_eq_right (Nat.le_of_lt hlt)]
      exact ⟨_,_,.publish path second hlt,rfl⟩
    · rw [if_neg hlt,Nat.max_eq_left (Nat.le_of_not_lt hlt)]
      exact ⟨_,_,.seen path second hlt,rfl⟩
  | clearSlots path second => exact ⟨_,_,.clearSlots path second,rfl⟩
  | clearInfos path second => exact ⟨_,_,.clearInfos path second,rfl⟩
  | check path =>
    rw [Export.stepRead]
    split_ifs with hroot hoverlay
    · exact ⟨_,_,.ends rfl,rfl⟩
    · exact readTo_checked rfl fun x hx => .check fun _ => (lookup_eq_some hx).1
    · split
      · exact readTo_checked rfl fun x _ => .check fun htrue => absurd htrue hoverlay
      · exact ⟨_,_,.uncached path (Bool.eq_false_iff.mpr hoverlay),rfl⟩
  | checkLookup path => exact readTo_checked rfl fun _ _ => .checkLookup path
  | slot =>
    rw [Export.stepRead]
    split
    · next slot hslot =>
      split_ifs
      · exact ⟨_,_,.reader hslot,rfl⟩
      · refine ⟨_,_,.slot ?_,rfl⟩
        intro id' slot' hslot'
        rcases update_cases hslot' with ⟨-,hnone⟩ | hold
        · cases hnone
        · exact hold
    · exact ⟨_,_,.slot fun _ _ h => h,rfl⟩
  | path =>
    rw [Export.stepRead]
    split
    · exact ⟨_,_,.ends rfl,rfl⟩
    · split_ifs with hroot hoverlay
      · exact ⟨_,_,.root,rfl⟩
      · exact ⟨_,_,.path _,rfl⟩
      · exact ⟨_,_,.pathCached _ (Bool.eq_false_iff.mpr hoverlay),rfl⟩
  | cached path =>
    rw [Export.stepRead]
    split
    · next fi hfi =>
      split_ifs
      · exact ⟨_,_,.tagged path,rfl⟩
      · exact ⟨_,_,.cached path hfi,rfl⟩
    · exact ⟨_,_,.unknown path,rfl⟩
  | clearTagged path => exact ⟨_,_,.clearTagged path,rfl⟩
  | lookup path =>
    rw [Export.stepRead]
    split
    · next fi hfi => exact ⟨_,_,.lookup path (lookup_eq_some hfi).2,rfl⟩
    · exact ⟨_,_,.ends rfl,rfl⟩
  | store fi =>
    have hnext:=ite_eq_or_eq (fi.size=0) (ReadAt.fill ⟨fi,s.clock⟩) (.open fi)
    rw [Export.stepRead,Export.storeLookupFi]
    by_cases hnone : s.overlay=true ∧ id≠1
    · rw [if_pos hnone]
      exact ⟨_,_,.store (show ∀x,none=some x → x=fi from nofun) hnext,rfl⟩
    · rw [if_neg hnone]
      exact ⟨_,_,.store (fun x hx => (Option.some.inj hx).symm) hnext,rfl⟩
  | «open» fi =>
    rw [Export.stepRead]
    split_ifs
    · exact ⟨_,_,.open fi,rfl⟩
    · exact ⟨_,_,.ends rfl,rfl⟩
  | insert new =>
    rw [Export.stepRead]
    split
    · next other hother => exact ⟨_,_,.insert (fun id' slot h => .inl (slots_evict h)) (.inl (slots_evict hother)),rfl⟩
    · refine ⟨_,_,.insert ?_ (.inr rfl),rfl⟩
      intro id' slot hslot
      rcases update_cases (slots_evict hslot) with ⟨heq,hnew⟩ | hold
      · exact .inr ⟨heq,(Option.some.inj hnew).symm⟩
      · exact .inl (slots_evict hold)
  | fill slot => exact ⟨_,_,.ends rfl,rfl⟩

/-- A request starts a READ or a change, or nothing. -/
theorem start_cases (s : Export) (call : ℕ) (request : Request) : s.start call request=s ∨
    (∃id path,s.pathForId id=some path ∧
      s.start call request=s.goto call (.read id (s.due id) (.loadGeneration path false))) ∨
    ∃at_,s.overlay=true ∧ s.start call request=s.goto call (.change at_) ∧ at_.Begins := by
  have hjoin : ∀(path : Path) (name : String),(path.join name).names≠[] :=
    fun _ _ => List.append_ne_nil_of_right_ne_nil _ (List.cons_ne_nil _ _)
  cases request with
  | read id =>
    rw [Export.start]
    split
    · next path hpath => exact .inr (.inl ⟨id,path,hpath,rfl⟩)
    · exact .inl rfl
  | write id =>
    rw [Export.start]
    split
    · next hoverlay _ => exact .inr (.inr ⟨_,hoverlay,rfl,trivial⟩)
    · exact .inl rfl
  | setattr id any =>
    rw [Export.start]
    split
    · next hoverlay _ =>
      split_ifs
      · exact .inr (.inr ⟨_,hoverlay,rfl,trivial⟩)
      · exact .inl rfl
    · exact .inl rfl
  | remove _ _ | rename _ _ _ _ =>
    rw [Export.start]
    split
    · next hoverlay _ => exact .inr (.inr ⟨_,hoverlay,rfl,hjoin _ _⟩)
    · exact .inl rfl

end Steps

end Ratarmount.Nfs
