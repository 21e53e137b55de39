import Ratarmount.NfsReads

/-!
# File ids of the 9P and SMB exports

The path and id maps that both exports share, over the objects of the overlay. An
object keeps its number when it is renamed. Whether a call of the overlay succeeds is
chosen; one that fails changes no object, and no directory is renamed. Names with a
NUL byte, which stand for replaced ids, are in no overlay.
-/

namespace Ratarmount.ExportIds

open Function Nfs

structure InodeTable where
  inodes : ℕ → Option Path
  pathToId : Path → Option ℕ
  nextId : ℕ

namespace InodeTable

variable (t : InodeTable)

def idForPath (path : Path) : ℕ × InodeTable :=
  match t.pathToId path with
  | some id => (id,t)
  | none => (t.nextId,⟨update t.inodes t.nextId (some path),update t.pathToId path (some t.nextId),t.nextId + 1⟩)

/-- The id of a replaced object keeps a name that no object has. -/
def dropDest (id : ℕ) (path : Path) : InodeTable :=
  match t.pathToId path with
  | some dest =>
    if dest = id then t
    else { t with inodes := update t.inodes dest (some ⟨some dest,[]⟩), pathToId := update t.pathToId path none }
  | none => t

def rebindPath (id : ℕ) (path : Path) : InodeTable :=
  let t := t.dropDest id path
  match t.inodes id with
  | some old => { t with inodes := update t.inodes id (some path), pathToId := update (update t.pathToId old none) path (some id) }
  | none => { t with pathToId := update t.pathToId path (some id) }

/-- The two maps are inverse, but for the names of replaced ids. -/
structure Ok : Prop where
  inode : ∀ {path id}, t.pathToId path = some id → t.inodes id = some path
  path : ∀ {path id}, t.inodes id = some path → path.stale = none → t.pathToId path = some id
  bound : ∀ {path id}, t.inodes id = some path → id < t.nextId

variable {t}

theorem Ok.idForPath (h : t.Ok) (path : Path) :
    (t.idForPath path).2.Ok ∧ (t.idForPath path).2.pathToId path=some (t.idForPath path).1 ∧
      ∀id p,t.inodes id=some p→(t.idForPath path).2.inodes id=some p := by
  obtain ⟨hi,hp,hb⟩:=h
  unfold InodeTable.idForPath
  cases hid : t.pathToId path with
  | some id => exact ⟨⟨hi,hp,hb⟩,hid,fun _ _ h => h⟩
  | none =>
    refine ⟨⟨?_,?_,?_⟩,?_,?_⟩ <;> grind [update_apply]

theorem rebindPath_eq {id : FileId} {old path : Path} (hid : t.inodes id=some old) : t.rebindPath id path = { t with
      inodes := fun i => if i=id then some path else if t.pathToId path=some i then some ⟨some i,[]⟩ else t.inodes i
      pathToId := fun p => if p=path then some id else if p=old then none else t.pathToId p } := by
  unfold rebindPath dropDest
  cases hd : t.pathToId path with
  | none =>
    simp only [hid]
    congr <;> grind [update_apply]
  | some dest =>
    by_cases hne : dest=id
    · simp only [if_pos hne,hid]
      congr <;> grind [update_apply]
    · simp only [if_neg hne,update_of_ne (Ne.symm hne),hid]
      congr <;> grind [update_apply]

theorem Ok.rebindPath {id : FileId} {old path : Path} (h : t.Ok) (hid : t.inodes id=some old) : (t.rebindPath id path).Ok := by
  obtain ⟨hids,hback,hbound⟩:=h
  rw [rebindPath_eq hid]
  constructor <;> grind

end InodeTable

/-- The table and the objects of the overlay by their paths, with the ids that were handed out for them. -/
structure State where
  table : InodeTable
  objects : Path → Option ℕ
  nextObject : ℕ
  issued : List (FileId × ℕ)

/-- A name in a directory, or its parent or itself, as 9P names objects, or a path, as SMB does. -/
inductive Target where
  | child (dir : FileId) (name : String)
  | parent (dir : FileId)
  | node (id : FileId)
  | path (names : List String)

/-- `..` gets its id before it is looked up. -/
def Target.isParent : Target → Bool
  | parent _ => true
  | _ => false

/-- `create` is also that of a directory, `remove` an unlink or a rmdir. The overlay says whether a call succeeds. -/
inductive Call where
  | lookup (target : Target)
  | create (target : Target) (ok : Bool)
  | remove (target : Target) (ok : Bool)
  | rename (source target : Target) (ok : Bool)

/-- The parent of a name without a slash, such as that of a replaced id, is the root. -/
def parentPath (path : Path) : Path := if path.names = [] then .root else { path with names := path.names.dropLast }

namespace State

variable (s : State)

def resolve : Target → Option Path
  | .child dir name => (s.table.inodes dir).map (·.join name)
  | .parent dir => (s.table.inodes dir).map parentPath
  | .node id => s.table.inodes id
  | .path names => some ⟨none,names⟩

def idOf : Target → Path → FileId × InodeTable
  | .node id, _ => (id,s.table)
  | _, path => s.table.idForPath path

def issue (path : Path) (r : FileId × InodeTable) : State :=
  match s.objects path with
  | some o => { s with table := r.2, issued := (r.1,o) :: s.issued }
  | none => { s with table := r.2 }

def add (path : Path) : State :=
  if (s.objects path).isSome then s
  else { s with objects := update s.objects path (some s.nextObject), nextObject := s.nextObject + 1 }

def perform (path : Path) (r : FileId × InodeTable) : Call → State
  | .lookup target => if target.isParent || (s.objects path).isSome then s.issue path r else s
  | .create _ ok => if ok = true ∧ path.stale = none then (s.add path).issue path r else s
  | .remove _ ok => { s with table := r.2, objects := if ok = true then update s.objects path none else s.objects }
  | .rename _ target ok =>
    match s.resolve target with
    | some dest =>
      if ok = true ∧ dest.stale = none ∧ (s.objects path).isSome then
        { s with
          table := r.2.rebindPath r.1 dest
          objects := update (update s.objects path none) dest (s.objects path) }
      else { s with table := r.2 }
    | none => s

end State

def Call.target : Call → Target
  | lookup target | create target _ | remove target _ | rename target _ _ => target

def next (s : State) (c : Call) : State :=
  match s.resolve c.target with
  | some path => s.perform path (s.idOf c.target path) c
  | none => s

/-- An issued id resolves to its object's path, and to no object when that is gone; objects share no id, and the maps are inverse. -/
def Faithful (s : State) : Prop :=
  (∀ id o, (id,o) ∈ s.issued → (∀ p, s.objects p = some o → s.table.inodes id = some p) ∧
    ((∀ p, s.objects p ≠ some o) → ∀ p, s.table.inodes id = some p → s.objects p = none)) ∧
  (∀ id o o' p p', (id,o) ∈ s.issued → (id,o') ∈ s.issued → s.objects p = some o → s.objects p' = some o' → o = o') ∧
  ∀ id p, s.objects p ≠ none → (s.table.pathToId p = some id ↔ s.table.inodes id = some p)

/-- No object is created at a path whose id was issued. -/
def Careful (s : State) : Call → Prop
  | .create target true => ∀ p, s.resolve target = some p → p.stale = none → s.objects p = none →
    ∀ o, ((s.idOf target p).1,o) ∉ s.issued
  | _ => True

structure Inv (s : State) : Prop where
  table : s.table.Ok
  real : ∀ {p o}, s.objects p = some o → p.stale = none
  one : ∀ {p q o}, s.objects p = some o → s.objects q = some o → p = q
  old : ∀ {p o}, s.objects p = some o → o < s.nextObject
  known : ∀ {id o}, (id,o) ∈ s.issued → o < s.nextObject ∧ ∃ p, s.table.inodes id = some p
  live : ∀ {id o p}, (id,o) ∈ s.issued → s.objects p = some o → s.table.inodes id = some p
  means : ∀ {id o p o'}, (id,o) ∈ s.issued → s.table.inodes id = some p → s.objects p = some o' → o' = o

variable {s : State} {p : Path} {r : FileId × InodeTable}

/-- The table of a call knows the path and what was known before. -/
structure Names (t : InodeTable) (p : Path) (r : FileId × InodeTable) : Prop where
  table : r.2.Ok
  path : r.2.inodes r.1 = some p
  ext : ∀ {id q}, t.inodes id = some q → r.2.inodes id = some q

theorem Inv.assign (h : Inv s) (hr : Names s.table p r) : Inv { s with table := r.2 } := by
  obtain ⟨hok,hreal,hone,hold,hknown,hlive,hmeans⟩:=h
  obtain ⟨htable,hpath,hext⟩:=hr
  constructor <;> grind

theorem Inv.issue (h : Inv s) (hr : Names s.table p r) : Inv (s.issue p r) := by
  rw [State.issue]
  cases ho : s.objects p with
  | none => exact h.assign hr
  | some o =>
    obtain ⟨hok,hreal,hone,hold,hknown,hlive,hmeans⟩:=h.assign hr
    obtain ⟨htable,hpath,hext⟩:=hr
    constructor <;> grind

theorem of_update_none {f : Path → Option ℕ} {q : Path} {o : ℕ} (h : update f p none q=some o) : f q=some o := by
  by_cases hq : q=p
  · rw [hq,update_self] at h
    cases h
  · rwa [update_of_ne hq] at h

theorem of_update_some {f : Path → Option ℕ} {q : Path} {n o : ℕ} (h : update f p (some n) q=some o) :
    (q=p ∧ o=n) ∨ f q=some o := by
  by_cases hq : q=p
  · rw [hq,update_self,Option.some.injEq] at h
    exact .inl ⟨hq,h.symm⟩
  · rw [update_of_ne hq] at h
    exact .inr h

theorem Inv.remove (h : Inv s) : Inv { s with objects := update s.objects p none } where
  table := h.table
  real ho := h.real (of_update_none ho)
  one ho ho' := h.one (of_update_none ho) (of_update_none ho')
  old ho := h.old (of_update_none ho)
  known := h.known
  live hid ho := h.live hid (of_update_none ho)
  means hid hinode ho := h.means hid hinode (of_update_none ho)

theorem Inv.add (h : Inv s) (hr : Names s.table p r) (hp : p.stale=none)
    (hnew : s.objects p=none→∀o,(r.1,o)∉s.issued) : Inv (s.add p) := by
  rw [State.add]
  split_ifs with hsome
  · exact h
  have hother : ∀id o,(id,o)∈s.issued → s.table.inodes id≠some p := by
    intro id o hid hinode
    have heq:=hr.table.path (hr.ext hinode) hp
    rw [hr.table.path hr.path hp] at heq
    exact hnew (by simpa using hsome) o (Option.some.inj heq ▸ hid)
  refine ⟨h.table,?_,?_,?_,fun hid => ⟨Nat.lt_succ_of_lt (h.known hid).1,(h.known hid).2⟩,?_,?_⟩
  · intro q o ho
    rcases of_update_some ho with ⟨rfl,-⟩ | ho
    · exact hp
    · exact h.real ho
  · -- The new object's number is that of no object there was.
    intro q q' o ho ho'
    rcases of_update_some ho with ⟨hq,hn⟩ | hold <;> rcases of_update_some ho' with ⟨hq',hn'⟩ | hold'
    · rw [hq,hq']
    · exact absurd (hn ▸ h.old hold') (lt_irrefl _)
    · exact absurd (hn' ▸ h.old hold) (lt_irrefl _)
    · exact h.one hold hold'
  · intro q o ho
    rcases of_update_some ho with ⟨-,rfl⟩ | ho
    · exact Nat.lt_succ_self _
    · exact Nat.lt_succ_of_lt (h.old ho)
  · intro id o q hid ho
    rcases of_update_some ho with ⟨-,rfl⟩ | ho
    · exact absurd (h.known hid).1 (lt_irrefl _)
    · exact h.live hid ho
  · intro id o q o' hid hinode ho
    rcases of_update_some ho with ⟨rfl,-⟩ | ho
    · exact absurd hinode (hother id o hid)
    · exact h.means hid hinode ho

theorem Inv.rename {dest : Path} (h : Inv s) (hr : Names s.table p r) (hdest : dest.stale=none) (hp : (s.objects p).isSome) :
    Inv { s with table := r.2.rebindPath r.1 dest, objects := update (update s.objects p none) dest (s.objects p) } := by
  obtain ⟨o,ho⟩:=Option.isSome_iff_exists.mp hp
  obtain ⟨hok,hreal,hone,hold,hknown,hlive,hmeans⟩:=h
  obtain ⟨htable,hpath,hext⟩:=hr
  obtain ⟨hids,hback,hbound⟩:=htable
  rw [InodeTable.rebindPath_eq hpath]
  refine ⟨⟨?_,?_,?_⟩,?_,?_,?_,?_,?_,fun hid hinode hobject => ?_⟩
  case refine_9 =>
    dsimp only at hinode
    split_ifs at hinode <;> grind [update_apply]
  all_goals grind [update_apply]

theorem names_idOf {target : Target} (h : s.table.Ok) (hp : s.resolve target=some p) : Names s.table p (s.idOf target p) := by
  have hassign : Names s.table p (s.table.idForPath p) := by
    obtain ⟨hok,hid,hext⟩:=h.idForPath p
    exact ⟨hok,hok.inode hid,fun {id q} => hext id q⟩
  cases target with
  | node id => exact ⟨h,hp,fun h => h⟩
  | child _ _ | parent _ | path _ => exact hassign

theorem add_table (s : State) (p : Path) : (s.add p).table=s.table := by
  rw [State.add]
  split_ifs <;> rfl

theorem Inv.next {c : Call} (h : Inv s) (hc : Careful s c) : Inv (next s c) := by
  rw [ExportIds.next]
  cases hp : s.resolve c.target with
  | none => exact h
  | some p =>
    have hr:=names_idOf h.table hp
    cases c with
    | lookup target =>
      dsimp only [State.perform]
      split_ifs
      · exact h.issue hr
      · exact h
    | create target ok =>
      dsimp only [State.perform]
      split_ifs with hok
      · apply (h.add hr hok.2 fun hnone => ?_).issue (add_table s p ▸ hr)
        rw [hok.1] at hc
        exact hc p hp hok.2 hnone
      · exact h
    | remove target ok =>
      dsimp only [State.perform]
      split_ifs
      · exact (h.assign hr).remove
      · exact h.assign hr
    | rename source target ok =>
      dsimp only [State.perform]
      split
      · split_ifs with hok
        · exact h.rename hr hok.2.1 hok.2.2
        · exact h.assign hr
      · exact h

theorem ok_next {c : Call} (h : s.table.Ok) : (next s c).table.Ok := by
  have hissue : ∀(s : State) (p : Path) (r : FileId × InodeTable),(s.issue p r).table=r.2 := by
    intro s p r
    rw [State.issue]
    split <;> rfl
  rw [ExportIds.next]
  cases hp : s.resolve c.target with
  | none => exact h
  | some p =>
    have hr:=names_idOf h hp
    cases c with
    | lookup | create =>
      dsimp only [State.perform]
      split_ifs
      · rw [hissue]
        exact hr.table
      · exact h
    | remove => exact hr.table
    | rename =>
      dsimp only [State.perform]
      split
      · split_ifs
        · exact hr.table.rebindPath hr.path
        · exact hr.table
      · exact h

theorem Inv.faithful (h : Inv s) : Faithful s := by
  obtain ⟨⟨hids,hback,hbound⟩,hreal,hone,hold,hknown,hlive,hmeans⟩:=h
  refine ⟨fun id o hid => ⟨fun _ => hlive hid,fun hgone p hinode => ?_⟩,?_,?_⟩
  · by_contra hsome
    obtain ⟨o',ho'⟩:=Option.ne_none_iff_exists'.mp hsome
    exact hgone p (hmeans hid hinode ho' ▸ ho')
  · grind
  · intro id p hp
    obtain ⟨o,ho⟩:=Option.ne_none_iff_exists'.mp hp
    exact ⟨hids,fun h => hback h (hreal ho)⟩

/-- A call that is not careful gives the new object the id of one that is gone. -/
theorem not_faithful {c : Call} (h : Inv s) (hc : ¬Careful s c) : ¬Faithful (next s c) := by
  unfold Careful at hc
  split at hc
  · rename_i target
    simp only [not_forall,not_not] at hc
    obtain ⟨p,hp,hstale,hnone,o,ho⟩:=hc
    have hr:=names_idOf h.table hp
    have hlt:=(h.known ho).1
    rintro ⟨hfirst,-⟩
    have hnext : next s (.create target true)={ s with
        table := (s.idOf target p).2
        objects := update s.objects p (some s.nextObject)
        nextObject := s.nextObject+1
        issued := ((s.idOf target p).1,s.nextObject)::s.issued } := by
      simp [ExportIds.next,Call.target,hp,State.perform,hstale,State.add,hnone,State.issue]
    rw [hnext] at hfirst
    obtain ⟨hlive,hdead⟩:=hfirst _ o (List.mem_cons_of_mem _ ho)
    have hpath:=hr.path
    have hgone:=hdead fun q hq => by grind [update_apply]
    simpa using hgone p hpath
  · exact absurd trivial hc

def run (s : State) (calls : List Call) : State := calls.foldl next s

def CarefulRun : State → List Call → Prop
  | _, [] => True
  | s, c :: calls => Careful s c ∧ CarefulRun (next s c) calls

theorem faithful_iff (h : Inv s) (calls : List Call) : (∀n,Faithful (run s (calls.take n))) ↔ CarefulRun s calls := by
  induction calls generalizing s with
  | nil => simp [run,CarefulRun,h.faithful]
  | cons c calls ih =>
    constructor
    · intro hall
      have hc : Careful s c := by
        by_contra hc
        exact not_faithful h hc (hall 1)
      exact ⟨hc,(ih (h.next hc)).mp fun n => hall (n+1)⟩
    · rintro ⟨hc,hcalls⟩ n
      cases n with
      | zero => exact h.faithful
      | succ n => exact (ih (h.next hc)).mpr hcalls n

/-- The table of a new export, over these objects. -/
def start (objects : Path → Option ℕ) (nextObject : ℕ) : State where
  table := ⟨update (fun _ => none) 1 (some .root),update (fun _ => none) .root (some 1),3⟩
  objects := objects
  nextObject := nextObject
  issued := []

theorem ok_start (objects : Path → Option ℕ) (nextObject : ℕ) : (start objects nextObject).table.Ok := by
  constructor <;> dsimp only [start] <;> grind [update_apply,Path.root]

/-- In every run the two maps stay inverse, but for the names of replaced ids, and no id is given out twice. -/
theorem table_stays_inverse (objects : Path → Option ℕ) (nextObject : ℕ) (calls : List Call) :
    (run (start objects nextObject) calls).table.Ok := by
  have hrun : ∀ s : State, s.table.Ok → (run s calls).table.Ok := by
    induction calls with
    | nil => exact fun s h => h
    | cons c calls ih => exact fun s h => ih (next s c) (ok_next h)
  exact hrun _ (ok_start objects nextObject)

/-- The objects have different numbers, and none has a stale name. -/
structure Numbered (objects : Path → Option ℕ) (nextObject : ℕ) : Prop where
  real : ∀ {p o}, objects p = some o → p.stale = none
  one : ∀ {p q o}, objects p = some o → objects q = some o → p = q
  old : ∀ {p o}, objects p = some o → o < nextObject

/-- At every moment of a run all ids mean what they were issued for, exactly if the run creates no object at a path whose id
was issued for one that is gone. -/
theorem ids_faithful_iff (objects : Path → Option ℕ) (nextObject : ℕ) (h : Numbered objects nextObject) (calls : List Call) :
    (∀n,Faithful (run (start objects nextObject) (calls.take n))) ↔ CarefulRun (start objects nextObject) calls := by
  apply faithful_iff
  have hnone : ∀x,x∉(start objects nextObject).issued:=fun _ => List.not_mem_nil
  exact ⟨ok_start _ _,h.real,h.one,h.old,fun h => absurd h (hnone _),fun h => absurd h (hnone _),fun h => absurd h (hnone _)⟩

def noObjects : Path → Option ℕ := fun _ => none

theorem renamed_onto_faithful : Numbered noObjects 0 ∧ ∀n,Faithful (run (start noObjects 0)
    ([.create (.path ["a"]) true,.create (.path ["b"]) true,.rename (.node 3) (.path ["b"]) true].take n)) := by
  have h : Numbered noObjects 0 := by
    constructor <;> intros <;> contradiction
  refine ⟨h,(ids_faithful_iff noObjects 0 h _).mpr ⟨?_,?_,trivial,trivial⟩⟩
  · intro p _ _ _ o
    simp [start]
  · intro _ h _ _ o
    cases h
    change ((4 : ℕ),o)∉[((3 : ℕ),(0 : ℕ))]
    simp

/-- A file that is created again gets the id of the one that was removed. -/
example : (run (start noObjects 0)
    [.create (.path ["a"]) true,.remove (.node 3) true,.create (.path ["a"]) true]).issued=[(3,1),(3,0)] := by
  decide

end Ratarmount.ExportIds
