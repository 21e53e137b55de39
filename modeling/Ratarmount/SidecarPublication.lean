import Mathlib.Data.List.Nodup
import Mathlib.Logic.Function.Basic
import Ratarmount.StatePrograms

/-!
# Publishing an archive with its sidecars

The output and each sidecar are moved aside to a temporary name before the new file is
renamed onto them, and moved back when a later step fails. Every call of the publication
can fail; the calls that undo it succeed. A temporary name is never that of an archive or
a sidecar, and a new file that waits at one is given by its content.
-/

namespace Ratarmount.Repack

open List Function Programs

/-- The files at archive and sidecar names, and the backups at temporary names. -/
@[ext] structure Files (N T C : Type) where
  named : N → Option C
  temps : T → Option C

/-- The calls of a publication, each also the error it fails with. -/
inductive Operation (N T : Type) where
  | inspect (path : N)
  | stageBackup (path : N)
  | moveAside (path : N)
  | persist (path : N)
  | removeBackup (bak : T)
  | removeUnselected (path : N)
  deriving DecidableEq

/-- Which calls fail, and the name of a new temporary file, none if it cannot be made or kept. -/
structure Host (N T C : Type) where
  fails : Operation N T → Bool
  temp : N → (T → Option C) → Option T
  unused : ∀ path temps bak, temp path temps = some bak → temps bak = none

variable {N T C : Type} [DecidableEq N] [DecidableEq T]

namespace Files

variable (s : Files N T C)

def setFile (path : N) (content : C) : Files N T C := { s with named := update s.named path (some content) }

def removeFile (path : N) : Files N T C := { s with named := update s.named path none }

def removeTemp (bak : T) : Files N T C := { s with temps := update s.temps bak none }

def rename (path : N) (bak : T) : Files N T C := ⟨update s.named path none,update s.temps bak (s.named path)⟩

def restoreBackup (dest : N) (bak : T) : Files N T C := ⟨update s.named dest (s.temps bak),update s.temps bak none⟩

/-- The new file goes, and the previous one comes back. -/
def putBack : N × Option T → Files N T C
  | (path,none) => s.removeFile path
  | (path,some bak) => s.restoreBackup path bak

def undoPublish (output : N × Option T) (done : List (N × Option T)) : Files N T C :=
  (output :: done.reverse).foldl putBack s

end Files

abbrev Run (N T C α : Type) := EStateM (Operation N T) (Files N T C) α

section Publish

variable [Inhabited C] (host : Host N T C)

def moveAside (path : N) : Run N T C (Option T) := do
  if host.fails (.inspect path) = true then throw (.inspect path)
  else
    let s ← get
    match s.named path, host.temp path s.temps with
    | none, _ => pure none
    | some _, none => throw (.stageBackup path)
    | some _, some bak =>
      set { s with temps := update s.temps bak (some default) }
      if host.fails (.moveAside path) = true then
        modify fun s => s.removeTemp bak
        throw (.moveAside path)
      else
        modify fun s => s.rename path bak
        pure (some bak)

/-- The loop over the sidecars. `done` has those already replaced. -/
def publishSides (output : N × Option T) : List (N × Option T) → List (C × N) → Run N T C (List (N × Option T))
  | done, [] => pure done
  | done, (side,sidecar) :: sides => do
    let bak ← tryCatch (moveAside host sidecar) fun e => do
      modify fun s => s.undoPublish output done
      throw e
    if host.fails (.persist sidecar) = true then
      modify fun s => (s.putBack (sidecar,bak)).undoPublish output done
      throw (.persist sidecar)
    else
      modify fun s => s.setFile sidecar side
      publishSides output (done ++ [(sidecar,bak)]) sides

def dropBackup (s : Files N T C) : Option T → Files N T C
  | some bak => if host.fails (.removeBackup bak) = true then s else s.removeTemp bak
  | none => s

def publishWithSidecars (body : C) (output : N) (sides : List (C × N)) : Run N T C Unit := do
  let outputBak ← moveAside host output
  if host.fails (.persist output) = true then
    modify fun s => match outputBak with
      | some bak => s.restoreBackup output bak
      | none => s
    throw (.persist output)
  else
    modify fun s => s.setFile output body
    let done ← publishSides host (output,outputBak) [] sides
    modify fun s => (outputBak :: done.map Prod.snd).foldl (dropBackup host) s

def removeUnselectedGzipSidecar : Option N → Run N T C Unit
  | none => pure ()
  | some path =>
    if host.fails (.removeUnselected path) = true then throw (.removeUnselected path)
    else modify fun s => s.removeFile path

/-- The end of `repack_gzip_dest`, when all new files wait at temporary names. Without `overwrite` no sidecar is unselected. -/
def repackGzipDest (unselected : Option N) (body : C) (output : N) (sides : List (C × N)) : Run N T C Unit := do
  publishWithSidecars host body output sides
  removeUnselectedGzipSidecar host unselected

end Publish

variable {s s₀ t : Files N T C} {path : N} {bak : Option T} {host : Host N T C}

/-- The file was moved aside, and perhaps replaced. -/
def Aside (s : Files N T C) (path : N) (bak : Option T) (t : Files N T C) : Prop :=
  (∀ n ≠ path, t.named n = s.named n) ∧ match bak with
    | none => s.named path = none ∧ t.temps = s.temps
    | some b => s.named path ≠ none ∧ s.temps b = none ∧ t.temps = update s.temps b (s.named path)

theorem Aside.setFile (h : Aside s path bak t) (content : C) : Aside s path bak (t.setFile path content) :=
  ⟨fun n hn => (update_of_ne hn _ _).trans (h.1 n hn),h.2⟩

theorem Aside.update_named (h : Aside s path bak t) (content : Option C) :
    update t.named path content=update s.named path content := by
  funext n
  by_cases hn : n=path
  · rw [hn,update_self,update_self]
  · rw [update_of_ne hn,update_of_ne hn,h.1 n hn]

theorem Aside.putBack (h : Aside s path bak t) : t.putBack (path,bak)=s := by
  cases bak with
  | none =>
    refine Files.ext ((h.update_named none).trans ?_) h.2.2
    rw [←h.2.1,update_eq_self]
  | some b =>
    obtain ⟨-,hfree,htemps⟩:=h.2
    refine Files.ext ((h.update_named _).trans ?_) ?_
    · rw [htemps,update_self,update_eq_self]
    · simp [Files.putBack,Files.restoreBackup,htemps,←hfree]

/-- Files with other names and other backups can be put back in any order. -/
theorem putBack_comm {e e' : N × Option T} (hpath : e.1≠e'.1) (hbak : ∀b,e.2=some b → e'.2≠some b) :
    (s.putBack e).putBack e'=(s.putBack e').putBack e := by
  obtain ⟨path,_ | b⟩:=e
  · obtain ⟨path',_ | b'⟩:=e' <;> simp [Files.putBack,Files.removeFile,Files.restoreBackup,update_comm hpath]
  · obtain ⟨path',_ | b'⟩:=e'
    · simp [Files.putBack,Files.removeFile,Files.restoreBackup,update_comm hpath]
    · have hne : b'≠b:=fun heq => hbak b rfl (by rw [heq])
      simp [Files.putBack,Files.restoreBackup,update_comm hpath,update_comm hne,hne,hne.symm]

/-- The replaced files can be put back in this order, and only their backups are new at temporary names. -/
structure Undoable (s₀ : Files N T C) (entries : List (N × Option T)) (s : Files N T C) : Prop where
  undo : entries.foldl Files.putBack s = s₀
  kept : ∀ b, some b ∈ entries.map Prod.snd → s.temps b ≠ none ∧ s₀.temps b = none
  temps : ∀ b, some b ∉ entries.map Prod.snd → s.temps b = s₀.temps b

/-- The file that is replaced next is put back before the others, or behind the first. -/
theorem Undoable.replace {first : Option (N × Option T)} {rest : List (N × Option T)}
    (h : Undoable s₀ (first.toList++rest) s) (hpath : ∀e∈first,e.1≠path) (ht : Aside s path bak t) :
    Undoable s₀ (first.toList++(path,bak)::rest) t := by
  have hmem : ∀b,some b∈(first.toList++(path,bak)::rest).map Prod.snd ↔
      bak=some b ∨ some b∈(first.toList++rest).map Prod.snd := by
    intro b
    rw [(perm_middle.map Prod.snd).mem_iff,map_cons,mem_cons,eq_comm]
  have htemps : ∀b,bak≠some b → t.temps b=s.temps b := by
    intro b hb
    cases bak with
    | none => rw [ht.2.2]
    | some c => rw [ht.2.2.2,update_of_ne fun heq => hb (by rw [heq])]
  have hkept : ∀b,some b∈(first.toList++rest).map Prod.snd → bak≠some b := by
    rintro b hb rfl
    exact (h.kept b hb).1 ht.2.2.1
  refine ⟨?_,?_,?_⟩
  · rw [←h.undo,←ht.putBack]
    cases first with
    | none => rfl
    | some e => exact congrArg (foldl _ · rest) (putBack_comm (hpath e rfl) fun b hb => hkept b (by simp [hb]))
  · intro b hb
    by_cases hold : some b∈(first.toList++rest).map Prod.snd
    · rw [htemps b (hkept b hold)]
      exact h.kept b hold
    · obtain rfl:=((hmem b).mp hb).resolve_right hold
      rw [←h.temps b hold,ht.2.2.2,update_self]
      exact ht.2.imp_right And.left
  · intro b hb
    obtain ⟨hne,hold⟩:=not_or.mp (mt (hmem b).mpr hb)
    rw [htemps b hne,h.temps b hold]

omit [DecidableEq N] in
/-- Only a backup whose removal fails stays. -/
theorem foldl_dropBackup (baks : List (Option T)) (s : Files N T C) : baks.foldl (dropBackup host) s =
    { s with temps := fun b => if some b∈baks ∧ host.fails (.removeBackup b)=false then none else s.temps b } := by
  induction baks generalizing s with
  | nil => simp
  | cons bak baks ih =>
    rw [foldl_cons,ih]
    cases bak with
    | none => simp [dropBackup]
    | some c =>
      refine Files.ext (by rw [dropBackup]; split_ifs <;> rfl) (funext fun b => ?_)
      by_cases hc : b=c
      · subst hc
        by_cases hb : host.fails (.removeBackup b)=true <;> simp [dropBackup,hb,Files.removeTemp]
      · rw [dropBackup]
        split_ifs <;> simp_all [Files.removeTemp]

/-- The names with the new contents. -/
def withNew (named : N → Option C) (new : List (C × N)) : N → Option C :=
  new.foldl (fun named side => update named side.2 (some side.1)) named

section Runs

variable [Inhabited C]

/-- A file is moved aside, or nothing has changed. -/
theorem triple_moveAside (s : Files N T C) (path : N) : Triple (·=s) (moveAside host path)
    (fun bak t => Aside s path bak t ∧ (bak=none → t=s)) (·=s) := by
  refine .ite (fun _ => .throw fun _ h => h) fun _ => .get fun s' hs' => ?_
  cases hs'
  split
  · next hnone => exact .pure fun t ht => by rw [ht]; exact ⟨⟨fun _ _ => rfl,hnone,rfl⟩,fun _ => rfl⟩
  · exact .throw fun _ h => h
  · next _ bak hsome htemp =>
    have hfree:=host.unused path s.temps bak htemp
    refine .bind (.set (Q := fun _ t => t=_) rfl) fun _ => .ite (fun _ => ?_) fun _ => ?_
    · refine .bind (.modify (Q := fun _ t => t=s) ?_) fun _ => .throw fun _ h => h
      simp [Files.removeTemp,←hfree]
    · refine .bind (.modify (Q := fun _ t => t=s.rename path bak) ?_) fun _ => .pure fun t ht => ?_
      · rintro _ rfl
        simp [Files.rename]
      · rw [ht]
        exact ⟨⟨fun n hn => update_of_ne hn _ _,by simp [hsome],hfree,rfl⟩,nofun⟩

theorem triple_publishSides {output : N × Option T} {done : List (N × Option T)} (sides : List (C × N))
    (h : Undoable s₀ (output::done.reverse) s) (hout : output.1∉sides.map Prod.snd) :
    Triple (·=s) (publishSides host output done sides)
      (fun done' t => Undoable s₀ (output::done'.reverse) t ∧ t.named=withNew s.named sides) (·=s₀) := by
  induction sides generalizing done s with
  | nil => exact .pure fun t ht => by rw [ht]; exact ⟨h,rfl⟩
  | cons e sides ih =>
    obtain ⟨side,sidecar⟩:=e
    obtain ⟨hne,hout⟩:=not_or.mp (mt mem_cons.mpr hout)
    refine .bind ((triple_moveAside s sidecar).tryCatch fun e => ?_) fun bak => .ite (fun _ => ?_) fun _ => ?_
    · exact .bind (.modify (Q := fun _ t => t=s₀) fun t ht => by rw [ht]; exact h.undo) fun _ => .throw fun _ h => h
    · refine .bind (.modify (Q := fun _ t => t=s₀) fun t ht => ?_) fun _ => .throw fun _ h => h
      rw [ht.1.putBack]
      exact h.undo
    · intro t ht
      have hnext:=@Undoable.replace _ _ _ _ _ _ _ _ _ _ (some output) done.reverse h (by simpa using hne)
        (ht.1.setFile side)
      rw [withNew,foldl_cons,←ht.1.update_named]
      exact ih (by simpa using hnext) hout _ rfl

/-- The new files are in place, and a backup is left only where its removal failed. -/
def Published (host : Host N T C) (s : Files N T C) (new : List (C × N)) (t : Files N T C) : Prop :=
  t.named = withNew s.named new ∧ ∀ b, host.fails (.removeBackup b) = false → t.temps b = s.temps b

theorem triple_publishWithSidecars (s : Files N T C) (body : C) {output : N} {sides : List (C × N)}
    (hout : output∉sides.map Prod.snd) : Triple (·=s) (publishWithSidecars host body output sides)
      (fun _ => Published host s ((body,output)::sides)) (·=s) := by
  refine .bind (triple_moveAside s output) fun bak => .ite (fun _ => ?_) fun _ => ?_
  · refine .bind (.modify (Q := fun _ t => t=s) fun t ht => ?_) fun _ => .throw fun _ h => h
    cases bak with
    | none => exact ht.2 rfl
    | some bak => exact ht.1.putBack
  · intro t ht
    have hstart : Undoable s ([]++[]) s:=⟨rfl,nofun,fun _ _ => rfl⟩
    refine (triple_publishSides sides (@Undoable.replace _ _ _ _ _ _ _ _ _ _ none [] hstart nofun (ht.1.setFile body)) hout).bind
      (fun done => .modify fun u hu => ?_) _ rfl
    rw [foldl_dropBackup]
    refine ⟨hu.2.trans (congrArg (withNew · sides) (ht.1.update_named _)),fun b hb => ?_⟩
    by_cases hmem : some b∈bak::done.map Prod.snd
    · simpa [hb,hmem] using (hu.1.kept b (by simpa using hmem)).2.symm
    · simpa [hb,hmem] using hu.1.temps b (by simpa using hmem)

/-- A publication that fails has changed nothing, unless all it could not do was to remove the unselected sidecar; one that
succeeds leaves the new files, and of the backups those whose removal failed. -/
theorem published_or_unchanged (host : Host N T C) (s : Files N T C) (unselected : Option N) (body : C) (output : N)
    (sides : List (C × N)) (hout : output ∉ sides.map Prod.snd) :
    match repackGzipDest host unselected body output sides s with
    | .error e t => t = s ∨ (∃ path, e = .removeUnselected path) ∧ Published host s ((body,output) :: sides) t
    | .ok _ t => ∃ u, Published host s ((body,output) :: sides) u ∧ t = unselected.elim u u.removeFile := by
  have hpublish := @triple_publishWithSidecars _ _ _ _ _ host _ s body _ _ hout s rfl
  rw [repackGzipDest]
  cases hr : publishWithSidecars host body output sides s with
  | error e t =>
    rw [hr] at hpublish
    rw [run_bind_error hr]
    exact .inl hpublish
  | ok a t =>
    rw [hr] at hpublish
    rw [run_bind hr]
    cases unselected with
    | none => exact ⟨t,hpublish,rfl⟩
    | some path =>
      rw [removeUnselectedGzipSidecar]
      split_ifs
      · exact .inr ⟨⟨path,rfl⟩,hpublish⟩
      · exact ⟨t,hpublish,rfl⟩

end Runs

/-- One call fails, and there is room for one backup at a time. -/
def failing (op : Operation ℕ Unit) : Host ℕ Unit ℕ where
  fails := (· == op)
  temp _ temps := if (temps ()).isNone then some () else none
  unused _ temps _ h := by simp_all

def previous : Files ℕ Unit ℕ := ⟨fun n => if n = 0 then some 7 else none,fun _ => none⟩

theorem failed_persist_undone :
    repackGzipDest (failing (.persist 1)) none 8 0 [(9,1)] previous = .error (.persist 1) previous := by
  have h := published_or_unchanged (failing (.persist 1)) previous none 8 0 [(9,1)] (by decide)
  obtain ⟨t,hr⟩ : ∃ t, repackGzipDest (failing (.persist 1)) none 8 0 [(9,1)] previous = .error (.persist 1) t :=
    ⟨_,rfl⟩
  rw [hr] at h ⊢
  rw [h.resolve_right (by simp)]

/-- A backup that cannot be removed stays after a success, and a sidecar that cannot be removed is an error after the new
output is in place. -/
theorem backup_stays_and_error_after_publication :
    (∃ t, publishWithSidecars (failing (.removeBackup ())) 8 0 [] previous = .ok () t ∧ t.temps () = some 7) ∧
    ∃ e t, repackGzipDest (failing (.removeUnselected 1)) (some 1) 8 0 [] previous = .error e t ∧ t.named 0 = some 8 :=
  ⟨⟨_,rfl,rfl⟩,_,_,rfl,rfl⟩

end Ratarmount.Repack
