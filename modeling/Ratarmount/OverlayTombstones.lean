import Ratarmount.OverlayArchive
import Ratarmount.OverlayRecords

/-!
# Tombstones in memory and in the database

An operation changes the overlay folder, then writes a row or queues it, then
changes the tombstones in memory. Operations of several threads take these steps
in any order, and row writes may fail. The two stores end up with the same deleted
paths exactly when, for every path, no operation with another verdict has changed the
memory for good behind the one that wrote the last row.
-/

namespace Ratarmount.Overlay

open Programs List Option
open Mount (Path components)
open Posix (FS Node Errno)

variable {π : Type} {c : Config π}

/-- What the threads share. `overlay.files` is the table alone, `queue` the rows it still misses. -/
structure Shared (π : Type) where
  overlay : State π
  queue : List FilesOp

/-- An operation under way: before a stage, before its row, before its change in memory, or done. -/
inductive Job (π : Type)
  | running (stage : OpM π (Option FilesOp)) (next : Option FilesOp → List (OpM π (Option FilesOp)))
  | writing (op : FilesOp) (rest : List (OpM π (Option FilesOp)))
  | remembering (op : FilesOp) (rest : List (OpM π (Option FilesOp)))
  | returned

/-- The atomic steps. A row write says whether its transactions went through; a replay is one that did,
for a failed one changes nothing. -/
inductive Choice
  | host
  | replay
  | write (saved : Bool)
  | remember

def Job.proceed : List (OpM π (Option FilesOp)) → Job π
  | [] => .returned
  | stage :: rest => .running stage fun _ => rest

/-- `write_files_op_direct` where nothing is queued, else the queue. -/
def Shared.write (sh : Shared π) (op : FilesOp) (saved : Bool) : Shared π :=
  if sh.queue = [] ∧ saved then
    { sh with overlay := { sh.overlay with files := applyFilesOpSql sh.overlay.files op } }
  else { sh with queue := sh.queue ++ [op] }

/-- `try_replay_pending_once`. -/
def Shared.replay (sh : Shared π) : Shared π :=
  { sh with
    overlay := { sh.overlay with files := applyPendingOpsSql sh.overlay.files sh.queue }
    queue := [] }

def Shared.remember (sh : Shared π) (op : FilesOp) : Shared π :=
  { sh with overlay := { sh.overlay with tombstones := rememberOp sh.overlay.tombstones op } }

def advance (sh : Shared π) : Choice → Job π → Option (Shared π × Job π)
  | .host, .running stage next =>
    match stage sh.overlay with
    | .ok (some op) s => some ({ sh with overlay := s },.writing op (next (some op)))
    | .ok none s => some ({ sh with overlay := s },.proceed (next none))
    | .error _ s => some ({ sh with overlay := s },.returned)
  | .replay, .writing op rest => some (sh.replay,.writing op rest)
  | .write saved, .writing op rest => some (sh.write op saved,.remembering op rest)
  | .remember, .remembering op rest => some (sh.remember op,.proceed rest)
  | _, _ => none

/-- A step of a thread that changes a store: its row is written or queued, or its change in memory is made. -/
inductive Step
  | wrote (thread : ℕ) (op : FilesOp)
  | remembered (thread : ℕ) (op : FilesOp)

def Step.row : Step → Option FilesOp
  | .wrote _ op => some op
  | .remembered _ _ => none

def Step.memory : Step → Option FilesOp
  | .wrote _ _ => none
  | .remembered _ op => some op

def stepOf (i : ℕ) : Choice → Job π → List Step
  | .write _, .writing op _ => [.wrote i op]
  | .remember, .remembering op _ => [.remembered i op]
  | _, _ => []

structure System (π : Type) where
  shared : Shared π
  jobs : List (Job π)

def System.step (sys : System π) (i : ℕ) (choice : Choice) : Option (System π) := do
  let job ← sys.jobs[i]?
  let (shared,job) ← advance sys.shared choice job
  some ⟨shared,sys.jobs.set i job⟩

def System.run : System π → List (ℕ × Choice) → Option (System π)
  | sys, [] => some sys
  | sys, (i,choice) :: events => do (← sys.step i choice).run events

/-- The steps of a run that change a store, in the order in which the threads take them. -/
def System.steps : System π → List (ℕ × Choice) → List Step
  | _, [] => []
  | sys, (i,choice) :: events =>
    ((sys.jobs[i]?).map (stepOf i choice)).getD [] ++ ((sys.step i choice).map (·.steps events)).getD []

def Job.start (c : Config π) (call : Op × Faults) : Job π :=
  .running (opStages c call.2 call.1).1 (opStages c call.2 call.1).2

def System.start (c : Config π) (s : State π) (calls : List (Op × Faults)) : System π :=
  ⟨⟨s,[]⟩,calls.map (Job.start c)⟩

def Job.isReturned : Job π → Bool
  | .returned => true
  | _ => false

def System.Returned (sys : System π) : Prop := ∀ job ∈ sys.jobs, job.isReturned = true

instance (sys : System π) : Decidable sys.Returned := inferInstanceAs (Decidable (∀ job ∈ _, _))

def Shared.replayed (sh : Shared π) : Files := applyPendingOpsSql sh.overlay.files sh.queue

def lastVerdict (p : Path) (ops : List FilesOp) : Option Bool := (ops.filterMap (FilesOp.verdict p)).getLast?

/-- When the thread that wrote the last row about `p` has changed the memory, every thread that changes it to the
other verdict afterwards is followed by one that changes it back. -/
def InOrder (p : Path) (steps : List Step) : Prop :=
  ∀ before i op between after deleted, steps = before ++ .wrote i op :: (between ++ .remembered i op :: after) →
    .remembered i op ∉ between → op.verdict p = some deleted →
    (∀ x ∈ between ++ after, ∀ op', x.row = some op' → op'.verdict p = none) →
    ∀ soon j other later, after = soon ++ .remembered j other :: later → other.verdict p = some (!deleted) →
      ∃ k same, .remembered k same ∈ later ∧ same.verdict p = some deleted

/-! ## The stores follow the steps -/

def Job.Unrecorded : Job π → Prop
  | .running stage next => Overlay.Unrecorded stage ∧ ∀ said, ∀ m ∈ next said, Overlay.Unrecorded m
  | .writing _ rest => ∀ m ∈ rest, Overlay.Unrecorded m
  | .remembering _ rest => ∀ m ∈ rest, Overlay.Unrecorded m
  | .returned => True

def Job.pending : Job π → Option FilesOp
  | .remembering op _ => some op
  | _ => none

/-- The stores are what the steps make of the state at the start. -/
structure Shared.Follows (s : State π) (steps : List Step) (sh : Shared π) : Prop where
  rows : sh.replayed = applyPendingOpsSql s.files (steps.filterMap Step.row)
  memory : sh.overlay.tombstones = (steps.filterMap Step.memory).foldl rememberOp s.tombstones

/-- Every thread remembers a change after it has written it and before it writes another; `unsettled` are the
changes that threads have yet to remember. -/
inductive Paired : List Step → (ℕ → Option FilesOp) → Prop
  | nil : Paired [] fun _ => none
  | wrote {steps : List Step} {unsettled : ℕ → Option FilesOp} {i : ℕ} (op : FilesOp) : Paired steps unsettled →
      unsettled i = none → Paired (steps ++ [.wrote i op]) (Function.update unsettled i (some op))
  | remembered {steps : List Step} {unsettled : ℕ → Option FilesOp} {i : ℕ} {op : FilesOp} : Paired steps unsettled →
      unsettled i = some op → Paired (steps ++ [.remembered i op]) (Function.update unsettled i none)

theorem Job.unrecorded_proceed {rest : List (OpM π (Option FilesOp))} (h : ∀m∈rest,Overlay.Unrecorded m) :
    (Job.proceed rest).Unrecorded := by
  cases rest with
  | nil => trivial
  | cons stage rest => exact ⟨h stage mem_cons_self,fun _ m hm => h m (mem_cons_of_mem _ hm)⟩

theorem Job.pending_proceed (rest : List (OpM π (Option FilesOp))) : (Job.proceed rest).pending=none := by
  cases rest <;> rfl

variable {s : State π} {sh : Shared π} {choice : Choice} {job : Job π} {sys sys' : System π} {steps : List Step}
  {p : Path} {i : ℕ} {op : FilesOp} {unsettled : ℕ → Option FilesOp}

theorem Shared.Follows.write (h : sh.Follows s steps) (i : ℕ) (op : FilesOp) (saved : Bool) :
    (sh.write op saved).Follows s (steps++[.wrote i op]) := by
  have hrows:=h.rows
  rw [Shared.replayed,applyPendingOpsSql,applyPendingOpsSql] at hrows
  rw [Shared.write]
  split_ifs with hq
  · refine ⟨?_,by rw [filterMap_append]; exact h.memory.trans (congrArg (foldl _ _) (append_nil _).symm)⟩
    rw [hq.1] at hrows
    rw [Shared.replayed,hq.1,applyPendingOpsSql,applyPendingOpsSql,filterMap_append,foldl_append,←hrows]
    rfl
  · refine ⟨?_,by rw [filterMap_append]; exact h.memory.trans (congrArg (foldl _ _) (append_nil _).symm)⟩
    rw [Shared.replayed,applyPendingOpsSql,applyPendingOpsSql,filterMap_append,foldl_append,foldl_append,hrows]
    rfl

theorem Shared.Follows.replay (h : sh.Follows s steps) : sh.replay.Follows s steps :=
  ⟨h.rows,h.memory⟩

theorem Shared.Follows.remember (h : sh.Follows s steps) (i : ℕ) (op : FilesOp) :
    (sh.remember op).Follows s (steps++[.remembered i op]) := by
  refine ⟨by rw [filterMap_append]; exact h.rows.trans (congrArg (applyPendingOpsSql _) (append_nil _).symm),?_⟩
  rw [Shared.remember,filterMap_append,foldl_append,←h.memory]
  rfl

theorem Shared.Follows.host {s' : State π} (h : sh.Follows s steps) (hs : SameRecords sh.overlay s') :
    Shared.Follows s steps { sh with overlay := s' } := by
  refine ⟨?_,?_⟩
  · rw [←h.rows,Shared.replayed,Shared.replayed,hs.1]
  · rw [←h.memory,hs.2]

/-- What one step of a job can do. -/
theorem advance_cases {sh' : Shared π} {job' : Job π} (h : advance sh choice job=some (sh',job'))
    (hu : job.Unrecorded) (i : ℕ) : job'.Unrecorded ∧
      ((stepOf i choice job=[] ∧ job.pending=none ∧ job'.pending=none ∧
          ((∃s,SameRecords sh.overlay s ∧ sh'={ sh with overlay := s }) ∨ sh'=sh.replay)) ∨
        (∃op saved,stepOf i choice job=[.wrote i op] ∧ job.pending=none ∧ job'.pending=some op ∧ sh'=sh.write op saved) ∨
        ∃op,stepOf i choice job=[.remembered i op] ∧ job.pending=some op ∧ job'.pending=none ∧ sh'=sh.remember op) := by
  cases choice with
  | host =>
    cases job with
    | running stage next =>
      have hkeeps:=hu.1 sh.overlay trivial
      rw [advance] at h
      cases hr : stage sh.overlay with
      | error e s =>
        rw [hr] at h hkeeps
        cases h
        exact ⟨trivial,.inl ⟨rfl,rfl,rfl,.inl ⟨s,hkeeps,rfl⟩⟩⟩
      | ok said s =>
        rw [hr] at h hkeeps
        cases said with
        | none =>
          cases h
          exact ⟨Job.unrecorded_proceed (hu.2 none),.inl ⟨rfl,rfl,Job.pending_proceed _,.inl ⟨s,hkeeps,rfl⟩⟩⟩
        | some op =>
          cases h
          exact ⟨hu.2 (some op),.inl ⟨rfl,rfl,rfl,.inl ⟨s,hkeeps,rfl⟩⟩⟩
    | _ => cases h
  | replay =>
    cases job with
    | writing op rest =>
      cases h
      exact ⟨hu,.inl ⟨rfl,rfl,rfl,.inr rfl⟩⟩
    | _ => cases h
  | write saved =>
    cases job with
    | writing op rest =>
      cases h
      exact ⟨hu,.inr (.inl ⟨op,saved,rfl,rfl,rfl,rfl⟩)⟩
    | _ => cases h
  | remember =>
    cases job with
    | remembering op rest =>
      cases h
      exact ⟨Job.unrecorded_proceed hu,.inr (.inr ⟨op,rfl,rfl,Job.pending_proceed _,rfl⟩)⟩
    | _ => cases h

/-- The changes that reached the rows and not yet the memory. -/
def System.pending (sys : System π) (i : ℕ) : Option FilesOp := (sys.jobs[i]?).bind Job.pending

structure System.Logged (s : State π) (steps : List Step) (sys : System π) : Prop where
  follows : sys.shared.Follows s steps
  unrecorded : ∀ job ∈ sys.jobs, job.Unrecorded
  paired : Paired steps sys.pending

theorem System.Logged.start (c : Config π) (s : State π) (calls : List (Op × Faults)) :
    (System.start c s calls).Logged s [] where
  follows := ⟨rfl,rfl⟩
  unrecorded := by
    intro job hjob
    obtain ⟨call,-,rfl⟩:=List.mem_map.mp hjob
    exact ⟨unrecorded_first call.1,fun said m hm => unrecorded_later call.1 said m hm⟩
  paired := by
    have hnone : (System.start c s calls).pending=fun _ => none := by
      funext i
      rw [System.pending,System.start,getElem?_map]
      cases calls[i]? <;> rfl
    rw [hnone]
    exact .nil

theorem unsettled_set (h : sys.jobs[i]?=some job) (shared : Shared π) (job' : Job π) :
    System.pending ⟨shared,sys.jobs.set i job'⟩=Function.update sys.pending i job'.pending := by
  obtain ⟨hi,-⟩:=List.getElem?_eq_some_iff.mp h
  funext j
  by_cases hj : j=i
  · subst hj
    simp [System.pending,hi]
  · simp [System.pending,hj,getElem?_set_ne (Ne.symm hj)]

theorem System.Logged.step (h : sys.Logged s steps) (hstep : sys.step i choice=some sys') :
    sys'.Logged s (steps++((sys.jobs[i]?).map (stepOf i choice)).getD []) := by
  rw [System.step,bind_eq_bind,bind_eq_some_iff] at hstep
  obtain ⟨job,hjob,hstep⟩:=hstep
  rw [bind_eq_bind,bind_eq_some_iff] at hstep
  obtain ⟨⟨sh',job'⟩,hadv,hstep⟩:=hstep
  cases hstep
  obtain ⟨hu,hcases⟩:=advance_cases hadv (h.unrecorded job (mem_of_getElem? hjob)) i
  have hunrec : ∀j∈sys.jobs.set i job',j.Unrecorded := by
    intro j hj
    rcases mem_or_eq_of_mem_set hj with hj | rfl
    · exact h.unrecorded j hj
    · exact hu
  have hat : sys.pending i=job.pending := by rw [System.pending,hjob,bind_some]
  have hset:=unsettled_set hjob sh' job'
  rw [hjob,map_some,getD_some]
  rcases hcases with ⟨hsteps,hp,hp',hsh⟩ | ⟨op,saved,hsteps,hp,hp',rfl⟩ | ⟨op,hsteps,hp,hp',rfl⟩ <;> rw [hsteps]
  · have hsame : Function.update sys.pending i job'.pending=sys.pending := by
      rw [hp',←hp,←hat,Function.update_eq_self]
    rw [append_nil]
    refine ⟨?_,hunrec,by rw [hset,hsame]; exact h.paired⟩
    rcases hsh with ⟨s',hs',rfl⟩ | rfl
    · exact h.follows.host hs'
    · exact h.follows.replay
  · exact ⟨h.follows.write i op saved,hunrec,by rw [hset,hp']; exact .wrote op h.paired (hat.trans hp)⟩
  · exact ⟨h.follows.remember i op,hunrec,by rw [hset,hp']; exact .remembered h.paired (hat.trans hp)⟩

theorem System.Logged.run {events : List (ℕ × Choice)} (h : sys.Logged s steps) (hrun : sys.run events=some sys') :
    sys'.Logged s (steps++sys.steps events) := by
  induction events generalizing sys steps with
  | nil =>
    cases hrun
    rwa [System.steps,append_nil]
  | cons e events ih =>
    rw [System.run,bind_eq_bind,bind_eq_some_iff] at hrun
    obtain ⟨mid,hstep,hrun⟩:=hrun
    rw [System.steps,hstep,map_some,getD_some,←append_assoc]
    exact ih (h.step hstep) hrun

/-! ## Changes and their steps -/

/-- A written change is remembered behind its row, unless it is the one that the thread has yet to remember. -/
theorem Paired.remembers (h : Paired steps unsettled) {before after : List Step} (hsteps : steps=before++.wrote i op::after) :
    unsettled i=some op ∧ (.remembered i op∉after) ∨
      ∃between rest,after=between++.remembered i op::rest ∧ .remembered i op∉between := by
  induction h generalizing after with
  | nil => simp at hsteps
  | @wrote steps unsettled j op' _ hnone ih =>
    rcases eq_nil_or_concat' after with rfl | ⟨after,x,rfl⟩
    · obtain ⟨-,hlast⟩:=append_inj' hsteps rfl
      cases hlast
      exact .inl ⟨by simp,not_mem_nil⟩
    · rw [←cons_append,←append_assoc] at hsteps
      obtain ⟨hinit,hlast⟩:=append_inj' hsteps rfl
      cases hlast
      rcases ih hinit with ⟨hat,hnot⟩ | ⟨between,rest,rfl,hnot⟩
      · have hij : i≠j := by
          rintro rfl
          rw [hnone] at hat
          cases hat
        exact .inl ⟨by rwa [Function.update_of_ne hij],by simpa using hnot⟩
      · exact .inr ⟨between,rest++[.wrote j op'],by simp,hnot⟩
  | @remembered steps unsettled j op' _ hsome ih =>
    rcases eq_nil_or_concat' after with rfl | ⟨after,x,rfl⟩
    · obtain ⟨-,hlast⟩:=append_inj' hsteps rfl
      cases hlast
    · rw [←cons_append,←append_assoc] at hsteps
      obtain ⟨hinit,hlast⟩:=append_inj' hsteps rfl
      cases hlast
      rcases ih hinit with ⟨hat,hnot⟩ | ⟨between,rest,rfl,hnot⟩
      · by_cases hij : i=j
        · subst hij
          rw [hsome] at hat
          cases hat
          exact .inr ⟨after,[],rfl,hnot⟩
        · refine .inl ⟨by rwa [Function.update_of_ne hij],?_⟩
          simp only [mem_append,mem_singleton,Step.remembered.injEq,not_or]
          exact ⟨hnot,fun h => hij h.1⟩
      · exact .inr ⟨between,rest++[.remembered j op'],by simp,hnot⟩

/-- What is remembered was written. -/
theorem Paired.mem_wrote (h : Paired steps unsettled) :
    (∀i op,unsettled i=some op → .wrote i op∈steps) ∧ ∀i op,.remembered i op∈steps → .wrote i op∈steps := by
  induction h with
  | nil => simp
  | @wrote steps unsettled j op' _ _ ih =>
    refine ⟨fun i op hat => ?_,fun i op hmem => ?_⟩
    · by_cases hij : i=j
      · subst hij
        rw [Function.update_self] at hat
        cases hat
        simp
      · rw [Function.update_of_ne hij] at hat
        exact mem_append_left _ (ih.1 i op hat)
    · exact mem_append_left _ (ih.2 i op (by simpa using hmem))
  | @remembered steps unsettled j op' _ hsome ih =>
    refine ⟨fun i op hat => ?_,fun i op hmem => ?_⟩
    · by_cases hij : i=j
      · subst hij
        rw [Function.update_self] at hat
        cases hat
      · rw [Function.update_of_ne hij] at hat
        exact mem_append_left _ (ih.1 i op hat)
    · rcases mem_append.mp hmem with hmem | hmem
      · exact mem_append_left _ (ih.2 i op hmem)
      · cases mem_singleton.mp hmem
        exact mem_append_left _ (ih.1 _ _ hsome)

/-! ## Agreement -/

theorem lastVerdict_cons (p : Path) (op : FilesOp) (ops : List FilesOp) :
    lastVerdict p (op::ops)=(lastVerdict p ops).or (op.verdict p) := by
  rw [lastVerdict,lastVerdict,filterMap_cons]
  cases hop : op.verdict p with
  | none => simp
  | some b =>
    rw [getLast?_cons]
    cases (List.filterMap (FilesOp.verdict p) ops).getLast? <;> rfl

theorem isDeleted_applyPendingOpsSql (t : Files) (ops : List FilesOp) (p : Path) :
    (applyPendingOpsSql t ops).isDeleted p=(lastVerdict p ops).getD (t.isDeleted p) := by
  induction ops generalizing t with
  | nil => rfl
  | cons op ops ih =>
    rw [applyPendingOpsSql,foldl_cons,←applyPendingOpsSql,ih,isDeleted_apply,lastVerdict_cons]
    cases lastVerdict p ops <;> rfl

theorem mem_foldl_rememberOp (set : Finset Path) (ops : List FilesOp) (p : Path) :
    decide (p∈ops.foldl rememberOp set)=(lastVerdict p ops).getD (decide (p∈set)) := by
  induction ops generalizing set with
  | nil => rfl
  | cons op ops ih =>
    rw [foldl_cons,ih,mem_rememberOp,lastVerdict_cons]
    cases lastVerdict p ops <;> rfl

theorem lastVerdict_eq_none_iff (p : Path) (ops : List FilesOp) :
    lastVerdict p ops=none ↔ ∀op∈ops,op.verdict p=none := by
  rw [lastVerdict,getLast?_eq_none_iff,filterMap_eq_nil_iff]

theorem lastVerdict_append (p : Path) (ops ops' : List FilesOp) :
    lastVerdict p (ops++ops')=(lastVerdict p ops').or (lastVerdict p ops) := by
  rw [lastVerdict,filterMap_append,getLast?_append]
  rfl

/-- The last step that says something about a path. -/
theorem split_of_lastVerdict {f : Step → Option FilesOp} {deleted : Bool} (h : lastVerdict p (steps.filterMap f)=some deleted) :
    ∃before x after op,steps=before++x::after ∧ f x=some op ∧ op.verdict p=some deleted ∧
      ∀y∈after,∀op',f y=some op' → op'.verdict p=none := by
  induction steps with
  | nil => cases h
  | cons x steps ih =>
    have hlater (h : lastVerdict p (steps.filterMap f)=some deleted) : ∃before y after op,x::steps=before++y::after ∧
        f y=some op ∧ op.verdict p=some deleted ∧ ∀z∈after,∀op',f z=some op' → op'.verdict p=none := by
      obtain ⟨before,y,after,op,rfl,hrest⟩:=ih h
      exact ⟨x::before,y,after,op,rfl,hrest⟩
    cases hx : f x with
    | none =>
      rw [filterMap_cons_none hx] at h
      exact hlater h
    | some op =>
      rw [filterMap_cons_some hx,lastVerdict_cons] at h
      cases hlast : lastVerdict p (steps.filterMap f) with
      | some b =>
        rw [hlast] at h
        exact hlater (hlast.trans h)
      | none =>
        rw [hlast] at h
        refine ⟨[],x,steps,op,rfl,hx,h,fun y hy op' hop' => ?_⟩
        exact (lastVerdict_eq_none_iff p _).mp hlast op' (mem_filterMap.mpr ⟨y,hy,hop'⟩)

theorem lastVerdict_of_silent {f : Step → Option FilesOp} (h : ∀x∈steps,∀op,f x=some op → op.verdict p=none) :
    lastVerdict p (steps.filterMap f)=none := by
  rw [lastVerdict_eq_none_iff]
  intro op hop
  obtain ⟨x,hx,hfx⟩:=mem_filterMap.mp hop
  exact h x hx op hfx

/-- What the rows and the memory say of a path, by the steps from its last row on. -/
theorem lastVerdict_at (before : List Step) (i : ℕ) {between after : List Step} {deleted : Bool} (hop : op.verdict p=some deleted)
    (hsilent : ∀x∈between++after,∀op',x.row=some op' → op'.verdict p=none) :
    lastVerdict p ((before++.wrote i op::(between++.remembered i op::after)).filterMap Step.row)=some deleted ∧
      lastVerdict p ((before++.wrote i op::(between++.remembered i op::after)).filterMap Step.memory) =
        (lastVerdict p (after.filterMap Step.memory)).or (some deleted) := by
  have hrows : lastVerdict p ((between++.remembered i op::after).filterMap Step.row)=none := by
    apply lastVerdict_of_silent
    intro x hx op' hop'
    rcases mem_append.mp hx with hx | hx
    · exact hsilent x (mem_append_left _ hx) op' hop'
    · rcases mem_cons.mp hx with rfl | hx
      · cases hop'
      · exact hsilent x (mem_append_right _ hx) op' hop'
  constructor
  · rw [filterMap_append,lastVerdict_append]
    change (lastVerdict p (op::_)).or _=_
    rw [lastVerdict_cons,hrows,hop]
    rfl
  · rw [filterMap_append,lastVerdict_append]
    change (lastVerdict p ((between++.remembered i op::after).filterMap Step.memory)).or _=_
    rw [filterMap_append,lastVerdict_append]
    change ((lastVerdict p (op::_)).or _).or _=_
    rw [lastVerdict_cons,hop]
    cases lastVerdict p (after.filterMap Step.memory) <;> rfl

/-- Once every change is remembered, a path has rows and changes in memory or neither. -/
theorem Paired.silent_iff (h : Paired steps fun _ => none) :
    lastVerdict p (steps.filterMap Step.row)=none ↔ lastVerdict p (steps.filterMap Step.memory)=none := by
  constructor
  · intro hrow
    apply lastVerdict_of_silent
    intro x hx op hop
    cases x with
    | wrote i op' => cases hop
    | remembered i op' =>
      cases hop
      exact (lastVerdict_eq_none_iff p _).mp hrow _ (mem_filterMap.mpr ⟨_,h.mem_wrote.2 i op hx,rfl⟩)
  · intro hmemory
    apply lastVerdict_of_silent
    intro x hx op hop
    cases x with
    | remembered i op' => cases hop
    | wrote i op' =>
      cases hop
      obtain ⟨before,after,hsteps⟩:=append_of_mem hx
      rcases h.remembers hsteps with ⟨hnone,-⟩ | ⟨between,rest,rfl,-⟩
      · cases hnone
      · exact (lastVerdict_eq_none_iff p _).mp hmemory op
          (mem_filterMap.mpr ⟨.remembered i op,by rw [hsteps]; simp,rfl⟩)

/-- Once every change is remembered, the order of the steps decides whether the last ones agree. -/
theorem inOrder_iff (h : Paired steps fun _ => none) :
    InOrder p steps ↔ lastVerdict p (steps.filterMap Step.row)=lastVerdict p (steps.filterMap Step.memory) := by
  constructor
  · intro horder
    cases hrow : lastVerdict p (steps.filterMap Step.row) with
    | none => exact (h.silent_iff.mp hrow).symm
    | some deleted =>
      obtain ⟨before,x,tail,op,hsteps,hx,hop,hsilent⟩:=split_of_lastVerdict hrow
      cases x with
      | remembered i op' => cases hx
      | wrote i op' =>
        cases hx
        rcases h.remembers hsteps with ⟨hnone,-⟩ | ⟨between,after,rfl,hnot⟩
        · cases hnone
        have hsilent' : ∀x∈between++after,∀op',x.row=some op' → op'.verdict p=none := by
          intro x hx
          rcases mem_append.mp hx with hx | hx
          · exact hsilent x (mem_append_left _ hx)
          · exact hsilent x (mem_append_right _ (mem_cons_of_mem _ hx))
        rw [hsteps,(lastVerdict_at before i hop hsilent').2]
        cases hafter : lastVerdict p (after.filterMap Step.memory) with
        | none => rfl
        | some b =>
          by_cases hb : b=deleted
          · rw [hb]
            rfl
          -- the other verdict came last, and nothing changed it back
          obtain ⟨soon,y,later,other,hsplit,hy,hother,hlast⟩:=split_of_lastVerdict hafter
          cases y with
          | wrote j other' => cases hy
          | remembered j other' =>
            cases hy
            have hflip : other.verdict p=some (!deleted) := by
              rw [hother]
              cases b <;> cases deleted <;> simp_all
            obtain ⟨k,same,hmem,hsame⟩:=horder before i op between after deleted hsteps hnot hop hsilent' soon j other later hsplit hflip
            rw [hlast _ hmem same rfl] at hsame
            cases hsame
  · rintro hlast before i op between after deleted rfl hnot hop hsilent soon j other later rfl hother
    obtain ⟨hrow,hmemory⟩:=lastVerdict_at before i hop hsilent
    rw [hrow,hmemory,filterMap_append,lastVerdict_append] at hlast
    change some deleted=((lastVerdict p (other::later.filterMap Step.memory)).or _).or _ at hlast
    rw [lastVerdict_cons,hother] at hlast
    cases hlater : lastVerdict p (later.filterMap Step.memory) with
    | none =>
      rw [hlater] at hlast
      cases deleted <;> cases hlast
    | some b =>
      rw [hlater] at hlast
      obtain ⟨-,x,-,same,rfl,hx,hsame,-⟩:=split_of_lastVerdict hlater
      cases x with
      | wrote k op' => cases hx
      | remembered k op' =>
        cases hx
        cases hlast
        exact ⟨k,same,by simp,hsame⟩

theorem pending_of_returned (hr : sys.Returned) : sys.pending=fun _ => none := by
  funext i
  rw [System.pending]
  cases hjob : sys.jobs[i]? with
  | none => rfl
  | some job =>
    have hreturned:=hr job (mem_of_getElem? hjob)
    cases job with
    | returned => rfl
    | _ => cases hreturned

def Shared.Agrees (sh : Shared π) : Prop := ∀ p, sh.replayed.isDeleted p = true ↔ p ∈ sh.overlay.tombstones

/-- After every run of operations that ended, from a state in which rows and memory agree: they agree again exactly
when for each path the steps of the operations about it are in order. -/
theorem agrees_iff_inOrder {s : State π} (calls : List (Op × Faults)) {events : List (ℕ × Choice)} {sys : System π}
    (h₀ : ∀ p, s.files.isDeleted p = true ↔ p ∈ s.tombstones) (hrun : (System.start c s calls).run events = some sys)
    (hr : sys.Returned) :
    sys.shared.Agrees ↔ ∀ p, InOrder p ((System.start c s calls).steps events) := by
  have hlog := (System.Logged.start c s calls).run hrun
  rw [nil_append] at hlog
  have hpaired := hlog.paired
  rw [pending_of_returned hr] at hpaired
  have hstart : ∀ p, s.files.isDeleted p = decide (p ∈ s.tombstones) := fun p =>
    Bool.eq_iff_iff.mpr ((h₀ p).trans decide_eq_true_iff.symm)
  apply forall_congr'
  intro p
  rw [inOrder_iff hpaired]
  rw [hlog.follows.rows,isDeleted_applyPendingOpsSql,hlog.follows.memory,
    ← decide_eq_true_iff (p := p ∈ List.foldl rememberOp s.tombstones _),mem_foldl_rememberOp,
    ← hstart,← Bool.eq_iff_iff]
  cases hw : lastVerdict p (((System.start c s calls).steps events).filterMap Step.row) with
  | none => simp [hpaired.silent_iff.mp hw]
  | some b =>
    cases hm : lastVerdict p (((System.start c s calls).steps events).filterMap Step.memory) with
    | none =>
      rw [hpaired.silent_iff.mpr hm] at hw
      cases hw
    | some b' => simp

/-! ## An unlink against a create -/

/-- An unlink and a create of the same name, the row of the create written after that of the unlink, the
memory of the unlink changed after that of the create. -/
def unlinkCreate : System Unit := System.start configA freshState
  [(.unlink "/a".toList,noFaults),(.createFile "/a".toList 0o644,noFaults)]

def crossed : List (ℕ × Choice) :=
  [(0,.host),(0,.write true),(1,.host),(1,.write true),(1,.remember),(0,.remember)]

def inTurn : List (ℕ × Choice) :=
  [(0,.host),(0,.write false),(0,.remember),(1,.host),(1,.replay),(1,.write true),(1,.remember)]

theorem inTurn_runs : (unlinkCreate.run inTurn).isSome=true := by decide +kernel

theorem crossed_runs : (unlinkCreate.run crossed).isSome=true := by decide +kernel

theorem agrees_inTurn : ∃ sys, unlinkCreate.run inTurn = some sys ∧ sys.shared.Agrees := by
  refine ⟨_,(some_get inTurn_runs).symm,?_⟩
  have hreturned : ((unlinkCreate.run inTurn).get inTurn_runs).Returned := by decide +kernel
  have hlog := ((System.Logged.start configA freshState _).run (some_get inTurn_runs).symm).paired
  rw [pending_of_returned hreturned] at hlog
  have hsame : (unlinkCreate.steps inTurn).filterMap Step.row = (unlinkCreate.steps inTurn).filterMap Step.memory := by
    decide +kernel
  refine (agrees_iff_inOrder (c := configA) _ (fun p => ?_) (some_get inTurn_runs).symm hreturned).mpr fun p => ?_
  · simp [freshState,Files.isDeleted]
  · exact (inOrder_iff hlog).mpr (congrArg (lastVerdict p) hsame)

/-- The unlinked and recreated file is hidden by memory and not by the rows. -/
theorem crossed_disagrees : ∃ sys, unlinkCreate.run crossed = some sys ∧ sys.Returned ∧
    ["a".toList] ∈ sys.shared.overlay.tombstones ∧ sys.shared.replayed.isDeleted ["a".toList] = false :=
  ⟨_,(some_get crossed_runs).symm,by decide +kernel,by decide +kernel,by decide +kernel⟩

end Ratarmount.Overlay
