import Ratarmount.MountSource

/-!
# The union of mount sources

`UnionMountSource`: lookup by version over all sources, rightmost first, and the
folder cache that says which sources a path can come from. The cache is built
level by level; a build that runs out of time or entries keeps the levels that
it has finished.
-/

namespace Ratarmount.Union

open Mount

variable {ι : Type}

def maxSymlinkResolveHops : ℕ := 8

/-- The hops of `follow_symlink_then`, from a link at `path`. -/
def followHops {α : Type} (src : MountSource ι) (tryList : Path → Option α) :
    ℕ → List Path → Path → FileInfo ι → Option α
  | 0, _, _, _ => none
  | hops + 1, seen, path, fi =>
    if !isLnkMode fi.mode || fi.linkname = [] then none
    else
      let target := resolveSymlinkTarget path fi.linkname
      if target ∈ seen then none
      else
        match tryList target with
        | some v => some v
        | none =>
          match src.lookup target 0 with
          | none => none
          | some next => followHops src tryList hops (target :: seen) target next

/-- `try_list` at `path`, or at what a link there leads to. -/
def followSymlinkThen {α : Type} (src : MountSource ι) (path : Path) (resolveSymlinks : Bool)
    (tryList : Path → Option α) : Option α :=
  match tryList path with
  | some v => some v
  | none =>
    match src.lookup path 0 with
    | none => none
    | some fi => followHops src tryList (if resolveSymlinks then maxSymlinkResolveHops else 1) [path] path fi

def listDirentsFromSource (src : MountSource ι) (path : Path) (resolveSymlinks : Bool) : Option (List Dirent) :=
  followSymlinkThen src path resolveSymlinks src.listDirents

def listFromSource (src : MountSource ι) (path : Path) (resolveSymlinks : Bool) : Option (ListResult ι) :=
  followSymlinkThen src path resolveSymlinks src.list

/-- Whether the cache takes a listed child for a folder of the source. -/
def folderCacheShouldIncludeChild (src : MountSource ι) (child : Path) (mode : ℕ) (resolveSymlinks : Bool) : Bool :=
  if isDirMode mode then true
  else if isLnkMode mode then (listDirentsFromSource src child resolveSymlinks).isSome
  else if mode = 0 then
    match src.lookup child 0 with
    | some fi =>
      if isDirMode fi.mode then true
      else if !isLnkMode fi.mode then false
      else (listDirentsFromSource src child resolveSymlinks).isSome || (listFromSource src child resolveSymlinks).isSome
    | none => (listDirentsFromSource src child resolveSymlinks).isSome || (listFromSource src child resolveSymlinks).isSome
  else false

abbrev FolderCache := List (Path × List ℕ)

namespace FolderCache

def get (c : FolderCache) (p : Path) : Option (List ℕ) := (c.find? (fun e => e.1 = p)).map Prod.snd

def push (p : Path) (i : ℕ) : FolderCache → FolderCache
  | [] => [(p,[i])]
  | e :: c => if e.1 = p then (e.1,e.2 ++ [i]) :: c else e :: push p i c

end FolderCache

/-- What a build may not foresee: how many of its clock checks pass, and in which order it meets the folders of
a level. -/
structure Schedule where
  checks : ℕ
  order : ℕ → FolderCache → FolderCache
  perm : ∀ n c, (order n c).Perm c

structure Scan where
  checks : ℕ
  entriesLeft : ℕ
  newCache : FolderCache := []

/-- The check before each listing and each child. -/
def Scan.tick (s : Scan) : Option Scan :=
  if s.checks = 0 ∨ s.entriesLeft = 0 then none else some { s with checks := s.checks - 1 }

section Build

variable (sources : List (MountSource ι)) (resolveSymlinks : Bool)

def scanDents (src : MountSource ι) (si : ℕ) (folder : Path) : List Dirent → Scan → Option Scan
  | [], s => some s
  | d :: dents, s =>
    match s.tick with
    | none => none
    | some s =>
      if folderCacheShouldIncludeChild src (folder ++ [d.name]) d.mode resolveSymlinks then
        scanDents src si folder dents { s with entriesLeft := s.entriesLeft - 1,
                                               newCache := s.newCache.push (folder ++ [d.name]) si }
      else scanDents src si folder dents s

def scanSources (folder : Path) : List ℕ → Scan → Option Scan
  | [], s => some s
  | si :: idxs, s =>
    match s.tick, sources[si]? with
    | none, _ => none
    | some s, none => scanSources folder idxs s
    | some s, some src =>
      match listDirentsFromSource src folder resolveSymlinks with
      | none => scanSources folder idxs s
      | some dents =>
        match scanDents resolveSymlinks src si folder dents s with
        | none => none
        | some s => scanSources folder idxs s

def scanFolders : FolderCache → Scan → Option Scan
  | [], s => some s
  | (folder,idxs) :: last, s =>
    match scanSources sources resolveSymlinks folder idxs s with
    | none => none
    | some s => scanFolders last s

/-- A folder cache and the depth up to which it is complete. -/
structure Cache where
  folders : FolderCache
  depth : ℕ

/-- The levels from `depth` on, at most `n` of them. -/
def buildLevels (order : ℕ → FolderCache → FolderCache) : ℕ → ℕ → FolderCache → ℕ → ℕ → Cache → Cache
  | 0, _, _, _, _, c => c
  | n + 1, depth, last, checks, entriesLeft, c =>
    match scanFolders sources resolveSymlinks (order depth last) { checks, entriesLeft } with
    | none => c
    | some s =>
      if s.newCache = [] then c
      else buildLevels order n (depth + 1) s.newCache s.checks s.entriesLeft
        { folders := c.folders ++ s.newCache, depth }

def rootIdxs : List ℕ := (List.range sources.length).filter (fun i => (sources[i]?.map MountSource.isImmutable).getD false)

def buildFolderCache (sched : Schedule) (maxCacheDepth maxCacheEntries : ℕ) : Cache :=
  buildLevels sources resolveSymlinks sched.order (maxCacheDepth - 1) 1 [([],rootIdxs sources)] sched.checks
    maxCacheEntries { folders := [([],rootIdxs sources)], depth := 0 }

end Build

def parentAtDepth (path : Path) (depth : ℕ) : Path := path.take (min depth (path.length - 1))

def resolveHops (src : MountSource ι) : ℕ → List Path → Path → FileInfo ι → Option (FileInfo ι)
  | 0, _, _, fi => if isLnkMode fi.mode then none else some fi
  | hops + 1, seen, path, fi =>
    if !isLnkMode fi.mode then some fi
    else if fi.linkname = [] then none
    else
      let target := resolveSymlinkTarget path fi.linkname
      if target ∈ seen then none
      else
        match src.lookup target 0 with
        | none => none
        | some next => resolveHops src hops (target :: seen) target next

def maybeResolveWinner (src : MountSource ι) (path : Path) (fi : FileInfo ι) (resolveSymlinks : Bool) :
    Option (FileInfo ι) :=
  if !resolveSymlinks || !isLnkMode fi.mode then some fi
  else resolveHops src maxSymlinkResolveHops [path] path fi

/-- An entry with the source that it comes from; the root comes from none. -/
structure Hit (ι : Type) where
  source : Option ℕ
  info : FileInfo ι

def wrap32 (n : ℤ) : ℤ := (n + 2 ^ 31) % 2 ^ 32 - 2 ^ 31

section Walks

variable (sources : List (MountSource ι)) (resolveSymlinks : Bool) (path : Path)

/-- The winner of a walk, resolved and tagged with its source. -/
def tagged (si : ℕ) (src : MountSource ι) (fi : FileInfo ι) : Option (Hit ι) :=
  (maybeResolveWinner src path fi resolveSymlinks).map (fun fi => { source := some si, info := fi })

/-- Version 0, from the rightmost source on: the first directory, or else the first entry. -/
def pickNewest : List ℕ → Option (ℕ × MountSource ι × FileInfo ι) → Option (ℕ × MountSource ι × FileInfo ι)
  | [], any => any
  | si :: idxs, any =>
    match sources[si]? with
    | none => pickNewest idxs any
    | some src =>
      match src.lookup path 0 with
      | none => pickNewest idxs any
      | some fi => if isDirMode fi.mode then some (si,src,fi) else pickNewest idxs (any.or (some (si,src,fi)))

def lookupNewest (idxs : List ℕ) : Option (Hit ι) :=
  match pickNewest sources path idxs.reverse none with
  | none => none
  | some (si,src,fi) => tagged resolveSymlinks path si src fi

/-- Negative versions, from the rightmost source on. -/
def walkNegative : List ℕ → ℤ → Option (Hit ι)
  | [], _ => none
  | si :: idxs, ver =>
    match sources[si]? with
    | none => walkNegative idxs ver
    | some src =>
      match src.lookup path ver with
      | some fi => tagged resolveSymlinks path si src fi
      | none =>
        let ver := wrap32 (ver + src.versions path)
        if 0 < ver then none else walkNegative idxs ver

/-- Positive versions, from the leftmost source on. -/
def walkPositive : List ℕ → ℤ → Option (Hit ι)
  | [], _ => none
  | si :: idxs, ver =>
    match sources[si]? with
    | none => walkPositive idxs ver
    | some src =>
      match src.lookup path ver with
      | some fi => tagged resolveSymlinks path si src fi
      | none =>
        let ver := wrap32 (ver - src.versions path)
        if ver < 1 then none else walkPositive idxs ver

def lookupIn (idxs : List ℕ) (fileVersion : ℤ) : Option (Hit ι) :=
  if fileVersion = 0 then lookupNewest sources resolveSymlinks path idxs
  else if fileVersion < 0 then walkNegative sources resolveSymlinks path idxs.reverse fileVersion
  else walkPositive sources resolveSymlinks path idxs fileVersion

end Walks

structure UnionMountSource (ι : Type) where
  sources : List (MountSource ι)
  cache : Cache
  resolveSymlinks : Bool

def withoutCache (sources : List (MountSource ι)) (resolveSymlinks : Bool) : UnionMountSource ι :=
  { sources, cache := { folders := [], depth := 0 }, resolveSymlinks }

def newWithOptions (sources : List (MountSource ι)) (resolveSymlinks : Bool) (sched : Schedule)
    (maxCacheDepth maxCacheEntries : ℕ) : UnionMountSource ι :=
  if 1 < sources.length then
    { sources, resolveSymlinks,
      cache := buildFolderCache sources resolveSymlinks sched (max maxCacheDepth 1) maxCacheEntries }
  else withoutCache sources resolveSymlinks

section Lookup

variable (u : UnionMountSource ι)

def cachedFor (path : Path) : Option (List ℕ) :=
  (u.cache.folders.get path).or
    (if 0 < u.cache.depth then u.cache.folders.get (parentAtDepth path u.cache.depth) else none)

/-- Whether the cache lets a source be asked; a mutable one always is. -/
def consults (path : Path) (i : ℕ) : Bool :=
  !((u.sources[i]?.map MountSource.isImmutable).getD true) ||
    match cachedFor u path with
    | some c => i ∈ c
    | none => true

def sourcesForPath (path : Path) : List ℕ :=
  let all := List.range u.sources.length
  if u.sources.length ≤ 1 ∨ u.cache.folders = [] then all
  else
    let out := all.filter (consults u path)
    if out = [] then all else out

def lookup (root : FileInfo ι) (path : Str) (fileVersion : ℤ) : Option (Hit ι) :=
  if components path = [] then some { source := none, info := root }
  else lookupIn u.sources u.resolveSymlinks (components path) (sourcesForPath u (components path)) fileVersion

def versions (path : Str) : ℕ := (u.sources.map (fun s => s.versions (components path))).sum % 2 ^ 32

end Lookup

end Ratarmount.Union
