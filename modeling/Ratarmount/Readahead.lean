import Ratarmount.ByteFields

/-!
# Readahead of a mounted member

How the FUSE and the NFS server answer reads of an open member: a window of bytes read
ahead, a remembered position of the underlying reader that saves seeks, and the memory
budget that may drop the window or refuse a new one. What the seeks do, what the reads
of each fill do and when memory runs short stand in lists that the requests consume.
-/

namespace Ratarmount.Readahead

/-- What one call of `read` does. -/
inductive Event
  /-- It delivers `n + 1` bytes at most. -/
  | piece (n : ℕ)
  /-- It fails after the reader has moved on. -/
  | fail (moved : ℕ)
  /-- It fails with `Interrupted`, after the reader has moved on. -/
  | interrupted (moved : ℕ)

/-- What one call of `seek` does. -/
inductive Seek
  | done
  | fail (moved : ℕ)

structure Window where
  start : ℕ
  data : Bytes
  hitEof : Bool

/-- A handle: the underlying reader with the seeks and fills to come, the readahead state and the memory pressure to
come. -/
structure Handle where
  pos : ℕ
  seeks : List Seek
  fills : List (List Event)
  window : Option Window
  cursor : Option ℕ
  lastEnd : Option ℕ
  drops : List Bool
  refusals : List Bool

def satAdd (m n : ℕ) : ℕ := min (m + n) (2 ^ 64 - 1)

def Window.endOffset (w : Window) : ℕ := satAdd w.start w.data.length

def Window.tryServe (w : Window) (offset size : ℕ) : Option Bytes :=
  if size = 0 then some []
  else if w.hitEof = true ∧ offset ≥ w.endOffset then some []
  else if offset < w.start then none
  else
    let i := offset - w.start
    if i ≥ w.data.length then none
    else
      let stop := min (satAdd i size) w.data.length
      let slice := (w.data.drop i).take (stop - i)
      if slice.length = size then some slice
      else if w.hitEof = true ∧ stop = w.data.length then some slice
      else none

section Reader

variable (content : Bytes)

def Handle.seek (h : Handle) (offset : ℕ) : Bool × Handle :=
  match h.seeks with
  | [] => (true,{ h with pos := offset })
  | .done :: seeks => (true,{ h with pos := offset, seeks := seeks })
  | .fail moved :: seeks => (false,{ h with pos := h.pos + moved, seeks := seeks })

/-- The loop of `fill_read_for_fuse` over the calls of `Read::read`: the bytes if no call failed, and the position.
Without a further event the reader delivers all that is asked for. -/
def fillLoop : List Event → ℕ → ℕ → Bytes → Option Bytes × ℕ
  | [], pos, len, filled =>
    let got := content.slice pos len
    (some (filled ++ got),pos + got.length)
  | event :: events, pos, len, filled =>
    if len = 0 then (some filled,pos)
    else
      match event with
      | .piece n =>
        let got := content.slice pos (min len (n + 1))
        if got = [] then (some filled,pos)
        else fillLoop events (pos + got.length) (len - got.length) (filled ++ got)
      | .fail moved => (none,pos + moved)
      | .interrupted moved => fillLoop events (pos + moved) len filled

def Handle.fillRead (h : Handle) (len : ℕ) : Option Bytes × Handle :=
  let (out,pos) := fillLoop content (h.fills.headD []) h.pos len []
  (out,{ h with pos := pos, fills := h.fills.tail })

def Handle.clear (h : Handle) : Handle := { h with window := none, cursor := none, lastEnd := none }

def Handle.direct (h : Handle) (offset size : ℕ) : Option Bytes × Handle :=
  match h.clear.seek offset with
  | (false,h) => (none,h)
  | (true,h) => h.fillRead content size

/-- The seek that is skipped if the cursor is known to be there. -/
def Handle.seekUnlessThere (h : Handle) (offset : ℕ) : Bool × Handle :=
  if h.cursor ≠ some offset then
    match h.seek offset with
    | (false,h) => (false,h)
    | (true,h) => (true,{ h with cursor := some offset })
  else (true,h)

def Handle.fillWindow (h : Handle) (want offset size : ℕ) : Option Bytes × Handle :=
  match h.fillRead content want with
  | (none,h) => (none,h)
  | (some data,h) =>
    let out := data.take (min data.length size)
    (some out,{ h with
      cursor := some (satAdd offset data.length)
      lastEnd := some (satAdd offset out.length)
      window := some ⟨offset,data,data.length < want⟩ })

section Fuse

/-- Memory pressure may drop the window whenever its lock is free. -/
def Handle.pressed (h : Handle) : Handle :=
  match h.drops with
  | [] => h
  | dropped :: drops => { h with drops := drops, window := if dropped = true then none else h.window }

/-- `is_sequential_miss`, which takes the lock of the window up to twice. -/
def Handle.isSequentialMiss (h : Handle) (offset : ℕ) : Bool × Handle :=
  let h := h.pressed
  if h.window.isNone = true ∧ h.lastEnd.isNone = true then (true,h)
  else if h.lastEnd = some offset then (true,h)
  else
    let h := h.pressed
    (h.window.any fun w => offset = w.endOffset,h)

def Handle.reserve (enabled : Bool) (h : Handle) : Bool × Handle :=
  if enabled = false then (true,h)
  else
    match h.refusals with
    | [] => (true,h)
    | refused :: refusals => (!refused,{ h with refusals := refusals })

def Handle.miss (enabled : Bool) (readahead : ℕ) (h : Handle) (offset size : ℕ) : Option Bytes × Handle :=
  let (sequential,h) := h.isSequentialMiss offset
  let want := if sequential = true then max size readahead else size
  match h.seekUnlessThere offset with
  | (false,h) => (none,h)
  | (true,h) =>
    let h := if enabled = true then { h with window := none } else h
    match h.reserve enabled with
    | (false,h) => h.direct content offset size
    | (true,h) => h.fillWindow content want offset size

/-- `readahead_fill` with readahead. A request over the window's end takes the window's rest and asks again for
fewer bytes. -/
def Handle.windowed (enabled : Bool) (readahead : ℕ) : ℕ → Handle → ℕ → ℕ → Option Bytes × Handle
  | 0, h, _, _ => (some [],h)
  | turns + 1, h, offset, size =>
    if size = 0 then (some [],h)
    else
      let h := h.pressed
      match h.window with
      | none => h.miss content enabled readahead offset size
      | some w =>
        match w.tryServe offset size with
        | some out => (some out,{ h with lastEnd := some (satAdd offset out.length) })
        | none =>
          if h.lastEnd = some offset ∧ offset ≥ w.start ∧ offset < w.endOffset then
            let out := w.data.drop (offset - w.start)
            match windowed enabled readahead turns { h with lastEnd := some w.endOffset } w.endOffset
              (size - out.length) with
            | (none,h) => (none,h)
            | (some rest,h) => (some (out ++ rest),h)
          else h.miss content enabled readahead offset size

/-- `readahead_fill` of the FUSE server. The requests it makes to itself get smaller. -/
def fuseReadaheadFill (enabled : Bool) (readahead : ℕ) (h : Handle) (offset size : ℕ) : Option Bytes × Handle :=
  if readahead = 0 then h.direct content offset size else h.windowed content enabled readahead size offset size

end Fuse

section Nfs

/-- `is_sequential_miss` of the NFS server. -/
def Handle.continues (h : Handle) (offset : ℕ) : Bool :=
  (h.window.isNone && h.lastEnd.isNone) || h.lastEnd = some offset || h.window.any fun w => offset = w.endOffset

/-- `readahead_fill` of the NFS server. -/
def nfsReadaheadFill (readahead : ℕ) (h : Handle) (offset size : ℕ) : Option Bytes × Handle :=
  if readahead = 0 then h.direct content offset size
  else if size = 0 then (some [],h)
  else
    match h.window.bind fun w => w.tryServe offset size with
    | some out => (some out,{ h with lastEnd := some (satAdd offset out.length) })
    | none =>
      let want := if h.continues offset = true then max size readahead else size
      match h.seekUnlessThere offset with
      | (false,h) => (none,h)
      | (true,h) => h.fillWindow content want offset size

end Nfs

end Reader

/-- The two servers. The FUSE server's memory budget is enabled or not. -/
inductive Server
  | fuse (enabled : Bool)
  | nfs

def Server.readaheadFill (content : Bytes) : Server → ℕ → Handle → ℕ → ℕ → Option Bytes × Handle
  | .fuse enabled => fuseReadaheadFill content enabled
  | .nfs => nfsReadaheadFill content

end Ratarmount.Readahead
